import GumIndexer.Coverage
import Mathlib.Algebra.Order.Floor.Semifield
import Mathlib.Data.Rat.Floor

/-!
# GumIndexer.Lookback

How far back does a registration with `payments_since` reach?

The age of the first payment is turned into a number of blocks
(`lookbackBlocks`), which is taken off the highest block that is known
(`startBlock`).  Both are `u64` arithmetic with two divisions that drop their
remainder; two extra blocks make up for that (`ceil_lt_lookback`).
-/

namespace GumIndexer

/-- A `u64` result; `none` is an overflow. -/
def u64? (n : Nat) : Option Nat := if n < 2 ^ 64 then some n else none

/-- `u64::div_ceil`. -/
def divCeil (n d : Nat) : Nat := if n % d = 0 then n / d else n / d + 1

/-- `lookback_blocks`, for an age in whole milliseconds. -/
def lookbackBlocks (ageMillis expectedBlockTimeMs : Nat) : Option Nat := do
  let scaled ← u64? (ageMillis % 2 ^ 64 * 5)
  u64? (divCeil (scaled / 4) (max expectedBlockTimeMs 1) + 2)

/-- `start_block`, with its additions checked. -/
def startBlock? (cursor headEstimate lookback : Nat) : Option Nat := do
  let base := max cursor headEstimate
  let next ← u64? (base + 1)
  return if lookback = 0 then next else min next (max (base - lookback) 1)

/-! ## Arithmetic -/

theorem le_divCeil_mul {n d : Nat} (hd : 0 < d) : n ≤ divCeil n d * d := by
  have hn := Nat.div_add_mod n d
  have hmod := Nat.mod_lt n hd
  unfold divCeil
  split
  · next hzero =>
      rw [hzero, Nat.add_zero, Nat.mul_comm] at hn
      exact hn.ge
  · rw [Nat.add_mul, Nat.mul_comm (n / d)]
    omega

theorem divCeil_le {n d : Nat} (hd : 0 < d) : divCeil n d ≤ n := by
  unfold divCeil
  have hdiv := Nat.div_le_self n d
  split
  · exact hdiv
  · next hmod =>
      have hn := Nat.div_add_mod n d
      have hle : n / d ≤ d * (n / d) := Nat.le_mul_of_pos_left _ hd
      omega

/-- Ages below `2 ^ 60` milliseconds do not overflow. -/
theorem lookbackBlocks_eq {T B : Nat} (hT : T < 2 ^ 60) :
    lookbackBlocks T B = some (divCeil (T * 5 / 4) (max B 1) + 2) := by
  have hcast : T % 2 ^ 64 = T := Nat.mod_eq_of_lt (by omega)
  have hscaled : u64? (T * 5) = some (T * 5) := if_pos (by omega)
  have hle := divCeil_le (n := T * 5 / 4) (d := max B 1) (by omega)
  rw [lookbackBlocks, hcast, hscaled]
  exact if_pos (by omega)

theorem startBlock?_eq {cursor headEstimate lookback : Nat} (hbase : max cursor headEstimate < 2 ^ 63) :
    startBlock? cursor headEstimate lookback = some (startBlock cursor headEstimate lookback) := by
  have hnext : u64? (max cursor headEstimate + 1) = some (max cursor headEstimate + 1) :=
    if_pos (by omega)
  rw [startBlock?, hnext]
  rfl

/-- **The two extra blocks make up for the rounding**, with one to spare. -/
theorem ceil_lt_lookback (T : Nat) {B : Nat} (hB : 0 < B) :
    ⌈(5 / 4 * T / B : ℚ)⌉₊ + 1 ≤ divCeil (T * 5 / 4) B + 2 := by
  have hceil := le_divCeil_mul (n := T * 5 / 4) hB
  have hfloor : T * 5 ≤ 4 * (T * 5 / 4) + 3 := by omega
  have hnat : T * 5 ≤ 4 * ((divCeil (T * 5 / 4) B + 1) * B) := by
    rw [Nat.add_mul]
    omega
  have hrat : (5 / 4 * T / B : ℚ) ≤ (divCeil (T * 5 / 4) B + 1 : Nat) := by
    rw [div_le_iff₀ (by exact_mod_cast hB)]
    have hcast : (T * 5 : ℚ) ≤ 4 * (((divCeil (T * 5 / 4) B + 1 : Nat) : ℚ) * B) := by exact_mod_cast hnat
    linarith
  have hle := Nat.ceil_le.mpr hrat
  omega

/-! ## The result -/

theorem startBlock_bounds (cursor headEstimate lookback : Nat) :
    1 ≤ startBlock cursor headEstimate lookback ∧
      startBlock cursor headEstimate lookback ≤ max cursor headEstimate + 1 := by
  refine ⟨startBlock_pos cursor headEstimate lookback, ?_⟩
  unfold startBlock
  simp only
  split <;> omega

/-- A block of the last `lookback` ones is not below the start block. -/
theorem startBlock_le_of_recent {cursor headEstimate lookback head n b : Nat}
    (hhead : max cursor headEstimate ≤ head) (hlookback : n ≤ lookback) (hn : 0 < lookback)
    (hpos : 0 < b) (hrecent : head < b + n) : startBlock cursor headEstimate lookback ≤ b := by
  unfold startBlock
  simp only
  rw [if_neg (by omega)]
  omega

/-- A registration that succeeds starts at `startBlock`, and records a backfill
up to the cursor exactly if that is not above the cursor. -/
theorem createWatch_startBlock {db db' : Db} {id : Uuid} {new : NewWatch} {w : WatchRow} {cursor : Nat}
    (hat : db.CursorAt new.chainId cursor) (h : createWatch db id new = .ok (.created w, db')) :
    w.startBlock = startBlock cursor new.headEstimate new.lookbackBlocks ∧
      w.backfillTo = if w.startBlock ≤ cursor then some cursor else none := by
  rcases createWatch_ok h with ⟨cur, hcur, hout, -⟩ | ⟨hnot, -⟩
  · rw [hat] at hcur
    cases hcur
    cases hout
    exact ⟨rfl, rfl⟩
  · exact absurd rfl (hnot w)

/-- **`payments_since` is covered.**  If at most `⌈1.25 T / B⌉ + 1` blocks were
produced in the last `T` milliseconds, the start block is not above any of
them, so each is backfilled or still ahead of the cursor.  Nothing overflows on
the way. -/
theorem payments_since_covered (cursor headEstimate head T B n : Nat)
    (hhead : max cursor headEstimate ≤ head) (hfits : head < 2 ^ 63) (hT : T < 2 ^ 60)
    (hn : n ≤ ⌈(5 / 4 * T / (max B 1 : Nat) : ℚ)⌉₊ + 1) :
    ∃ lookback start, lookbackBlocks T B = some lookback ∧
      startBlock? cursor headEstimate lookback = some start ∧
      1 ≤ start ∧ start ≤ max cursor headEstimate + 1 ∧ start < 2 ^ 63 ∧
      (∀ b, 0 < b → head < b + n → b ≤ head → start ≤ b) ∧
      ∀ db db' id new w, new.headEstimate = headEstimate → new.lookbackBlocks = lookback →
        db.CursorAt new.chainId cursor → createWatch db id new = .ok (.created w, db') →
          w.startBlock = start ∧ (w.backfillTo = some cursor ↔ start ≤ cursor) ∧
          (w.backfillTo = none ↔ cursor < start) ∧
          ∀ b, 0 < b → head < b + n → b ≤ head →
            w.startBlock ≤ b ∧ b ≤ cursor ∧ w.backfillTo = some cursor ∨ cursor < b := by
  have hB : 0 < max B 1 := by omega
  have hcount := hn.trans (ceil_lt_lookback T hB)
  have hrecent : ∀ b, 0 < b → head < b + n → b ≤ head →
      startBlock cursor headEstimate (divCeil (T * 5 / 4) (max B 1) + 2) ≤ b :=
    fun b hpos hb _ => startBlock_le_of_recent hhead hcount (Nat.succ_pos _) hpos hb
  obtain ⟨hlow, hhigh⟩ := startBlock_bounds cursor headEstimate (divCeil (T * 5 / 4) (max B 1) + 2)
  refine ⟨_, _, lookbackBlocks_eq hT, startBlock?_eq (by omega), hlow, hhigh, ?_, hrecent, ?_⟩
  · unfold startBlock
    simp only
    rw [if_neg (by omega)]
    omega
  · intro db db' id new w hestimate hlookback hat hcreate
    obtain ⟨hstart, hbackfill⟩ := createWatch_startBlock hat hcreate
    rw [hestimate, hlookback] at hstart
    rw [hbackfill, hstart]
    refine ⟨rfl, by simp, by simp, fun b hpos hb hle => ?_⟩
    have hcovered := hrecent b hpos hb hle
    by_cases hswept : b ≤ cursor
    · exact .inl ⟨hcovered, hswept, if_pos (hcovered.trans hswept)⟩
    · exact .inr (by omega)

/-- Blocks of two seconds, a payment of ten seconds ago: at most eight blocks
since then, of which the watch covers all. -/
theorem payments_since_covered_recent :
    lookbackBlocks 10000 2000 = some 9 ∧ startBlock? 100 105 9 = some 96 ∧
      ∃ lookback start, lookbackBlocks 10000 2000 = some lookback ∧
        startBlock? 100 105 lookback = some start ∧ ∀ b, 0 < b → 106 < b + 8 → b ≤ 106 → start ≤ b := by
  have hn : 8 ≤ ⌈(5 / 4 * (10000 : Nat) / (max 2000 1 : Nat) : ℚ)⌉₊ + 1 := by
    have hceil : 6 < ⌈(5 / 4 * (10000 : Nat) / (max 2000 1 : Nat) : ℚ)⌉₊ := Nat.lt_ceil.mpr (by norm_num)
    omega
  obtain ⟨lookback, start, hlookback, hstart, -, -, -, hcovered, -⟩ :=
    payments_since_covered 100 105 106 10000 2000 8 (by decide) (by decide) (by decide) hn
  exact ⟨by decide, by decide, lookback, start, hlookback, hstart, hcovered⟩

end GumIndexer
