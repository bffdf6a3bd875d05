import GumIndexer.Numeric
import Mathlib.Algebra.Order.Field.Power
import Mathlib.Algebra.Order.Field.Rat
import Mathlib.Tactic.Linarith
import Mathlib.Tactic.Positivity

/-!
# GumIndexer.Decimal

What number does a `BigDecimal` stand for, and which number does `from_numeric`
make of it?

`from_numeric` rescales to 0 before it looks at anything, and rescaling drops
the digits behind the point.  Its check of the scale can therefore not fail,
and a fraction is read as the integer next to it on the side of zero
(`half_read_as_zero`).  Integers, and whatever is out of range after the digits
are dropped, are treated as they should be (`numeric_exact_iff`).
-/

namespace GumIndexer

namespace BigDecimal

/-- The number itself. -/
def value (d : BigDecimal) : ℚ := d.int * (10 : ℚ) ^ (-d.scale)

/-- `with_scale(0)` as a number: what is left of `d` without its fraction. -/
def truncated (d : BigDecimal) : Int := (d.withScale 0).int

variable {d : BigDecimal}

/-- Scale zero drops the digits after the point. -/
theorem withScale_zero (d : BigDecimal) : d.withScale 0 = ⟨d.truncated, 0⟩ := by
  unfold truncated withScale
  split <;> rfl

/-- Up to scale 0 nothing is dropped. -/
theorem value_of_scale_nonpos (h : d.scale ≤ 0) : d.value = d.truncated := by
  have hexp : (-d.scale) = ((0 - d.scale).toNat : Int) := by omega
  unfold value truncated withScale
  rw [if_pos h, hexp, zpow_natCast]
  push_cast
  rfl

/-- Above scale 0 the number is a fraction, which is divided towards zero. -/
theorem value_of_scale_pos (h : 0 < d.scale) :
    d.value = d.int / ((10 ^ d.scale.toNat : Int) : ℚ) ∧
      d.truncated = d.int.tdiv (10 ^ d.scale.toNat) := by
  have hexp : d.scale = (d.scale.toNat : Int) := by omega
  constructor
  · unfold value
    rw [zpow_neg, ← div_eq_mul_inv]
    nth_rewrite 1 [hexp]
    rw [zpow_natCast]
    push_cast
    rfl
  · unfold truncated withScale
    rw [if_neg (by omega), sub_zero]

/-- Dropping the fraction of a number that is not negative is rounding down. -/
theorem truncated_of_nonneg (h : 0 ≤ d.value) :
    0 ≤ d.truncated ∧ (d.truncated : ℚ) ≤ d.value ∧ d.value < d.truncated + 1 := by
  rcases le_or_gt d.scale 0 with hs | hs
  · have heq := value_of_scale_nonpos hs
    rw [heq] at h ⊢
    exact ⟨by exact_mod_cast h, le_refl _, by linarith⟩
  · obtain ⟨hvalue, htrunc⟩ := value_of_scale_pos hs
    have hpos : (0 : Int) < 10 ^ d.scale.toNat := by positivity
    have hposq : (0 : ℚ) < ((10 ^ d.scale.toNat : Int) : ℚ) := by exact_mod_cast hpos
    rw [hvalue] at h ⊢
    have hint : 0 ≤ d.int := by
      by_contra hneg
      have hneg' : (d.int : ℚ) < 0 := by exact_mod_cast not_le.mp hneg
      exact absurd h (not_le.mpr (div_neg_of_neg_of_pos hneg' hposq))
    rw [htrunc, Int.tdiv_eq_ediv_of_nonneg hint]
    refine ⟨Int.ediv_nonneg hint hpos.le, ?_, ?_⟩
    · rw [le_div_iff₀ hposq]
      exact_mod_cast Int.ediv_mul_le _ hpos.ne'
    · rw [div_lt_iff₀ hposq]
      exact_mod_cast Int.lt_ediv_add_one_mul_self _ hpos

/-- The value of the negated number. -/
theorem value_neg (d : BigDecimal) : value ⟨-d.int, d.scale⟩ = -d.value := by
  simp [value]

/-- The integer part of the negated number. -/
theorem truncated_neg (d : BigDecimal) : truncated ⟨-d.int, d.scale⟩ = -d.truncated := by
  unfold truncated withScale
  split
  · simp
  · simp [Int.neg_tdiv]

/-- Dropping the fraction of a negative number is rounding up. -/
theorem truncated_of_nonpos (h : d.value ≤ 0) :
    d.truncated ≤ 0 ∧ (d.truncated : ℚ) - 1 < d.value ∧ d.value ≤ d.truncated := by
  have hneg := truncated_of_nonneg (d := ⟨-d.int, d.scale⟩) (by rw [value_neg]; linarith)
  rw [value_neg, truncated_neg] at hneg
  push_cast at hneg
  obtain ⟨hsign, hle, hlt⟩ := hneg
  exact ⟨by omega, by linarith, by linarith⟩

/-- A number without a fraction stays what it is. -/
theorem truncated_of_eq {n : Int} (h : d.value = n) : d.truncated = n := by
  rcases le_total 0 d.value with hv | hv
  · obtain ⟨-, hle, hlt⟩ := truncated_of_nonneg hv
    rw [h] at hle hlt
    have hle' : d.truncated ≤ n := by exact_mod_cast hle
    have hlt' : n < d.truncated + 1 := by exact_mod_cast hlt
    omega
  · obtain ⟨-, hlt, hle⟩ := truncated_of_nonpos hv
    rw [h] at hle hlt
    have hle' : n ≤ d.truncated := by exact_mod_cast hle
    have hlt' : d.truncated - 1 < n := by exact_mod_cast hlt
    omega

end BigDecimal

/-- **What `from_numeric` returns** is the truncated number. -/
theorem fromNumeric_eq_ok_iff {d : BigDecimal} {v : U256} :
    fromNumeric d = .ok v ↔ d.truncated = v.toNat := by
  have hv := v.isLt
  unfold fromNumeric
  rw [BigDecimal.withScale_zero]
  simp only [ne_eq, not_true_eq_false, false_or]
  constructor
  · intro h
    split at h
    · contradiction
    · next hrange =>
        injection h with h
        rw [← h, BitVec.toNat_ofNat, Nat.mod_eq_of_lt (by omega)]
        omega
  · intro h
    rw [if_neg (by omega), h, Int.natAbs_natCast, BitVec.ofNat_toNat, BitVec.setWidth_eq]

/-- The number is the integer `v`, and it reads back as such. -/
def ReadsExactly (d : BigDecimal) : Prop := ∀ v : U256, fromNumeric d = .ok v ↔ d.value = v.toNat

/-- **Stored amounts are exact**: what was written is read back; and a number
is accepted exactly as the `uint256` it is, if it has no fraction, is at most
-1 or at least `2 ^ 256`. -/
theorem numeric_exact_iff (v : U256) (d : BigDecimal) :
    fromNumeric (toNumeric v) = .ok v ∧
      (ReadsExactly d ↔ (∃ n : Int, d.value = n) ∨ d.value ≤ -1 ∨ 2 ^ 256 ≤ d.value) := by
  constructor
  · rw [fromNumeric_eq_ok_iff]
    exact BigDecimal.truncated_of_eq (by simp [BigDecimal.value, toNumeric])
  · constructor
    · intro hreads
      by_contra hnot
      push Not at hnot
      obtain ⟨hfraction, hlow, hhigh⟩ := hnot
      -- the truncated number is a `uint256`, and the number is not
      have hrange : 0 ≤ d.truncated ∧ d.truncated < 2 ^ 256 := by
        rcases le_total 0 d.value with hv | hv
        · obtain ⟨hsign, hle, -⟩ := BigDecimal.truncated_of_nonneg hv
          exact ⟨hsign, by exact_mod_cast lt_of_le_of_lt hle hhigh⟩
        · obtain ⟨hsign, -, hle⟩ := BigDecimal.truncated_of_nonpos hv
          have hgt : (-1 : Int) < d.truncated := by exact_mod_cast lt_of_lt_of_le hlow hle
          omega
      obtain ⟨n, hn⟩ := Int.eq_ofNat_of_zero_le hrange.1
      have hv : (BitVec.ofNat 256 n).toNat = n := by
        rw [BitVec.toNat_ofNat, Nat.mod_eq_of_lt (by omega)]
      refine hfraction n ?_
      have hread := (hreads (BitVec.ofNat 256 n)).mp (fromNumeric_eq_ok_iff.mpr (by rw [hv, hn]))
      rw [hread, hv]
      rfl
    · intro h v
      have hv := v.isLt
      rw [fromNumeric_eq_ok_iff]
      rcases h with ⟨n, hn⟩ | hlow | hhigh
      · rw [BigDecimal.truncated_of_eq hn, hn]
        constructor
        · intro h
          rw [h]
          rfl
        · intro h
          exact_mod_cast h
      · obtain ⟨-, hlt, -⟩ := BigDecimal.truncated_of_nonpos (by linarith : d.value ≤ 0)
        have hneg : d.truncated < 0 := by exact_mod_cast (by linarith : (d.truncated : ℚ) < 0)
        have hnonneg : (0 : ℚ) ≤ v.toNat := Nat.cast_nonneg _
        exact iff_of_false (by omega) fun heq => by linarith
      · obtain ⟨-, -, hlt⟩ := BigDecimal.truncated_of_nonneg (by linarith : 0 ≤ d.value)
        have hbig : (2 ^ 256 : Int) ≤ d.truncated := by
          have hcast : (2 ^ 256 : ℚ) < d.truncated + 1 := by linarith
          exact_mod_cast Int.lt_add_one_iff.mp (by exact_mod_cast hcast)
        have hsmall : (v.toNat : ℚ) < 2 ^ 256 := by exact_mod_cast hv
        exact iff_of_false (by omega) fun heq => by linarith

/-- One half is not an integer, and is read as 0. -/
theorem half_read_as_zero :
    (¬ ∃ n : Int, BigDecimal.value ⟨5, 1⟩ = n) ∧ fromNumeric ⟨5, 1⟩ = .ok 0 ∧
      ¬ ReadsExactly ⟨5, 1⟩ := by
  have hvalue : BigDecimal.value ⟨5, 1⟩ = 1 / 2 := by norm_num [BigDecimal.value]
  have hread : fromNumeric ⟨5, 1⟩ = .ok 0 := by decide +kernel
  refine ⟨?_, hread, fun hreads => ?_⟩
  · rintro ⟨n, hn⟩
    rw [hvalue, div_eq_iff two_ne_zero] at hn
    have hn' : (1 : Int) = n * 2 := by exact_mod_cast hn
    omega
  · have hzero := (hreads 0).mp hread
    rw [hvalue, show BitVec.toNat (0 : U256) = 0 from rfl] at hzero
    norm_num at hzero

end GumIndexer
