import Mathlib.Algebra.Group.Int.Defs
import Mathlib.Algebra.Group.Nat.Defs

/-!
# GumIndexer.Numeric

The number formats of the store: 256-bit unsigned integers on the chain side,
`NUMERIC(78, 0)` columns on the database side, and the two conversions
between them.

A column is read back as a `BigDecimal`, an integer with a decimal scale, and
`fromNumeric` is the only guard between the two worlds: `NUMERIC(78, 0)` holds
up to `10 ^ 78 - 1`, a `uint256` less than that, so a sum that is fine for the
database may be refused when the row is read again.
-/

namespace GumIndexer

/-- Row and event identifiers. -/
abbrev Uuid := Nat

/-- A 20-byte account or contract address. -/
abbrev Address := BitVec 160

/-- A 32-byte word: hashes and log topics. -/
abbrev B256 := BitVec 256

/-- An on-chain amount; arithmetic on it wraps. -/
abbrev U256 := BitVec 256

/-- A decimal number `int * 10 ^ (-scale)`. -/
structure BigDecimal where
  int : Int
  scale : Int
deriving DecidableEq, Repr

/-- `BigDecimal::with_scale`: multiply by a power of ten, or drop digits
towards zero. -/
def BigDecimal.withScale (d : BigDecimal) (newScale : Int) : BigDecimal :=
  if d.scale ≤ newScale then ⟨d.int * 10 ^ (newScale - d.scale).toNat, newScale⟩
  else ⟨d.int.tdiv (10 ^ (d.scale - newScale).toNat), newScale⟩

/-- The constraints whose violation a statement of the store can run into. -/
inductive Constraint
  | watchesPkey
  | watchesThreshold
  | outboxWatchSeq
deriving DecidableEq, Repr

/-- Database errors: `fetch_one` without a row, a violated constraint, or a
number that its `NUMERIC(78, 0)` column cannot hold. -/
inductive DbError
  | rowNotFound
  | uniqueViolation (constraint : Constraint)
  | checkViolation (constraint : Constraint)
  | numericOverflow
deriving DecidableEq, Repr

/-- `StoreError`.  `corrupt v` stands for the text "NUMERIC value {v} is not a
uint256". -/
inductive StoreError
  | db (e : DbError)
  | corrupt (v : BigDecimal)
  | missingCursor (chainId : Nat)
deriving DecidableEq, Repr

/-- `to_numeric`. -/
def toNumeric (v : U256) : BigDecimal := ⟨v.toNat, 0⟩

/-- `from_numeric`.  The magnitude of an integer takes more than 32 bytes
exactly from `2 ^ 256` on. -/
def fromNumeric (v : BigDecimal) : Except StoreError U256 :=
  let d := v.withScale 0
  if d.scale ≠ 0 ∨ d.int < 0 ∨ 2 ^ 256 ≤ d.int.natAbs then .error (.corrupt v)
  else .ok (BitVec.ofNat 256 d.int.natAbs)

/-- Reading back a `NUMERIC(78, 0)` column that holds `n`. -/
def numericColumn (n : Nat) : Except StoreError U256 := fromNumeric ⟨n, 0⟩

theorem numericColumn_eq (n : Nat) :
    numericColumn n =
      if n < 2 ^ 256 then .ok (BitVec.ofNat 256 n) else .error (.corrupt ⟨n, 0⟩) := by
  have hscale : BigDecimal.withScale ⟨n, 0⟩ 0 = ⟨n, 0⟩ := by
    simp [BigDecimal.withScale]
  have hrange : ((0 : Int) ≠ 0 ∨ (n : Int) < 0 ∨ 2 ^ 256 ≤ (n : Int).natAbs) ↔ ¬ n < 2 ^ 256 := by
    rw [Int.natAbs_natCast]
    omega
  rw [numericColumn, fromNumeric, hscale]
  by_cases h : n < 2 ^ 256
  · rw [if_pos h, if_neg fun hbad => hrange.mp hbad h, Int.natAbs_natCast]
  · rw [if_neg h, if_pos (hrange.mpr h)]

theorem numericColumn_of_lt {n : Nat} (h : n < 2 ^ 256) :
    numericColumn n = .ok (BitVec.ofNat 256 n) := by
  rw [numericColumn_eq, if_pos h]

/-- A column reads back as the number it holds, or not at all. -/
theorem numericColumn_ok {n : Nat} {v : U256} (h : numericColumn n = .ok v) :
    n < 2 ^ 256 ∧ v.toNat = n := by
  rw [numericColumn_eq] at h
  split at h
  · next hlt =>
      injection h with h
      subst h
      exact ⟨hlt, by rw [BitVec.toNat_ofNat, Nat.mod_eq_of_lt hlt]⟩
  · contradiction

end GumIndexer
