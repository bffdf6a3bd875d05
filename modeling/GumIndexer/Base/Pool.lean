import Mathlib.Data.List.Basic
import Mathlib.Data.List.Count

/-!
# Base.Pool

Workers in a list and the units of a resource they hold.

A worker is replaced by itself in a later stage (`List.set`) or leaves
(`List.eraseIdx`).  `Accounted cap free holds xs` says that the units are all
there: `free` of the `cap` are not held by any worker of `xs`.  The rules say
what has to happen to `free` when a worker takes a unit, gives it back or
leaves with it, so that no more than `cap` workers ever hold one.
-/

namespace Base

universe u v

variable {α : Type u} {β : Type v}

section Workers

variable {xs : List α} {i : Nat} {x y : α}

/-- A list around one of its elements. -/
theorem split_at (h : xs[i]? = some x) :
    ∃ pre post, xs = pre ++ x :: post ∧ xs.eraseIdx i = pre ++ post ∧
      ∀ y, xs.set i y = pre ++ y :: post := by
  induction xs generalizing i with
  | nil => simp at h
  | cons z xs ih =>
      cases i with
      | zero =>
          obtain rfl : z = x := by simpa using h
          exact ⟨[], xs, rfl, rfl, fun _ => rfl⟩
      | succ i =>
          obtain ⟨pre, post, rfl, herase, hset⟩ := ih (by simpa using h)
          exact ⟨z :: pre, post, rfl, by simpa using herase, fun y => by simpa using hset y⟩

/-- What stands in a list after one element was replaced. -/
theorem get?_set_cases {j : Nat} {z : α} (h : (xs.set i y)[j]? = some z) :
    j = i ∧ z = y ∨ j ≠ i ∧ xs[j]? = some z := by
  rw [List.getElem?_set] at h
  by_cases hij : i = j
  · rw [if_pos hij] at h
    split at h
    · exact Or.inl ⟨hij.symm, (Option.some.inj h).symm⟩
    · cases h
  · rw [if_neg hij] at h
    exact Or.inr ⟨Ne.symm hij, h⟩

theorem get?_concat_cases {j : Nat} {z : α} (h : (xs ++ [y])[j]? = some z) :
    j = xs.length ∧ z = y ∨ xs[j]? = some z := by
  rcases Nat.lt_trichotomy j xs.length with hj | hj | hj
  · rw [List.getElem?_append_left hj] at h
    exact Or.inr h
  · subst hj
    exact Or.inl ⟨rfl, by simpa using h.symm⟩
  · rw [List.getElem?_eq_none (by simpa using Nat.succ_le_of_lt hj)] at h
    cases h

/-- A worker of some kind is still there if its replacement is of that kind. -/
theorem exists_mem_set {P : α → Prop} (h : xs[i]? = some x) (hP : P x → P y) (hex : ∃ z ∈ xs, P z) :
    ∃ z ∈ xs.set i y, P z := by
  obtain ⟨pre, post, rfl, -, hset⟩ := split_at h
  obtain ⟨z, hz, hPz⟩ := hex
  rw [hset]
  rcases List.mem_append.mp hz with hz | hz
  · exact ⟨z, List.mem_append_left _ hz, hPz⟩
  · rcases List.mem_cons.mp hz with rfl | hz
    · exact ⟨y, by simp, hP hPz⟩
    · exact ⟨z, by simp [hz], hPz⟩

theorem countP_set (p : α → Bool) (h : xs[i]? = some x) (y : α) :
    (xs.set i y).countP p + (p x).toNat = xs.countP p + (p y).toNat := by
  obtain ⟨pre, post, rfl, -, hset⟩ := split_at h
  rw [hset]
  simp only [List.countP_append, List.countP_cons]
  cases p x <;> cases p y <;> simp <;> omega

theorem countP_eraseIdx (p : α → Bool) (h : xs[i]? = some x) :
    (xs.eraseIdx i).countP p + (p x).toNat = xs.countP p := by
  obtain ⟨pre, post, rfl, herase, -⟩ := split_at h
  rw [herase]
  simp only [List.countP_append, List.countP_cons]
  cases p x
  · simp
  · simp
    omega

theorem map_eraseIdx (f : α → β) (xs : List α) (i : Nat) :
    (xs.eraseIdx i).map f = (xs.map f).eraseIdx i := by
  induction xs generalizing i with
  | nil => rfl
  | cons x xs ih => cases i <;> simp [ih]

/-- A worker in a later stage is still what its image says. -/
theorem map_set_of_eq {f : α → β} (h : xs[i]? = some x) (hf : f y = f x) :
    (xs.set i y).map f = xs.map f := by
  obtain ⟨pre, post, rfl, -, hset⟩ := split_at h
  simp [hset, hf]

end Workers

/-- `free` units of `cap` are not held by a worker. -/
def Accounted (cap free : Nat) (holds : α → Bool) (xs : List α) : Prop :=
  free + xs.countP holds = cap

namespace Accounted

variable {cap free : Nat} {holds : α → Bool} {xs ys : List α} {i : Nat} {x y : α}

theorem le (h : Accounted cap free holds xs) : xs.countP holds ≤ cap := by
  unfold Accounted at h
  omega

/-- New workers hold nothing. -/
theorem join (h : Accounted cap free holds xs) (hys : ∀ y ∈ ys, holds y = false) :
    Accounted cap free holds (xs ++ ys) := by
  unfold Accounted at h ⊢
  have hzero : ys.countP holds = 0 := by
    rw [List.countP_eq_zero]
    intro y hy
    simp [hys y hy]
  rw [List.countP_append, hzero]
  omega

theorem stay (h : Accounted cap free holds xs) (hx : xs[i]? = some x) (same : holds y = holds x) :
    Accounted cap free holds (xs.set i y) := by
  have hcount := countP_set holds hx y
  unfold Accounted at h ⊢
  rw [same] at hcount
  omega

theorem take (h : Accounted cap free holds xs) (hx : xs[i]? = some x) (before : holds x = false)
    (after : holds y = true) (room : 0 < free) : Accounted cap (free - 1) holds (xs.set i y) := by
  have hcount := countP_set holds hx y
  unfold Accounted at h ⊢
  rw [before, after] at hcount
  simp only [Bool.toNat_false, Bool.toNat_true] at hcount
  omega

/-- A worker that leaves gives back what it holds. -/
theorem leave (h : Accounted cap free holds xs) (hx : xs[i]? = some x) :
    Accounted cap (free + (holds x).toNat) holds (xs.eraseIdx i) := by
  have hcount := countP_eraseIdx holds hx
  unfold Accounted at h ⊢
  omega

end Accounted

end Base
