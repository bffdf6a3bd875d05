import GumIndexer.Base.Run
import Mathlib.Data.List.Destutter
import Mathlib.Data.List.Pairwise

/-!
# Base.Timeline

Times that keep a distance, and what changes along a run.

`Spaced gap ts` says that every time of `ts` is at least `gap` after the one
before; `Spaced.length_mul_le` bounds how many of them there are.
`window_append` cuts a window of an ordered list in two.  `changes f step s is`
lists the values that an observation `f` of the state takes on in a run, each
time that it changes; it is the sequence of all its values without the
repetitions (`changes_eq_destutter`).
-/

namespace Base

universe u v w

/-! ## Distances -/

/-- Each time is at least `gap` after the one before. -/
def Spaced (gap : Nat) (ts : List Nat) : Prop := ts.Pairwise fun t u => t + gap ≤ u

namespace Spaced

variable {gap : Nat} {ts : List Nat}

theorem nil : Spaced gap [] := List.Pairwise.nil

theorem concat {u : Nat} (h : Spaced gap ts) (hu : ∀ t ∈ ts, t + gap ≤ u) : Spaced gap (ts ++ [u]) := by
  refine List.pairwise_append.mpr ⟨h, List.pairwise_singleton _ _, fun t ht v hv => ?_⟩
  rw [List.mem_singleton.mp hv]
  exact hu t ht

theorem sublist {us : List Nat} (h : Spaced gap ts) (hsub : us.Sublist ts) : Spaced gap us :=
  List.Pairwise.sublist hsub h

/-- Times up to `a + span` take a gap each, but the last. -/
theorem length_mul_le {a span : Nat} (h : Spaced gap ts) (hlo : ∀ t ∈ ts, a ≤ t)
    (hhi : ∀ t ∈ ts, t ≤ a + span) : ts.length * gap ≤ span + gap := by
  induction ts generalizing a span with
  | nil => simp
  | cons t ts ih =>
      obtain ⟨hfirst, hrest⟩ := List.pairwise_cons.mp h
      rw [List.length_cons, Nat.succ_mul]
      cases ts with
      | nil => simp
      | cons u us =>
          have htu := hfirst u List.mem_cons_self
          have ht := hlo t List.mem_cons_self
          have hu := hhi u (by simp)
          have hlo' : ∀ v ∈ u :: us, a + gap ≤ v :=
            fun v hv => le_trans (Nat.add_le_add_right ht gap) (hfirst v hv)
          have hhi' : ∀ v ∈ u :: us, v ≤ a + gap + (span - gap) := by
            intro v hv
            have := hhi v (List.mem_cons_of_mem _ hv)
            omega
          have := ih hrest hlo' hhi'
          omega

end Spaced

/-! ## Windows -/

section Windows

variable {α : Type u} {f : α → Nat}

/-- The elements of a list that lie in `(a, b]`. -/
def window (f : α → Nat) (a b : Nat) (xs : List α) : List α := xs.filter fun x => a < f x ∧ f x ≤ b

theorem mem_window {a b : Nat} {xs : List α} {x : α} :
    x ∈ window f a b xs ↔ x ∈ xs ∧ a < f x ∧ f x ≤ b := by
  simp [window]

theorem window_eq_nil {a b : Nat} {xs : List α} (h : ∀ x ∈ xs, a < f x → b < f x) :
    window f a b xs = [] := by
  refine List.filter_eq_nil_iff.mpr fun x hx => ?_
  have := h x hx
  simp only [decide_eq_true_eq]
  omega

/-- A cut above the window leaves it alone. -/
theorem window_filter {a b bound : Nat} (h : b ≤ bound) (xs : List α) :
    window f a b (xs.filter fun x => f x ≤ bound) = window f a b xs := by
  rw [window, window, List.filter_filter]
  refine List.filter_congr fun x _ => ?_
  rw [← Bool.decide_and, decide_eq_decide]
  omega

/-- In an ordered list, a window is its two halves one after the other. -/
theorem window_append {a b c : Nat} {xs : List α} (ordered : xs.Pairwise fun x y => f x ≤ f y)
    (hab : a ≤ b) (hbc : b ≤ c) : window f a b xs ++ window f b c xs = window f a c xs := by
  induction xs with
  | nil => rfl
  | cons x xs ih =>
      obtain ⟨hfirst, hrest⟩ := List.pairwise_cons.mp ordered
      have hrec := ih hrest
      by_cases hx : f x ≤ b
      · -- in the first half, or in none
        have hright : window f b c (x :: xs) = window f b c xs :=
          List.filter_cons_of_neg (by simp only [decide_eq_true_eq]; omega)
        rw [hright]
        by_cases hax : a < f x
        · have hleft : window f a b (x :: xs) = x :: window f a b xs :=
            List.filter_cons_of_pos (by simp only [decide_eq_true_eq]; omega)
          have hboth : window f a c (x :: xs) = x :: window f a c xs :=
            List.filter_cons_of_pos (by simp only [decide_eq_true_eq]; omega)
          rw [hleft, hboth, List.cons_append, hrec]
        · have hleft : window f a b (x :: xs) = window f a b xs :=
            List.filter_cons_of_neg (by simp only [decide_eq_true_eq]; omega)
          have hboth : window f a c (x :: xs) = window f a c xs :=
            List.filter_cons_of_neg (by simp only [decide_eq_true_eq]; omega)
          rw [hleft, hboth, hrec]
      · -- beyond the first half, like everything after it
        have hnone : window f a b (x :: xs) = [] := by
          refine window_eq_nil fun y hy _ => ?_
          rcases List.mem_cons.mp hy with rfl | hy
          · exact Nat.lt_of_not_le hx
          · exact lt_of_lt_of_le (Nat.lt_of_not_le hx) (hfirst y hy)
        rw [hnone, List.nil_append]
        refine List.filter_congr fun y hy => ?_
        have hby : b < f y := by
          rcases List.mem_cons.mp hy with rfl | hy
          · exact Nat.lt_of_not_le hx
          · exact lt_of_lt_of_le (Nat.lt_of_not_le hx) (hfirst y hy)
        rw [decide_eq_decide]
        omega

end Windows

/-! ## Changes -/

variable {σ : Type u} {ι : Type v} {ω : Type w} [DecidableEq ω]

/-- The new value of an observation, each time it changes. -/
def changes (f : σ → ω) (step : σ → ι → σ) : σ → List ι → List ω :=
  collect (fun s i => if f (step s i) = f s then [] else [f (step s i)]) step

/-- The changes are all values of the observation, without the repetitions. -/
theorem changes_eq_destutter (f : σ → ω) (step : σ → ι → σ) (s : σ) (is : List ι) :
    f s :: changes f step s is = ((is.scanl step s).map f).destutter (· ≠ ·) := by
  induction is generalizing s with
  | nil => rfl
  | cons i is ih =>
      have hnext := ih (step s i)
      rw [List.scanl_cons, List.map_cons, List.destutter_cons']
      rw [changes, collect_cons, ← changes]
      cases is with
      | nil =>
          by_cases h : f (step s i) = f s
          · simp [h, changes]
          · simp [h, changes, Ne.symm h]
      | cons j js =>
          rw [List.scanl_cons, List.map_cons] at hnext ⊢
          rw [List.destutter_cons'] at hnext
          by_cases h : f (step s i) = f s
          · rw [if_pos h, List.nil_append, List.destutter'_cons_neg _ (by simp [h]), ← h, hnext]
          · rw [if_neg h, List.destutter'_cons_pos _ (Ne.symm h), ← hnext]
            rfl

end Base
