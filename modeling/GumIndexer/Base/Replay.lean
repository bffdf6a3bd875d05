import Mathlib.Data.List.Nodup
import GumIndexer.Base.Run

/-!
# Base.Replay

Loops that absorb replays.

The body of the loop skips an item that is `Spent`; an item is spent once the
loop has handled it, and stays so.  Items that are spent from the start, and
repetitions, then make no difference (`foldlM_filter`, `foldlM_eraseDups`), so
a loop over a sorted list depends on nothing but the set of its unspent items
(`foldlM_eq_of_sorted`).
-/

namespace Base

universe u v w

variable {σ : Type u} {ι : Type v} {ε : Type w} {f : σ → ι → Except ε σ} {Inv : σ → Prop}
  {Spent : σ → ι → Prop} {s s' : σ} {i : ι} {is js : List ι}

/-! ## Repetitions -/

theorem length_filter_lt_cons (p : ι → Bool) (i : ι) (is : List ι) :
    (is.filter p).length < (i :: is).length :=
  Nat.lt_succ_of_le (List.length_filter_le p is)

theorem eraseDups_sublist [DecidableEq ι] : ∀ is : List ι, is.eraseDups.Sublist is
  | [] => .slnil
  | i :: is => by
      rw [List.eraseDups_cons]
      exact ((eraseDups_sublist _).trans List.filter_sublist).cons_cons i
termination_by is => is.length
decreasing_by exact length_filter_lt_cons _ i is

theorem nodup_eraseDups [DecidableEq ι] : ∀ is : List ι, is.eraseDups.Nodup
  | [] => List.nodup_nil
  | i :: is => by
      rw [List.eraseDups_cons, List.nodup_cons]
      exact ⟨by simp [List.mem_eraseDups], nodup_eraseDups _⟩
termination_by is => is.length
decreasing_by exact length_filter_lt_cons _ i is

/-! ## Absorbing loops -/

/-- The loop body `f` skips what is spent. -/
structure Absorbs (f : σ → ι → Except ε σ) (Inv : σ → Prop) (Spent : σ → ι → Prop) : Prop where
  inv : ∀ s i s', Inv s → f s i = .ok s' → Inv s'
  skip : ∀ s i, Inv s → Spent s i → f s i = .ok s
  mark : ∀ s i s', Inv s → f s i = .ok s' → Spent s' i
  keep : ∀ s i s' j, Inv s → f s i = .ok s' → Spent s j → Spent s' j

/-- Items that are spent may be left out. -/
theorem Absorbs.foldlM_filter (h : Absorbs f Inv Spent) (p : ι → Bool) (hs : Inv s)
    (hp : ∀ i ∈ is, p i = false → Spent s i) : is.foldlM f s = (is.filter p).foldlM f s := by
  induction is generalizing s with
  | nil => rfl
  | cons i is ih =>
      have hrest : ∀ j ∈ is, p j = false → Spent s j := fun j hj => hp j (List.mem_cons_of_mem i hj)
      cases hpi : p i with
      | false =>
          rw [List.filter_cons_of_neg (by simp [hpi]), List.foldlM_cons,
            h.skip s i hs (hp i List.mem_cons_self hpi)]
          exact ih hs hrest
      | true =>
          rw [List.filter_cons_of_pos hpi, List.foldlM_cons, List.foldlM_cons]
          cases hf : f s i with
          | error e => rfl
          | ok t =>
              exact ih (h.inv s i t hs hf) fun j hj hpj => h.keep s i t j hs hf (hrest j hj hpj)

/-- Repetitions may be left out. -/
theorem Absorbs.foldlM_eraseDups [DecidableEq ι] (h : Absorbs f Inv Spent) :
    ∀ (is : List ι) {s : σ}, Inv s → is.foldlM f s = is.eraseDups.foldlM f s
  | [], _, _ => rfl
  | i :: is, s, hs => by
      rw [List.eraseDups_cons, List.foldlM_cons, List.foldlM_cons]
      cases hf : f s i with
      | error e => rfl
      | ok t =>
          have ht := h.inv s i t hs hf
          -- the other copies of `i` are spent now
          have hspent : ∀ j ∈ is, (!j == i) = false → Spent t j := by
            intro j _ hj
            obtain rfl : j = i := by simpa using hj
            exact h.mark s j t hs hf
          exact (h.foldlM_filter (fun j => !j == i) ht hspent).trans (h.foldlM_eraseDups _ ht)
termination_by is => is.length
decreasing_by exact length_filter_lt_cons _ i is

/-- **A loop over a sorted list depends on the set of its unspent items only.** -/
theorem Absorbs.foldlM_eq_of_sorted [DecidableEq ι] {r : ι → ι → Prop} (h : Absorbs f Inv Spent)
    (hs : Inv s) (hi : is.Pairwise r) (hj : js.Pairwise r)
    (same : ∀ i, ¬ Spent s i → (i ∈ is ↔ i ∈ js))
    (antisymm : ∀ i ∈ is, ∀ j ∈ is, ¬ Spent s i → ¬ Spent s j → r i j → r j i → i = j) :
    is.foldlM f s = js.foldlM f s := by
  classical
  let fresh (i : ι) : Bool := decide (¬ Spent s i)
  have hfilter : ∀ ks : List ι, ks.foldlM f s = (ks.filter fresh).eraseDups.foldlM f s := by
    intro ks
    rw [h.foldlM_filter fresh hs fun i _ hfresh => by simpa [fresh] using hfresh]
    exact h.foldlM_eraseDups _ hs
  have hmem : ∀ i, i ∈ (is.filter fresh).eraseDups ↔ i ∈ (js.filter fresh).eraseDups := by
    intro i
    rw [List.mem_eraseDups, List.mem_eraseDups, List.mem_filter, List.mem_filter]
    exact and_congr_left fun hfresh => same i (of_decide_eq_true hfresh)
  have hperm : (is.filter fresh).eraseDups.Perm (js.filter fresh).eraseDups :=
    (List.perm_ext_iff_of_nodup (nodup_eraseDups _) (nodup_eraseDups _)).mpr hmem
  have hsorted : ∀ {ks : List ι}, ks.Pairwise r → (ks.filter fresh).eraseDups.Pairwise r :=
    fun hk => (hk.sublist List.filter_sublist).sublist (eraseDups_sublist _)
  rw [hfilter is, hfilter js]
  refine congrArg (fun ks => ks.foldlM f s) (hperm.eq_of_pairwise ?_ (hsorted hi) (hsorted hj))
  intro i j hi' hj' hij hji
  have hj'' := (hmem j).mpr hj'
  rw [List.mem_eraseDups, List.mem_filter] at hi' hj''
  exact antisymm i hi'.1 j hj''.1 (of_decide_eq_true hi'.2) (of_decide_eq_true hj''.2) hij hji

end Base
