import Mathlib.Algebra.BigOperators.Group.List.Basic
import Mathlib.Algebra.GroupWithZero.Nat
import Mathlib.Data.List.Nodup

/-!
# Base.Groups

Totals by group.  The totals of the groups of a list, over any keys without
repetition, add up to the total over the elements with one of these keys.
-/

namespace Base

universe u v

variable {α : Type u} {κ : Type v} [DecidableEq κ]

theorem sum_groups (f : α → κ) (g : α → Nat) (xs : List α) {ks : List κ} (nodup : ks.Nodup) :
    (ks.map fun k => ((xs.filter (f · = k)).map g).sum).sum =
      ((xs.filter (f · ∈ ks)).map g).sum := by
  induction xs with
  | nil => simp
  | cons x xs ih =>
      have hsplit : ∀ k, (((x :: xs).filter (f · = k)).map g).sum =
          (if f x = k then g x else 0) + ((xs.filter (f · = k)).map g).sum := by
        intro k
        by_cases h : f x = k <;> simp [h]
      -- the new element is in the group of its own key, which occurs once at most
      have hone : (ks.map fun k => if f x = k then g x else 0).sum =
          if f x ∈ ks then g x else 0 := by
        rw [List.sum_map_eq_nsmul_single (f x) _ fun k hne _ => if_neg hne.symm, nodup.count]
        split <;> simp
      simp only [hsplit, List.sum_map_add, ih, hone]
      by_cases hmem : f x ∈ ks <;> simp [hmem]

theorem countP_groups (f : α → κ) (p : α → Prop) [DecidablePred p] (xs : List α) {ks : List κ}
    (nodup : ks.Nodup) :
    (ks.map fun k => xs.countP fun x => f x = k ∧ p x).sum =
      xs.countP fun x => f x ∈ ks ∧ p x := by
  have hcount : ∀ q : α → Prop, [DecidablePred q] → (xs.countP fun x => q x ∧ p x) =
      (((xs.filter p).filter (q ·)).map fun _ => 1).sum := by
    intro q _
    rw [List.countP_eq_length_filter, List.map_const', List.sum_replicate_nat, Nat.mul_one,
      List.filter_filter]
    simp
  simp only [hcount]
  exact sum_groups f (fun _ => 1) (xs.filter p) nodup

end Base
