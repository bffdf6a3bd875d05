import Mathlib.Data.List.Sort

/-!
# Base.Sort

Stable sorting and selection.  `insertionSort` keeps the order of equal
elements, so selecting from a sorted list is sorting the selection
(`filter_insertionSort`), and a sorted list falls apart into the elements up
to a cut followed by those above it (`filter_append_filter_not`).
-/

namespace Base

universe u

variable {α : Type u} (r : α → α → Prop) [DecidableRel r] (p : α → Bool)

theorem filter_orderedInsert [IsTrans α r] (a : α) {l : List α} (hl : l.Pairwise r) :
    (l.orderedInsert r a).filter p =
      if p a then (l.filter p).orderedInsert r a else l.filter p := by
  induction l with
  | nil => cases hp : p a <;> simp [hp]
  | cons b l ih =>
      rw [List.pairwise_cons] at hl
      rw [List.orderedInsert_cons]
      by_cases hab : r a b
      · rw [if_pos hab]
        cases hpa : p a with
        | false => simp [hpa]
        | true =>
            -- everything behind `b` is behind `a` as well
            have hrest : ∀ c ∈ (b :: l).filter p, r a c := by
              intro c hc
              rcases List.mem_cons.mp (List.mem_of_mem_filter hc) with rfl | hc
              · exact hab
              · exact IsTrans.trans _ _ _ hab (hl.1 c hc)
            rw [List.filter_cons_of_pos hpa, if_pos rfl]
            cases hf : (b :: l).filter p with
            | nil => rfl
            | cons c cs => rw [List.orderedInsert_cons_of_le r cs (hrest c (by simp [hf]))]
      · rw [if_neg hab]
        cases hpb : p b with
        | false => simp [hpb, ih hl.2]
        | true =>
            rw [List.filter_cons_of_pos hpb, List.filter_cons_of_pos hpb, ih hl.2]
            cases hpa : p a with
            | false => rfl
            | true => simp [hab]

/-- **Selecting from a sorted list is sorting the selection.** -/
theorem filter_insertionSort [IsTrans α r] [Std.Total r] (l : List α) :
    (l.insertionSort r).filter p = (l.filter p).insertionSort r := by
  induction l with
  | nil => rfl
  | cons a l ih =>
      rw [List.insertionSort_cons, filter_orderedInsert r p a (List.pairwise_insertionSort r l), ih]
      cases hp : p a <;> simp [hp]

variable {r p}

/-- A cut through a list: what satisfies a property that only elements before
it can have, then the rest. -/
theorem filter_append_filter_not {l : List α} (hl : l.Pairwise fun a b => p b = true → p a = true) :
    l.filter p ++ l.filter (fun a => !p a) = l := by
  induction l with
  | nil => rfl
  | cons a l ih =>
      rw [List.pairwise_cons] at hl
      cases hp : p a with
      | true => simp [hp, ih hl.2]
      | false =>
          have hnone : l.filter p = [] := by
            rw [List.filter_eq_nil_iff]
            intro b hb hpb
            rw [hl.1 b hb hpb] at hp
            contradiction
          have hall : l.filter (fun a => !p a) = l := by
            rw [List.filter_eq_self]
            intro b hb
            have hn := List.filter_eq_nil_iff.mp hnone b hb
            simpa using hn
          simp [hp, hnone, hall]

section Select

universe v w

variable {β : Type v} {κ : Type w} {f : α → Option β} {l : List α}

/-- Selecting among what a partial map returns is mapping a selection. -/
theorem filter_filterMap_eq {q : β → Bool} {g : α → β} {s : α → Bool}
    (h : ∀ a ∈ l, (f a).filter q = if s a then some (g a) else none) :
    (l.filterMap f).filter q = (l.filter s).map g := by
  induction l with
  | nil => rfl
  | cons a l ih =>
      have ha := h a List.mem_cons_self
      have hrest := ih fun b hb => h b (List.mem_cons_of_mem a hb)
      rw [List.filterMap_cons, List.filter_cons]
      cases hf : f a with
      | none =>
          rw [hf, Option.filter_none] at ha
          cases hs : s a with
          | true => simp [hs] at ha
          | false => simpa [hs] using hrest
      | some b =>
          rw [hf, Option.filter_some] at ha
          cases hq : q b with
          | true =>
              cases hs : s a with
              | true =>
                  rw [hq, hs, if_pos rfl, if_pos rfl] at ha
                  have hb : b = g a := Option.some.inj ha
                  subst hb
                  simp [hq, hrest]
              | false => simp [hq, hs] at ha
          | false =>
              cases hs : s a with
              | true => rw [hq, hs] at ha; contradiction
              | false => simp [hq, hrest]

/-- A selection before a partial map, moved behind it. -/
theorem filter_filterMap_filter {q q' : β → Bool} {s : α → Bool}
    (h : ∀ a ∈ l, ∀ b, f a = some b → q' b = (s a && q b)) :
    ((l.filter s).filterMap f).filter q = (l.filterMap f).filter q' := by
  induction l with
  | nil => rfl
  | cons a l ih =>
      have hrest := ih fun b hb => h b (List.mem_cons_of_mem a hb)
      rw [List.filterMap_cons, List.filter_cons]
      cases hf : f a with
      | none => cases hs : s a <;> simp [hf, hrest]
      | some b =>
          have hb := h a List.mem_cons_self b hf
          cases hs : s a <;> simp [hf, List.filter_cons, hb, hs, hrest]

/-- Selecting before a partial map or after it. -/
theorem filter_filterMap_comm {q : β → Bool} {s : α → Bool} (h : ∀ a b, f a = some b → q b = s a) :
    (l.filterMap f).filter q = (l.filter s).filterMap f := by
  have hmoved : ((l.filter s).filterMap f).filter (fun _ => true) = (l.filterMap f).filter q :=
    filter_filterMap_filter fun a _ b hb => by simp [h a b hb]
  rw [← hmoved, List.filter_true]

/-- A partial map that keeps keys keeps them different. -/
theorem nodup_map_filterMap (key : α → κ) {key' : β → κ} (h : ∀ a b, f a = some b → key' b = key a)
    (hl : (l.map key).Nodup) : ((l.filterMap f).map key').Nodup := by
  rw [List.Nodup, List.pairwise_map] at hl ⊢
  rw [List.pairwise_filterMap]
  refine hl.imp ?_
  intro a a' hne b hb b' hb'
  rw [h a b hb, h a' b' hb']
  exact hne

end Select

end Base
