import Mathlib.Data.List.Nodup
import Mathlib.Algebra.BigOperators.Group.List.Basic
import Mathlib.Algebra.GroupWithZero.Nat

/-!
# Base.Table

Keyed tables: a list of rows in insertion order in which no two rows share
their key.  This is the shape of a relation with a primary key (or a unique
constraint), and of a map that remembers its insertion order.

Uniqueness is a field of the structure, so an operation that would break a
key constraint cannot be written: `insertNew` refuses a taken key, `replace`
keeps every key in place, `upsert` chooses between the two.

The lookup lemmas (`get?_insertNew`, `get?_replace`, `get?_upsert`,
`get?_erase`) describe every operation as an update of the partial function
`get?`; the fold lemmas (`sumOf_insertNew`, `sumOf_replace`) describe what an
operation does to a total taken over all rows.
-/

namespace Base

universe u v

/-- Rows with pairwise different keys, oldest first. -/
structure Table (α : Type u) {κ : Type v} (key : α → κ) where
  rows : List α
  nodup : (rows.map key).Nodup

namespace Table

variable {α : Type u} {κ : Type v} {key : α → κ}

@[ext] theorem ext {t u : Table α key} (h : t.rows = u.rows) : t = u := by
  cases t; cases u; cases h; rfl

/-- The table without rows. -/
def empty : Table α key := ⟨[], List.nodup_nil⟩

@[simp] theorem rows_empty : (empty : Table α key).rows = [] := rfl

/-- Rows of a table are equal as soon as their keys are. -/
theorem eq_of_key_eq {t : Table α key} {a b : α} (ha : a ∈ t.rows) (hb : b ∈ t.rows)
    (h : key a = key b) : a = b :=
  List.inj_on_of_nodup_map t.nodup ha hb h

/-- Update every row in place by a function that keeps the keys. -/
def mapRows (t : Table α key) (f : α → α) (h : ∀ a, key (f a) = key a) : Table α key :=
  ⟨t.rows.map f, by
    have hk : key ∘ f = key := funext h
    rw [List.map_map, hk]
    exact t.nodup⟩

/-- The sum of `g` over the rows. -/
def sumOf (t : Table α key) (g : α → Nat) : Nat := (t.rows.map g).sum

@[simp] theorem sumOf_empty (g : α → Nat) : (empty : Table α key).sumOf g = 0 := rfl

theorem sumOf_congr {t : Table α key} {f g : α → Nat} (h : ∀ a ∈ t.rows, f a = g a) :
    t.sumOf f = t.sumOf g := by
  rw [sumOf, sumOf, List.map_congr_left h]

variable [DecidableEq κ]

/-! ## Lookup -/

/-- The row stored under key `k`. -/
def get? (t : Table α key) (k : κ) : Option α := t.rows.find? (fun a => key a = k)

@[simp] theorem get?_empty (k : κ) : (empty : Table α key).get? k = none := rfl

theorem key_of_get? {t : Table α key} {k : κ} {a : α} (h : t.get? k = some a) : key a = k := by
  simpa using List.find?_some h

theorem mem_of_get? {t : Table α key} {k : κ} {a : α} (h : t.get? k = some a) : a ∈ t.rows :=
  List.mem_of_find?_eq_some h

theorem get?_of_mem {t : Table α key} {a : α} (h : a ∈ t.rows) : t.get? (key a) = some a := by
  cases hg : t.get? (key a) with
  | none =>
      have hn := List.find?_eq_none.mp hg a h
      simp at hn
  | some b => rw [eq_of_key_eq (mem_of_get? hg) h (key_of_get? hg)]

theorem mem_rows_iff {t : Table α key} {a : α} : a ∈ t.rows ↔ t.get? (key a) = some a :=
  ⟨get?_of_mem, mem_of_get?⟩

theorem get?_eq_some_iff {t : Table α key} {k : κ} {a : α} :
    t.get? k = some a ↔ a ∈ t.rows ∧ key a = k := by
  constructor
  · exact fun h => ⟨mem_of_get? h, key_of_get? h⟩
  · rintro ⟨ha, rfl⟩
    exact get?_of_mem ha

theorem get?_eq_none_iff {t : Table α key} {k : κ} : t.get? k = none ↔ k ∉ t.rows.map key := by
  simp [get?, List.find?_eq_none]

/-- Tables with the same rows, in any order, are the same map. -/
theorem get?_congr {t u : Table α key} (h : ∀ a, a ∈ t.rows ↔ a ∈ u.rows) (k : κ) :
    t.get? k = u.get? k := by
  refine Option.ext fun a => ?_
  rw [get?_eq_some_iff, get?_eq_some_iff, h]

/-! ## Insertion -/

/-- Append a row, unless its key is taken. -/
def insertNew (t : Table α key) (a : α) : Option (Table α key) :=
  if h : key a ∈ t.rows.map key then none
  else some ⟨t.rows ++ [a], by
    rw [List.map_append, List.nodup_append]
    exact ⟨t.nodup, List.nodup_singleton _, by simpa using h⟩⟩

theorem insertNew_eq_none_iff {t : Table α key} {a : α} :
    t.insertNew a = none ↔ ∃ b, t.get? (key a) = some b := by
  unfold insertNew
  split
  · next h =>
      refine ⟨fun _ => ?_, fun _ => rfl⟩
      obtain ⟨b, hb, hk⟩ := List.mem_map.mp h
      exact ⟨b, get?_eq_some_iff.mpr ⟨hb, hk⟩⟩
  · next h =>
      have hn := get?_eq_none_iff.mpr h
      simp [hn]

theorem get?_of_insertNew {t t' : Table α key} {a : α} (h : t.insertNew a = some t') :
    t.get? (key a) = none := by
  cases hg : t.get? (key a) with
  | none => rfl
  | some b =>
      rw [insertNew_eq_none_iff.mpr ⟨b, hg⟩] at h
      contradiction

theorem rows_of_insertNew {t t' : Table α key} {a : α} (h : t.insertNew a = some t') :
    t'.rows = t.rows ++ [a] := by
  unfold insertNew at h
  split at h
  · contradiction
  · rw [← Option.some.inj h]

theorem exists_insertNew {t : Table α key} {a : α} (h : t.get? (key a) = none) :
    ∃ t', t.insertNew a = some t' := by
  cases hi : t.insertNew a with
  | some t' => exact ⟨t', rfl⟩
  | none =>
      obtain ⟨b, hb⟩ := insertNew_eq_none_iff.mp hi
      rw [hb] at h
      contradiction

theorem get?_insertNew {t t' : Table α key} {a : α} (h : t.insertNew a = some t') (k : κ) :
    t'.get? k = if key a = k then some a else t.get? k := by
  have hnew := get?_of_insertNew h
  rw [get?, rows_of_insertNew h, List.find?_append]
  change (t.get? k).or _ = _
  by_cases hk : key a = k
  · subst hk
    simp [hnew]
  · simp [hk]

/-! ## Replacement -/

/-- Store `a` in the place of the row with its key, if there is one. -/
def replace (t : Table α key) (a : α) : Table α key :=
  ⟨t.rows.map (fun r => if key r = key a then a else r), by
    have hk : key ∘ (fun r => if key r = key a then a else r) = key := by
      funext r
      by_cases h : key r = key a <;> simp [h]
    rw [List.map_map, hk]
    exact t.nodup⟩

theorem rows_replace (t : Table α key) (a : α) :
    (t.replace a).rows = t.rows.map (fun r => if key r = key a then a else r) := rfl

theorem keys_replace (t : Table α key) (a : α) : (t.replace a).rows.map key = t.rows.map key := by
  rw [rows_replace, List.map_map]
  apply List.map_congr_left
  intro r _
  by_cases h : key r = key a <;> simp [h]

theorem get?_replace (t : Table α key) (a : α) (k : κ) :
    (t.replace a).get? k = if key a = k then (t.get? k).map (fun _ => a) else t.get? k := by
  by_cases hk : key a = k
  · subst hk
    rw [if_pos rfl]
    cases hg : t.get? (key a) with
    | none =>
        rw [Option.map_none, get?_eq_none_iff, keys_replace]
        exact get?_eq_none_iff.mp hg
    | some b =>
        rw [Option.map_some, get?_eq_some_iff]
        refine ⟨?_, rfl⟩
        rw [rows_replace, List.mem_map]
        exact ⟨b, mem_of_get? hg, if_pos (key_of_get? hg)⟩
  · rw [if_neg hk]
    cases hg : t.get? k with
    | none =>
        rw [get?_eq_none_iff, keys_replace]
        exact get?_eq_none_iff.mp hg
    | some b =>
        obtain ⟨hb, rfl⟩ := get?_eq_some_iff.mp hg
        rw [get?_eq_some_iff]
        refine ⟨?_, rfl⟩
        rw [rows_replace, List.mem_map]
        exact ⟨b, hb, if_neg (Ne.symm hk)⟩

/-- Replacing a present row stores it. -/
theorem get?_replace_self {t : Table α key} {a b : α} (h : t.get? (key a) = some b) :
    (t.replace a).get? (key a) = some a := by
  rw [get?_replace, if_pos rfl, h, Option.map_some]

theorem get?_replace_of_ne {t : Table α key} {a : α} {k : κ} (h : key a ≠ k) :
    (t.replace a).get? k = t.get? k := by
  rw [get?_replace, if_neg h]

/-- A row after a replacement is the new one or an old one under another key. -/
theorem get?_replace_cases {t : Table α key} {a b c : α} {k : κ} (h : t.get? (key a) = some b)
    (hk : t.get? k = some c) :
    (k = key a ∧ c = b ∧ (t.replace a).get? k = some a) ∨
      (k ≠ key a ∧ (t.replace a).get? k = some c) := by
  by_cases hka : k = key a
  · subst hka
    rw [h] at hk
    exact .inl ⟨rfl, (Option.some.inj hk).symm, get?_replace_self h⟩
  · exact .inr ⟨hka, by rw [get?_replace_of_ne (Ne.symm hka), hk]⟩

/-- Replacing adds and removes no key. -/
theorem get?_replace_eq_none_iff {t : Table α key} {a : α} {k : κ} :
    (t.replace a).get? k = none ↔ t.get? k = none := by
  rw [get?_eq_none_iff, get?_eq_none_iff, keys_replace]

/-- Only the last of two replacements under one key is kept. -/
theorem replace_replace {t : Table α key} {a b : α} (h : key a = key b) :
    (t.replace a).replace b = t.replace b := by
  apply Table.ext
  simp only [rows_replace, List.map_map]
  apply List.map_congr_left
  intro r _
  by_cases hr : key r = key b <;> simp [hr, h]

/-- Putting back the row that is there changes nothing. -/
theorem replace_self {t : Table α key} {a : α} (h : t.get? (key a) = some a) : t.replace a = t := by
  apply Table.ext
  rw [rows_replace]
  conv_rhs => rw [← List.map_id t.rows]
  apply List.map_congr_left
  intro r hr
  by_cases hk : key r = key a
  · rw [if_pos hk, id, eq_of_key_eq hr (mem_of_get? h) hk]
  · rw [if_neg hk, id]

/-- A selection that admits no row under a key does not see a replacement
there. -/
theorem filter_replace {t : Table α key} {a : α} {p : α → Bool}
    (h : ∀ r, key r = key a → p r = false) : (t.replace a).rows.filter p = t.rows.filter p := by
  rw [rows_replace]
  induction t.rows with
  | nil => rfl
  | cons r rs ih =>
      rw [List.map_cons, List.filter_cons, List.filter_cons, ih]
      by_cases hr : key r = key a
      · rw [if_pos hr, h a rfl, h r hr]
        rfl
      · rw [if_neg hr]

theorem filter_insertNew {t t' : Table α key} {a : α} {p : α → Bool} (hi : t.insertNew a = some t')
    (h : p a = false) : t'.rows.filter p = t.rows.filter p := by
  rw [rows_of_insertNew hi, List.filter_append, List.filter_cons, h]
  exact List.append_nil _

/-- `INSERT … ON CONFLICT DO UPDATE`: append the row or store it in place. -/
def upsert (t : Table α key) (a : α) : Table α key := (t.insertNew a).getD (t.replace a)

theorem get?_upsert (t : Table α key) (a : α) (k : κ) :
    (t.upsert a).get? k = if key a = k then some a else t.get? k := by
  unfold upsert
  cases hi : t.insertNew a with
  | some t' => exact get?_insertNew hi k
  | none =>
      obtain ⟨b, hb⟩ := insertNew_eq_none_iff.mp hi
      rw [Option.getD_none, get?_replace]
      by_cases hk : key a = k
      · subst hk
        simp [hb]
      · simp [hk]

/-! ## Deletion -/

/-- Remove the row stored under `k`. -/
def erase (t : Table α key) (k : κ) : Table α key :=
  ⟨t.rows.filter (fun r => key r ≠ k),
    t.nodup.sublist (List.Sublist.map key List.filter_sublist)⟩

theorem get?_erase (t : Table α key) (k k' : κ) :
    (t.erase k).get? k' = if k = k' then none else t.get? k' := by
  by_cases hk : k = k'
  · subst hk
    rw [if_pos rfl, get?_eq_none_iff, erase]
    simp
  · rw [if_neg hk]
    cases hg : t.get? k' with
    | none =>
        rw [get?_eq_none_iff] at hg ⊢
        intro hm
        obtain ⟨b, hb, hbk⟩ := List.mem_map.mp hm
        exact hg (List.mem_map.mpr ⟨b, List.mem_of_mem_filter hb, hbk⟩)
    | some b =>
        obtain ⟨hb, rfl⟩ := get?_eq_some_iff.mp hg
        rw [get?_eq_some_iff]
        refine ⟨?_, rfl⟩
        rw [erase, List.mem_filter]
        exact ⟨hb, by simpa using Ne.symm hk⟩

/-! ## Working through selected rows -/

/-- `as` lists rows of the table that satisfy `P`, none twice: what a
statement selects, for a loop that then updates the rows one by one. -/
structure Lists (t : Table α key) (P : α → Prop) (as : List α) : Prop where
  nodup : (as.map key).Nodup
  found : ∀ a ∈ as, t.get? (key a) = some a
  sat : ∀ a ∈ as, P a

/-- A selection of rows, in any order. -/
theorem Lists.of_perm {t : Table α key} {P : α → Prop} {as bs : List α} (h : bs.Perm as)
    (hsub : as.Sublist t.rows) (hP : ∀ a ∈ as, P a) : t.Lists P bs where
  nodup := (h.map key).nodup_iff.mpr (t.nodup.sublist (hsub.map key))
  found _ ha := get?_of_mem (hsub.mem (h.mem_iff.mp ha))
  sat a ha := hP a (h.mem_iff.mp ha)

theorem Lists.sublist {t : Table α key} {P : α → Prop} {as bs : List α} (h : t.Lists P as)
    (hsub : bs.Sublist as) : t.Lists P bs where
  nodup := h.nodup.sublist (hsub.map key)
  found a ha := h.found a (hsub.mem ha)
  sat a ha := h.sat a (hsub.mem ha)

/-- Updating the first row leaves the others to be worked through. -/
theorem Lists.tail {t : Table α key} {P : α → Prop} {a b : α} {as : List α}
    (h : t.Lists P (a :: as)) (hb : key b = key a) : (t.replace b).Lists P as := by
  have hnd := h.nodup
  rw [List.map_cons, List.nodup_cons] at hnd
  refine ⟨hnd.2, fun c hc => ?_, fun c hc => h.sat c (List.mem_cons_of_mem a hc)⟩
  rw [get?_replace_of_ne, h.found c (List.mem_cons_of_mem a hc)]
  rw [hb]
  intro heq
  exact hnd.1 (heq ▸ List.mem_map_of_mem hc)

/-! ## Totals over all rows -/

theorem sumOf_insertNew {t t' : Table α key} {a : α} (h : t.insertNew a = some t') (g : α → Nat) :
    t'.sumOf g = t.sumOf g + g a := by
  simp [sumOf, rows_of_insertNew h]

/-- A list total moves by exactly the one entry that is exchanged. -/
private theorem sum_map_exchange (g : α → Nat) (a b : α) :
    ∀ l : List α, (l.map key).Nodup → b ∈ l → key b = key a →
      ((l.map (fun r => if key r = key a then a else r)).map g).sum + g b = (l.map g).sum + g a
  | [], _, hb, _ => by simp at hb
  | c :: cs, hnd, hb, hk => by
      rw [List.map_cons, List.nodup_cons] at hnd
      rcases List.mem_cons.mp hb with rfl | hb'
      · have hrest : cs.map (fun r => if key r = key a then a else r) = cs := by
          conv_rhs => rw [← List.map_id cs]
          apply List.map_congr_left
          intro r hr
          have hne : key r ≠ key a := by
            rw [← hk]
            intro he
            exact hnd.1 (he ▸ List.mem_map_of_mem hr)
          rw [if_neg hne, id]
        simp only [List.map_cons, List.sum_cons, if_pos hk, hrest]
        omega
      · have hne : key c ≠ key a := by
          rw [← hk]
          intro he
          exact hnd.1 (he ▸ List.mem_map_of_mem hb')
        have ih := sum_map_exchange g a b cs hnd.2 hb' hk
        simp only [List.map_cons, List.sum_cons, if_neg hne]
        omega

theorem sumOf_replace {t : Table α key} {a b : α} (h : t.get? (key a) = some b) (g : α → Nat) :
    (t.replace a).sumOf g + g b = t.sumOf g + g a :=
  sum_map_exchange g a b t.rows t.nodup (mem_of_get? h) (key_of_get? h)

/-- A sum depends on what is under the keys only. -/
theorem sumOf_eq_of_get? {β : Type u} {key' : β → κ} {t : Table α key} {u : Table β key'}
    {g : α → Nat} {g' : β → Nat} (h : ∀ k, (t.get? k).map g = (u.get? k).map g') :
    t.sumOf g = u.sumOf g' := by
  have hsum : ∀ {γ : Type u} {key : γ → κ} (t : Table γ key) (g : γ → Nat),
      t.sumOf g = ((t.rows.map key).map fun k => ((t.get? k).map g).getD 0).sum := by
    intro γ key t g
    rw [sumOf, List.map_map]
    refine congrArg List.sum (List.map_congr_left fun a ha => ?_)
    rw [Function.comp_apply, get?_of_mem ha]
    rfl
  have hkeys : (t.rows.map key).Perm (u.rows.map key') := by
    rw [List.perm_ext_iff_of_nodup t.nodup u.nodup]
    intro k
    have hnone : t.get? k = none ↔ u.get? k = none := by
      rw [← Option.map_eq_none_iff (f := g), h k, Option.map_eq_none_iff]
    rw [get?_eq_none_iff, get?_eq_none_iff] at hnone
    exact not_iff_not.mp hnone
  rw [hsum t g, hsum u g']
  simp only [h]
  exact (hkeys.map _).sum_eq

end Table

end Base
