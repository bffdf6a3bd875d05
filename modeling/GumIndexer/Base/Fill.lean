import Mathlib.Algebra.Order.BigOperators.Group.List
import Mathlib.Algebra.Order.Ring.Nat
import Mathlib.Data.List.Perm.Subperm

/-!
# Base.Fill

Filling a quota: items with a size are taken in order until the total reaches
the quota, and none after that.  `fill T c xs` is the part of `xs` taken when
`c` of the quota `T` is already there -- the shortest prefix of `xs` whose
total brings `c` to `T`, or all of `xs` if it is never reached.

`Stays` says that filling never carries the total to a bound.

The cut makes filling sensitive to order.  `fill_append` is the law that lets
a list be filled piece by piece; `filled_swap_iff` says exactly when two
pieces may be filled in either order with the same result.
-/

namespace Base

universe u v

variable {α : Type u} (size : α → Nat)

/-- The total size of a list of items. -/
def total (xs : List α) : Nat := (xs.map size).sum

@[simp] theorem total_nil : total size [] = 0 := rfl

@[simp] theorem total_cons (x : α) (xs : List α) :
    total size (x :: xs) = size x + total size xs := by
  simp [total]

@[simp] theorem total_append (xs ys : List α) :
    total size (xs ++ ys) = total size xs + total size ys := by
  simp [total]

/-- The items taken while the quota `T` is not reached, starting from `c`. -/
def fill (T : Nat) : Nat → List α → List α
  | _, [] => []
  | c, x :: xs => if T ≤ c then [] else x :: fill T (c + size x) xs

variable {size} {T c : Nat} {xs ys : List α}

@[simp] theorem fill_nil : fill size T c [] = [] := rfl

theorem fill_cons (x : α) (xs : List α) :
    fill size T c (x :: xs) = if T ≤ c then [] else x :: fill size T (c + size x) xs := rfl

/-- A reached quota takes nothing more. -/
theorem fill_of_le (h : T ≤ c) : fill size T c xs = [] := by
  cases xs with
  | nil => rfl
  | cons x xs => rw [fill_cons, if_pos h]

/-- **Filling piece by piece**: the second piece goes on from the total the
first one left. -/
theorem fill_append (T c : Nat) (xs ys : List α) :
    fill size T c (xs ++ ys) =
      fill size T c xs ++ fill size T (c + total size (fill size T c xs)) ys := by
  induction xs generalizing c with
  | nil => simp
  | cons x xs ih =>
      rw [List.cons_append, fill_cons, fill_cons]
      by_cases h : T ≤ c
      · simp [h, fill_of_le h]
      · simp [h, ih, Nat.add_assoc]

theorem isPrefix_fill (T c : Nat) (xs : List α) : fill size T c xs <+: xs := by
  induction xs generalizing c with
  | nil => simp
  | cons x xs ih =>
      rw [fill_cons]
      by_cases h : T ≤ c
      · simp [h]
      · rw [if_neg h]
        exact List.cons_prefix_cons.mpr ⟨rfl, ih (c + size x)⟩

/-- A quota that everything does not reach takes everything. -/
theorem fill_eq_self (h : c + total size xs < T) : fill size T c xs = xs := by
  induction xs generalizing c with
  | nil => rfl
  | cons x xs ih =>
      rw [total_cons] at h
      rw [fill_cons, if_neg (by omega), ih (by omega)]

/-- Everything is taken exactly when everything but the last item leaves the
quota open. -/
theorem fill_append_singleton_eq_self {x : α} :
    fill size T c (xs ++ [x]) = xs ++ [x] ↔ c + total size xs < T := by
  constructor
  · intro h
    by_contra hlt
    rw [fill_append] at h
    have hpre : fill size T c xs <+: xs := isPrefix_fill T c xs
    have hlen := congrArg List.length h
    have hle := hpre.length_le
    -- all of `xs` has to be taken, and then the quota is already reached
    have hone : (fill size T (c + total size (fill size T c xs)) [x]).length ≤ 1 :=
      (isPrefix_fill T _ [x]).length_le
    simp only [List.length_append, List.length_singleton] at hlen
    have hall : fill size T c xs = xs := hpre.eq_of_length (by omega)
    rw [hall, fill_of_le (by omega)] at hlen
    simp at hlen
  · intro h
    rw [fill_append, fill_eq_self h, fill_cons, if_neg (by omega), fill_nil]

theorem fill_append_eq_self_iff (hy : ys ≠ []) :
    fill size T c (xs ++ ys) = xs ++ ys ↔ c + total size (xs ++ ys.dropLast) < T := by
  obtain ⟨zs, z, rfl⟩ : ∃ zs z, ys = zs ++ [z] := ⟨_, _, (List.dropLast_append_getLast hy).symm⟩
  rw [← List.append_assoc, fill_append_singleton_eq_self, List.dropLast_concat]

/-- What is taken does not reach the quota before its last item. -/
theorem total_fill_lt_or (T c : Nat) (xs : List α) :
    fill size T c xs = xs ∨ T ≤ c + total size (fill size T c xs) := by
  induction xs generalizing c with
  | nil => exact Or.inl rfl
  | cons x xs ih =>
      rw [fill_cons]
      by_cases h : T ≤ c
      · right
        simp [h]
      · rw [if_neg h]
        rcases ih (c + size x) with hx | hx
        · left
          rw [hx]
        · right
          rw [total_cons]
          omega

/-- An item is taken, or the items before it have filled the quota. -/
theorem mem_fill_or_le (T c : Nat) (xs : List α) (x : α) (ys : List α) :
    x ∈ fill size T c (xs ++ x :: ys) ∨ T ≤ c + total size xs := by
  have hcases : fill size T c xs = xs ∨ T ≤ c + total size (fill size T c xs) :=
    total_fill_lt_or T c xs
  obtain ⟨rest, hrest⟩ : fill size T c xs <+: xs := isPrefix_fill T c xs
  have hsum := congrArg (total size) hrest
  rw [total_append] at hsum
  rw [fill_append, fill_cons]
  rcases hcases with hall | hle
  · by_cases h : T ≤ c + total size xs
    · exact .inr h
    · left
      simp [hall, h]
  · right
    omega

/-- Filling with images. -/
theorem fill_map {β : Type v} (g : β → α) (ys : List β) :
    fill size T c (ys.map g) = (fill (fun y => size (g y)) T c ys).map g := by
  induction ys generalizing c with
  | nil => rfl
  | cons y ys ih =>
      rw [List.map_cons, fill_cons, fill_cons, ih]
      split <;> rfl

theorem total_le_of_sublist {ys : List α} (h : xs.Sublist ys) : total size xs ≤ total size ys :=
  (h.map size).sum_le_sum fun _ _ => Nat.zero_le _

theorem total_filter_le (p : α → Bool) (xs : List α) :
    total size (xs.filter p) ≤ total size xs :=
  total_le_of_sublist List.filter_sublist

/-- Different items of a list total at most what the list does. -/
theorem total_le_of_subset {ys : List α} (distinct : xs.Nodup) (h : xs ⊆ ys) :
    total size xs ≤ total size ys := by
  obtain ⟨zs, hperm, hsub⟩ := distinct.subperm h
  have heq : total size zs = total size xs := (hperm.map size).sum_eq
  rw [← heq]
  exact total_le_of_sublist hsub

/-! ## Two orders -/

/-- If something after `xs` is taken, all of `xs` is. -/
theorem subset_fill_of_mem {x : α} (h : x ∈ fill size T c (xs ++ ys)) (hx : x ∉ xs) :
    xs ⊆ fill size T c (xs ++ ys) := by
  rcases List.prefix_or_prefix_of_prefix (isPrefix_fill T c (xs ++ ys)) (List.prefix_append xs ys)
    with hpre | hpre
  · exact absurd (hpre.subset h) hx
  · exact hpre.subset

/-- An open quota takes the first item. -/
theorem head_mem_fill {x : α} (hc : c < T) (xs : List α) : x ∈ fill size T c (x :: xs) := by
  rw [fill_cons, if_neg (by omega)]
  exact List.mem_cons_self

/-- A part that misses nothing is everything. -/
theorem fill_eq_self_of_subset (distinct : xs.Nodup) (h : xs ⊆ fill size T c xs) :
    fill size T c xs = xs :=
  (isPrefix_fill T c xs).eq_of_length_le (distinct.subperm h).length_le

/-- What is taken of the first piece does not depend on the second. -/
theorem mem_fill_of_mem_append {x : α} (h : x ∈ fill size T c (xs ++ ys)) (hx : x ∉ ys) :
    x ∈ fill size T c xs := by
  rw [fill_append] at h
  rcases List.mem_append.mp h with h | h
  · exact h
  · exact absurd ((isPrefix_fill T _ ys).subset h) hx

/-- In either order, if both take the same items, the first two pieces are
taken whole. -/
theorem fill_eq_self_of_swap {x : α} {zs : List α} (distinct : (xs ++ ys ++ zs).Nodup)
    (hx : x ∈ xs) (hmem : x ∈ fill size T c (ys ++ xs ++ zs))
    (hall : xs ⊆ fill size T c (ys ++ xs ++ zs)) :
    fill size T c (ys ++ xs) = ys ++ xs := by
  rw [List.nodup_append] at distinct
  obtain ⟨hpair, -, hzs⟩ := distinct
  have hdisjoint := (List.nodup_append.mp hpair).2.2
  have hys : ys ⊆ fill size T c (ys ++ xs ++ zs) := by
    rw [List.append_assoc] at hmem ⊢
    exact subset_fill_of_mem hmem fun hy => hdisjoint x hx x hy rfl
  refine fill_eq_self_of_subset (List.perm_append_comm.nodup_iff.mp hpair) fun a ha => ?_
  have htaken : a ∈ fill size T c (ys ++ xs ++ zs) :=
    (List.mem_append.mp ha).elim (fun h => hys h) (fun h => hall h)
  refine mem_fill_of_mem_append htaken fun hz => hzs a ?_ a hz rfl
  exact List.mem_append.mpr (List.mem_append.mp ha).symm

/-- **When two pieces may be filled in either order**: one of them is empty, or
in both orders the quota is open up to the last item. -/
theorem filled_swap_iff {zs : List α} (hc : c < T) (distinct : (xs ++ ys ++ zs).Nodup) :
    (∀ a, a ∈ fill size T c (xs ++ ys ++ zs) ↔ a ∈ fill size T c (ys ++ xs ++ zs)) ↔
      xs = [] ∨ ys = [] ∨
        c + total size (xs ++ ys.dropLast) < T ∧ c + total size (ys ++ xs.dropLast) < T := by
  by_cases hx : xs = []
  · subst hx
    rw [List.nil_append, List.append_nil]
    exact iff_of_true (fun _ => Iff.rfl) (.inl rfl)
  by_cases hy : ys = []
  · subst hy
    rw [List.nil_append, List.append_nil]
    exact iff_of_true (fun _ => Iff.rfl) (.inr (.inl rfl))
  rw [or_iff_right hx, or_iff_right hy, ← fill_append_eq_self_iff hy, ← fill_append_eq_self_iff hx]
  constructor
  · intro h
    obtain ⟨x, xs, rfl⟩ := List.exists_cons_of_ne_nil hx
    obtain ⟨y, ys, rfl⟩ := List.exists_cons_of_ne_nil hy
    have hswap : (y :: ys ++ (x :: xs) ++ zs).Nodup :=
      (List.perm_append_comm.append_right zs).nodup_iff.mp distinct
    have hx : x ∈ fill size T c (x :: xs ++ y :: ys ++ zs) := head_mem_fill hc _
    have hy : y ∈ fill size T c (y :: ys ++ x :: xs ++ zs) := head_mem_fill hc _
    have hdisjoint := (List.nodup_append.mp (List.nodup_append.mp distinct).1).2.2
    -- each order takes the first item of the other's second piece
    have hxs : x :: xs ⊆ fill size T c (x :: xs ++ y :: ys ++ zs) := by
      have hmem := (h y).mpr hy
      rw [List.append_assoc] at hmem ⊢
      exact subset_fill_of_mem hmem fun hin => hdisjoint y hin y List.mem_cons_self rfl
    have hys : y :: ys ⊆ fill size T c (y :: ys ++ x :: xs ++ zs) := by
      have hmem := (h x).mp hx
      rw [List.append_assoc] at hmem ⊢
      exact subset_fill_of_mem hmem fun hin => hdisjoint x List.mem_cons_self x hin rfl
    exact ⟨fill_eq_self_of_swap hswap List.mem_cons_self ((h y).mpr hy)
        fun a ha => (h a).mpr (hys ha),
      fill_eq_self_of_swap distinct List.mem_cons_self ((h x).mp hx)
        fun a ha => (h a).mp (hxs ha)⟩
  · rintro ⟨hxs, hys⟩ a
    rw [fill_append, fill_append T c (ys ++ xs), hxs, hys, total_append, total_append,
      Nat.add_comm (total size xs)]
    simp only [List.mem_append]
    tauto

/-! ## Keeping below a bound -/

variable (size) in
/-- No item that is taken carries the total to `B`. -/
def Stays (B T c : Nat) (xs : List α) : Prop :=
  ∀ pre x post, xs = pre ++ x :: post → c + total size pre < T → c + total size pre + size x < B

variable {B : Nat}

theorem stays_nil : Stays size B T c [] := by
  intro pre x post h
  simp at h

theorem stays_cons {x : α} :
    Stays size B T c (x :: xs) ↔ (c < T → c + size x < B) ∧ Stays size B T (c + size x) xs := by
  constructor
  · intro h
    refine ⟨fun hc => by simpa using h [] x xs rfl (by simpa using hc), ?_⟩
    intro pre y post heq hlt
    have hy := h (x :: pre) y post (by rw [heq]; rfl) (by rw [total_cons]; omega)
    rw [total_cons] at hy
    omega
  · rintro ⟨hx, hrest⟩ pre y post heq hlt
    cases pre with
    | nil =>
        obtain ⟨rfl, rfl⟩ := List.cons.inj heq
        simpa using hx (by simpa using hlt)
    | cons z pre =>
        obtain ⟨rfl, rfl⟩ := List.cons.inj heq
        rw [total_cons] at hlt ⊢
        have hy := hrest pre y post rfl (by omega)
        omega

/-- The total after the last item taken is the largest one. -/
theorem stays_iff (hc : c < B) : Stays size B T c xs ↔ c + total size (fill size T c xs) < B := by
  induction xs generalizing c with
  | nil => simpa using ⟨fun _ => hc, fun _ => stays_nil⟩
  | cons x xs ih =>
      rw [stays_cons, fill_cons]
      by_cases h : T ≤ c
      · -- nothing is taken any more, neither now nor later
        rw [if_pos h, total_nil]
        refine ⟨fun _ => hc, fun _ => ⟨fun hlt => by omega, ?_⟩⟩
        intro pre y post _ hlt
        omega
      · rw [if_neg h, total_cons, ← Nat.add_assoc]
        constructor
        · rintro ⟨hx, hrest⟩
          exact (ih (hx (by omega))).mp hrest
        · intro hlt
          have hx : c + size x < B := by omega
          exact ⟨fun _ => hx, (ih hx).mpr hlt⟩

end Base
