import GumIndexer.Base.Run

/-!
# Base.Tiling

Consecutive half-open spans.  `Tiles lo hi a xs b` says that the spans
`(lo x, hi x]` of `xs` follow each other without gap or overlap and lead from
`a` to `b`; then every number in `(a, b]` lies in exactly one of them and no
other number in any (`Tiles.countP`).

A machine that moves a position and emits the spans it moves over tiles
whatever distance it covers (`tiles_collect`, and `tiles_along` for the part of a
run that meets a condition).
-/

namespace Base

universe u v w

variable {α : Type u} (lo hi : α → Nat)

/-- The spans of `xs` lead from `a` to `b`. -/
def Tiles : Nat → List α → Nat → Prop
  | a, [], b => a = b
  | a, x :: xs, b => lo x = a ∧ lo x < hi x ∧ Tiles (hi x) xs b

variable {lo hi} {a b c : Nat} {xs ys : List α}

theorem tiles_nil : Tiles lo hi a [] a := rfl

theorem tiles_singleton {x : α} (h : lo x < hi x) : Tiles lo hi (lo x) [x] (hi x) := ⟨rfl, h, rfl⟩

theorem Tiles.append (h : Tiles lo hi a xs b) (h' : Tiles lo hi b ys c) :
    Tiles lo hi a (xs ++ ys) c := by
  induction xs generalizing a with
  | nil => cases h; exact h'
  | cons x xs ih => exact ⟨h.1, h.2.1, ih h.2.2⟩

theorem Tiles.le (h : Tiles lo hi a xs b) : a ≤ b := by
  induction xs generalizing a with
  | nil => exact Nat.le_of_eq h
  | cons x xs ih =>
      have hx := h.1
      have hlt := h.2.1
      have hrest := ih h.2.2
      omega

/-- A number of the tiled distance lies in exactly one span, any other in
none. -/
theorem Tiles.countP (h : Tiles lo hi a xs b) (n : Nat) :
    xs.countP (fun x => lo x < n ∧ n ≤ hi x) = if a < n ∧ n ≤ b then 1 else 0 := by
  induction xs generalizing a with
  | nil =>
      have hab : a = b := h
      rw [if_neg (by omega), List.countP_nil]
  | cons x xs ih =>
      have hx := h.1
      have hlt := h.2.1
      have hle := h.2.2.le
      rw [List.countP_cons, ih h.2.2]
      by_cases hin : lo x < n ∧ n ≤ hi x
      · simp only [hin, and_self, decide_true, if_true]
        rw [if_neg (by omega), if_pos (by omega)]
      · simp only [hin, decide_false, Bool.false_eq_true, if_false, Nat.add_zero]
        by_cases hrest : hi x < n ∧ n ≤ b
        · rw [if_pos hrest, if_pos (by omega)]
        · rw [if_neg hrest, if_neg (by omega)]

section Runs

variable {σ : Type v} {ι : Type w} {step : σ → ι → σ} {out : σ → ι → List α}

/-- A run emits a tiling if each of its steps does. -/
theorem tiles_along (at? : σ → Nat → Prop) {ok : σ → ι → Prop} {is : List ι}
    (hstep : ∀ s n, ∀ i ∈ is, at? s n → ok s i →
      ∃ n', at? (step s i) n' ∧ Tiles lo hi n (out s i) n')
    {s : σ} {n : Nat} (hs : at? s n) (hok : Along step ok s is) :
    ∃ n', at? (run step s is) n' ∧ Tiles lo hi n (collect out step s is) n' := by
  induction is generalizing s n with
  | nil => exact ⟨n, hs, rfl⟩
  | cons i is ih =>
      obtain ⟨n₁, hs₁, ht₁⟩ := hstep s n i List.mem_cons_self hs hok.1
      obtain ⟨n₂, hs₂, ht₂⟩ :=
        ih (fun s n j hj => hstep s n j (List.mem_cons_of_mem i hj)) hs₁ hok.2
      exact ⟨n₂, hs₂, ht₁.append ht₂⟩

theorem tiles_collect (at? : σ → Nat → Prop) {is : List ι}
    (hstep : ∀ s n, ∀ i ∈ is, at? s n → ∃ n', at? (step s i) n' ∧ Tiles lo hi n (out s i) n')
    {s : σ} {n : Nat} (hs : at? s n) :
    ∃ n', at? (run step s is) n' ∧ Tiles lo hi n (collect out step s is) n' :=
  tiles_along at? (fun s n i hi hs (_ : True) => hstep s n i hi hs) hs
    (along_iff_forall.mpr fun _ _ _ _ => trivial)

end Runs

end Base
