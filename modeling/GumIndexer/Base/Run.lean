/-!
# Base.Run

Runs of a machine given by a total step function: `run step s is` is the
state after the inputs `is`, `collect out step s is` what the steps emitted
on the way, and `Along step ok s is` says that every step of the run met `ok`
in the state it was taken in.

`invariant_run` and `invariant_along` are the two induction rules every
safety proof over runs goes through; the `append` lemmas cut a run at any
point, and `along_keeps_iff` trades a condition on every step for one on
every pair of states of the run, `along_iff_of_step` for one on every state.

One step of a machine is often itself a loop over a fallible body.
`Trace step s as s'` is the same notion for a step relation with labels, and
`foldlM_ok`, `foldlM_error` are the invariant rules for a loop in `Except`:
what each turn keeps holds at the end, or at the turn that fails.
-/

namespace Base

universe u v w

variable {σ : Type u} {ι : Type v} {ω : Type w}

/-- The state after a run. -/
def run (step : σ → ι → σ) (s : σ) (is : List ι) : σ := is.foldl step s

/-- Everything the steps of a run emitted, in order. -/
def collect (out : σ → ι → List ω) (step : σ → ι → σ) : σ → List ι → List ω
  | _, [] => []
  | s, i :: is => out s i ++ collect out step (step s i) is

/-- Every step of the run satisfies `ok` in the state it starts from. -/
def Along (step : σ → ι → σ) (ok : σ → ι → Prop) : σ → List ι → Prop
  | _, [] => True
  | s, i :: is => ok s i ∧ Along step ok (step s i) is

instance decidableAlong (step : σ → ι → σ) (ok : σ → ι → Prop) [∀ s i, Decidable (ok s i)] :
    ∀ (s : σ) (is : List ι), Decidable (Along step ok s is)
  | _, [] => isTrue trivial
  | s, i :: is =>
      have := decidableAlong step ok (step s i) is
      inferInstanceAs (Decidable (_ ∧ _))

variable {step : σ → ι → σ} {ok : σ → ι → Prop} {out : σ → ι → List ω}

@[simp] theorem run_nil (s : σ) : run step s [] = s := rfl

@[simp] theorem run_cons (s : σ) (i : ι) (is : List ι) :
    run step s (i :: is) = run step (step s i) is := rfl

theorem run_append (s : σ) (is js : List ι) :
    run step s (is ++ js) = run step (run step s is) js := List.foldl_append

@[simp] theorem collect_nil (s : σ) : collect out step s [] = [] := rfl

@[simp] theorem collect_cons (s : σ) (i : ι) (is : List ι) :
    collect out step s (i :: is) = out s i ++ collect out step (step s i) is := rfl

/-- What a run emitted was emitted by one of its steps. -/
theorem mem_collect {s : σ} {is : List ι} {x : ω} (h : x ∈ collect out step s is) :
    ∃ pre i post, is = pre ++ i :: post ∧ x ∈ out (run step s pre) i := by
  induction is generalizing s with
  | nil => cases h
  | cons i is ih =>
      rcases List.mem_append.mp h with h | h
      · exact ⟨[], i, is, rfl, h⟩
      · obtain ⟨pre, j, post, heq, hx⟩ := ih h
        exact ⟨i :: pre, j, post, by rw [heq]; rfl, hx⟩

/-- Something that does not hold at first and holds in the end was brought
about by one of the steps. -/
theorem exists_first {P : σ → Prop} {s : σ} {is : List ι} (h0 : ¬ P s) (h : P (run step s is)) :
    ∃ pre i post, is = pre ++ i :: post ∧ ¬ P (run step s pre) ∧ P (step (run step s pre) i) := by
  induction is generalizing s with
  | nil => exact absurd h h0
  | cons i is ih =>
      by_cases hi : P (step s i)
      · exact ⟨[], i, is, rfl, h0, hi⟩
      · obtain ⟨pre, j, post, heq, hn, hp⟩ := ih hi h
        exact ⟨i :: pre, j, post, by rw [heq]; rfl, hn, hp⟩

@[simp] theorem along_nil (s : σ) : Along step ok s [] := trivial

@[simp] theorem along_cons (s : σ) (i : ι) (is : List ι) :
    Along step ok s (i :: is) ↔ ok s i ∧ Along step ok (step s i) is := Iff.rfl

theorem along_append (s : σ) (is js : List ι) :
    Along step ok s (is ++ js) ↔ Along step ok s is ∧ Along step ok (run step s is) js := by
  induction is generalizing s with
  | nil => simp
  | cons i is ih => simp [ih, and_assoc]

/-- Every step of a run meets `ok` in the state that the steps before it lead
to. -/
theorem along_iff_forall {s : σ} {is : List ι} :
    Along step ok s is ↔ ∀ pre i post, is = pre ++ i :: post → ok (run step s pre) i := by
  constructor
  · rintro h pre i post rfl
    rw [along_append] at h
    exact h.2.1
  · intro h
    induction is generalizing s with
    | nil => trivial
    | cons i is ih =>
        refine ⟨h [] i is rfl, ih fun pre j post heq => ?_⟩
        exact h (i :: pre) j post (by rw [heq]; rfl)

theorem along_and {ok' : σ → ι → Prop} {s : σ} {is : List ι} (h : Along step ok s is)
    (h' : Along step ok' s is) : Along step (fun s i => ok s i ∧ ok' s i) s is := by
  induction is generalizing s with
  | nil => trivial
  | cons i is ih => exact ⟨⟨h.1, h'.1⟩, ih h.2 h'.2⟩

theorem along_mono {ok' : σ → ι → Prop} {s : σ} {is : List ι} (h : ∀ s i, ok s i → ok' s i)
    (hok : Along step ok s is) : Along step ok' s is := by
  induction is generalizing s with
  | nil => trivial
  | cons i is ih => exact ⟨h s i hok.1, ih hok.2⟩

/-- What every step preserves holds after every run. -/
theorem invariant_run (Inv : σ → Prop) (hstep : ∀ s i, Inv s → Inv (step s i)) {s : σ}
    (hs : Inv s) (is : List ι) : Inv (run step s is) := by
  induction is generalizing s with
  | nil => exact hs
  | cons i is ih => exact ih (hstep s i hs)

/-- What every step of the run preserves, if it meets `ok`, holds after the
run if they all do. -/
theorem invariant_along (Inv : σ → Prop) {is : List ι}
    (hstep : ∀ s, ∀ i ∈ is, Inv s → ok s i → Inv (step s i)) {s : σ} (hs : Inv s)
    (hok : Along step ok s is) : Inv (run step s is) := by
  induction is generalizing s with
  | nil => exact hs
  | cons i is ih =>
      exact ih (fun s j hj => hstep s j (List.mem_cons_of_mem i hj))
        (hstep s i List.mem_cons_self hs hok.1) hok.2

/-- What the steps of the run preserve holds after it. -/
theorem invariant_mem (Inv : σ → Prop) {is : List ι}
    (hstep : ∀ s, ∀ i ∈ is, Inv s → Inv (step s i)) {s : σ} (hs : Inv s) : Inv (run step s is) := by
  induction is generalizing s with
  | nil => exact hs
  | cons i is ih =>
      exact ih (fun s j hj => hstep s j (List.mem_cons_of_mem i hj)) (hstep s i List.mem_cons_self hs)

/-- Every step keeps each of the properties `P k` exactly if, once one holds
in a state of the run, it holds in every later one. -/
theorem along_keeps_iff {κ : Type w} {P : κ → σ → Prop} {s : σ} {is : List ι} :
    Along step (fun s i => ∀ k, P k s → P k (step s i)) s is ↔
      ∀ pre mid post, is = pre ++ mid ++ post → ∀ k, P k (run step s pre) →
        P k (run step s (pre ++ mid)) := by
  constructor
  · rintro h pre mid post rfl k hk
    rw [along_append, along_append] at h
    rw [run_append]
    exact invariant_along (P k) (fun s i _ hs hok => hok k hs) hk h.1.2
  · intro h
    induction is generalizing s with
    | nil => trivial
    | cons i is ih =>
        refine ⟨fun k hk => h [] [i] is rfl k hk, ih ?_⟩
        intro pre mid post heq
        exact h (i :: pre) mid post (by rw [heq]; rfl)

/-- If a step keeps `P` exactly when it meets `ok`, then the steps of a run all
meet `ok` exactly when `P` holds in every state of the run. -/
theorem along_iff_of_step (Inv P : σ → Prop) (hinv : ∀ s i, Inv s → Inv (step s i))
    (hstep : ∀ s i, Inv s → P s → (P (step s i) ↔ ok s i)) {s : σ} (hs : Inv s) (h0 : P s)
    (is : List ι) :
    Along step ok s is ↔ ∀ pre post, is = pre ++ post → P (run step s pre) := by
  induction is generalizing s with
  | nil =>
      refine ⟨fun _ pre post heq => ?_, fun _ => trivial⟩
      rw [(List.append_eq_nil_iff.mp heq.symm).1]
      exact h0
  | cons i is ih =>
      rw [along_cons, ← hstep s i hs h0]
      constructor
      · rintro ⟨hi, hrest⟩ pre post heq
        cases pre with
        | nil => exact h0
        | cons j pre =>
            obtain ⟨rfl, hpre⟩ := List.cons.inj heq
            exact (ih (hinv s i hs) hi).mp hrest pre post hpre
      · intro h
        have hi : P (step s i) := h [i] is rfl
        exact ⟨hi, (ih (hinv s i hs) hi).mpr fun pre post heq =>
          h (i :: pre) post (by rw [heq]; rfl)⟩

theorem along_congr {ok' : σ → ι → Prop} (h : ∀ s i, ok s i ↔ ok' s i) {s : σ} {is : List ι} :
    Along step ok s is ↔ Along step ok' s is := by
  induction is generalizing s with
  | nil => rfl
  | cons i is ih => rw [along_cons, along_cons, h, ih]

/-! ## Labelled traces -/

/-- `Trace step s as s'`: the steps labelled `as` lead from `s` to `s'`. -/
inductive Trace (step : σ → ι → σ → Prop) : σ → List ι → σ → Prop
  | nil (s : σ) : Trace step s [] s
  | cons {s s' s'' : σ} {a : ι} {as : List ι} (head : step s a s') (tail : Trace step s' as s'') :
      Trace step s (a :: as) s''

namespace Trace

variable {rel : σ → ι → σ → Prop} {s s' s'' : σ} {a : ι} {as bs : List ι}

theorem single (h : rel s a s') : Trace rel s [a] s' := .cons h (.nil s')

theorem append (h : Trace rel s as s') (h' : Trace rel s' bs s'') :
    Trace rel s (as ++ bs) s'' := by
  induction h with
  | nil _ => exact h'
  | cons head _ ih => exact .cons head (ih h')

/-- What every step with a label of the trace preserves holds after it. -/
theorem invariant_mem (Inv : σ → Prop) (h : Trace rel s as s')
    (hstep : ∀ s a s', a ∈ as → rel s a s' → Inv s → Inv s') (hs : Inv s) : Inv s' := by
  induction h with
  | nil _ => exact hs
  | cons head _ ih =>
      exact ih (fun s b s' hb => hstep s b s' (List.mem_cons_of_mem _ hb))
        (hstep _ _ _ List.mem_cons_self head hs)

/-- What every step preserves holds after every trace. -/
theorem invariant (Inv : σ → Prop) (hstep : ∀ s a s', rel s a s' → Inv s → Inv s')
    (h : Trace rel s as s') (hs : Inv s) : Inv s' :=
  h.invariant_mem Inv (fun s a s' _ => hstep s a s') hs

/-- A quantity to which every step appends its label's share. -/
theorem collected {out : ι → List ω} {got : σ → List ω}
    (hstep : ∀ s a s', rel s a s' → got s' = got s ++ out a) (h : Trace rel s as s') :
    got s' = got s ++ as.flatMap out := by
  induction h with
  | nil _ => simp
  | cons head _ ih => rw [ih, hstep _ _ _ head, List.flatMap_cons, List.append_assoc]

end Trace

/-! ## Loops in `Except` -/

section Loops

variable {ε : Type w} {f : σ → ι → Except ε σ} (Inv : List ι → σ → Prop) {s s' : σ} {is : List ι}

/-- What each successful turn keeps holds after the loop.  The invariant may
mention the items that are still to come. -/
theorem foldlM_ok (hstep : ∀ i is s s', Inv (i :: is) s → f s i = .ok s' → Inv is s')
    (hs : Inv is s) (h : is.foldlM f s = .ok s') : Inv [] s' := by
  induction is generalizing s with
  | nil => cases h; exact hs
  | cons i is ih =>
      rw [List.foldlM_cons] at h
      cases hf : f s i with
      | error e => rw [hf] at h; cases h
      | ok t =>
          rw [hf] at h
          exact ih (hstep i is s t hs hf) h

/-- A loop that checks every item and translates it. -/
theorem mapM_eq_ok_iff {τ : Type v} {f : ι → Except ε τ} {p : ι → Prop} [DecidablePred p] {g : ι → τ}
    {e : ι → ε} (h : ∀ i, f i = if p i then .ok (g i) else .error (e i)) {ts : List τ} :
    is.mapM f = .ok ts ↔ (∀ i ∈ is, p i) ∧ ts = is.map g := by
  induction is generalizing ts with
  | nil => simp [pure, Except.pure, eq_comm]
  | cons i is ih =>
      rw [List.mapM_cons, h i, List.forall_mem_cons, List.map_cons]
      by_cases hp : p i
      · rw [if_pos hp]
        cases hrest : is.mapM f with
        | error e =>
            have hnot : ¬ ∀ j ∈ is, p j := fun hall => by
              cases hrest.symm.trans (ih.mpr ⟨hall, rfl⟩)
            simp [bind, Except.bind, hnot]
        | ok us =>
            obtain ⟨hall, rfl⟩ := ih.mp hrest
            constructor
            · rintro ⟨⟩
              exact ⟨⟨hp, hall⟩, rfl⟩
            · rintro ⟨-, rfl⟩
              rfl
      · simp [bind, Except.bind, hp]

theorem foldlM_congr {g : σ → ι → Except ε σ} (h : ∀ s, ∀ i ∈ is, f s i = g s i) :
    is.foldlM f s = is.foldlM g s := by
  induction is generalizing s with
  | nil => rfl
  | cons i is ih =>
      rw [List.foldlM_cons, List.foldlM_cons, h s i List.mem_cons_self]
      exact congrArg (g s i >>= ·) (funext fun t => ih fun s j hj => h s j (List.mem_cons_of_mem i hj))

/-- A loop fails with the error of one of its turns, taken in a state that
satisfies the invariant. -/
theorem foldlM_error {e : ε} (hstep : ∀ i is s s', Inv (i :: is) s → f s i = .ok s' → Inv is s')
    (hs : Inv is s) (h : is.foldlM f s = .error e) :
    ∃ i rest t, Inv (i :: rest) t ∧ f t i = .error e := by
  induction is generalizing s with
  | nil => cases h
  | cons i is ih =>
      rw [List.foldlM_cons] at h
      cases hf : f s i with
      | error e' =>
          rw [hf] at h
          cases h
          exact ⟨i, is, s, hs, hf⟩
      | ok t =>
          rw [hf] at h
          exact ih (hstep i is s t hs hf) h

end Loops

end Base
