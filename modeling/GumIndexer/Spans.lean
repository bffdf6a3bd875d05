import GumIndexer.Base.Tiling
import GumIndexer.Sweeper

/-!
# GumIndexer.Spans

The spans the sweeper asks a provider for.

The span shrinks by what a refusal says or by half, doubles after a chunk went
through, and may be reset to the configured maximum once an hour; the scan of
new blocks and the scan of a backfill share it.  `Paces` says once what an
event may make of the sweeper.  From it follow the bounds of the span
(`Sweeper.Paced`), that each scan moves forward without gap or overlap, and
that it ends: the requests it can still make are bounded by `Sweeper.left`, in
which a block is worth more than any span.

Nothing here depends on the database, which other instances write too: every
event may find any.
-/

namespace GumIndexer

open Base

/-- One event of an instance, with the database it finds. -/
def resume (chain : ChainSpec) (rt : ChainRuntime) (i : Db × Event) : ChainRuntime :=
  (rt.step chain i.1 i.2).2

/-! ## What an event makes of the sweeper -/

/-- The phases of the two loops over blocks. -/
def Phase.Loops : Phase → Prop
  | .scanning _ _ => True
  | .scanned _ _ _ _ => True
  | .fetching _ _ _ _ _ => True
  | _ => False

/-- The phases before, between and after them. -/
def Phase.Outside : Phase → Prop
  | .idle => True
  | .probing => True
  | .forwarding _ => True
  | .backfilling _ => True
  | _ => False

/-- The event is what a loop waits for. -/
def Event.Turns : Event → Phase → Prop
  | .logs _ _, .scanning _ _ => True
  | .logs _ _, .fetching _ _ _ _ _ => True
  | .proceed _, .scanned _ _ _ _ => True
  | _, _ => False

inductive Paces (chain : ChainSpec) (s : Sweeper) : Event → Sweeper → Prop
  | starts {clock : Nat} : Paces chain s (.restart clock) (.start chain clock)
  | stays {e : Event} (h : ¬ e.Turns s.phase) : Paces chain s e s
  /-- The loop, if it was one, is over. -/
  | leaves {e : Event} {phase : Phase} (h : phase.Outside) : Paces chain s e { s with phase }
  | enters {clock head cursor : Nat} (at_ : s.phase = .forwarding head) :
      Paces chain s (.proceed clock) { s with phase := chain.scanFrom head cursor }
  | scans {clock head cursor : Nat} {logs : List Log} (at_ : s.phase = .scanning head cursor) :
      Paces chain s (.logs clock (.ok logs))
        { s with phase := .scanned head cursor (s.chunkEnd (cursor + 1) (chain.target head)) logs }
  | narrows {clock head cursor : Nat} {e : RpcError} (at_ : s.phase = .scanning head cursor)
      (wide : 1 < s.range) :
      Paces chain s (.logs clock (.error e))
        (s.shrinkRange (cursor + 1) (s.chunkEnd (cursor + 1) (chain.target head)) clock e.message)
  | sweeps {clock head cursor toBlock : Nat} {logs : List Log}
      (at_ : s.phase = .scanned head cursor toBlock logs) :
      Paces chain s (.proceed clock)
        { s.growRange chain clock with phase := chain.scanFrom head toBlock }
  | picks {clock head : Nat} {batch : List PendingBackfill} (at_ : s.phase = .backfilling head) :
      Paces chain s (.proceed clock) { s with phase := .ofBatch head batch }
  | fetches {clock head toBlock next : Nat} {batch : List PendingBackfill} {logs found : List Log}
      (at_ : s.phase = .fetching head batch toBlock next logs) :
      Paces chain s (.logs clock (.ok found))
        { s with phase :=
            .fetchFrom head batch toBlock (s.chunkEnd next toBlock + 1) (logs ++ found) }
  | narrowsFetch {clock head toBlock next : Nat} {batch : List PendingBackfill} {logs : List Log}
      {e : RpcError} (at_ : s.phase = .fetching head batch toBlock next logs) (wide : 1 < s.range) :
      Paces chain s (.logs clock (.error e))
        (s.shrinkRange next (s.chunkEnd next toBlock) clock e.message)

section Inversion

variable {chain : ChainSpec} {db : Db} {rt : ChainRuntime}

/-- Going on changes the range only as `Paces` has it. -/
theorem paces_proceed (clock : Nat) :
    Paces chain rt.sweeper (.proceed clock) (ChainRuntime.proceed chain db rt clock).2.sweeper := by
  unfold ChainRuntime.proceed
  cases hphase : rt.sweeper.phase with
  | forwarding head =>
      simp only
      split
      · exact .enters hphase
      · exact .leaves trivial
  | scanned head cursor toBlock logs =>
      simp only
      split
      · exact .sweeps hphase
      · exact .leaves trivial
      · exact .leaves trivial
  | backfilling head => exact .picks hphase
  | fetched head batch logs =>
      simp only
      split
      · refine .leaves ?_
        split <;> trivial
      · exact .leaves trivial
  | _ => exact .stays (by simp [hphase, Event.Turns])

/-- So does an answer. -/
theorem paces_logs (clock : Nat) (reply : Except RpcError (List Log)) :
    Paces chain rt.sweeper (.logs clock reply) (rt.onLogs chain clock reply).sweeper := by
  unfold ChainRuntime.onLogs
  cases hphase : rt.sweeper.phase with
  | scanning head cursor =>
      simp only
      cases reply with
      | ok logs => exact .scans hphase
      | error e =>
          simp only [Sweeper.onSweepLogs]
          split
          · next h => exact .narrows hphase h.2
          · split <;> exact .leaves trivial
  | fetching head batch toBlock next logs =>
      simp only
      cases reply with
      | ok found => exact .fetches hphase
      | error e =>
          simp only [Sweeper.onBackfillLogs]
          split
          · next h => exact .narrowsFetch hphase h.2
          · exact .leaves trivial
  | _ => exact .stays (by simp [hphase, Event.Turns])

/-- **What an event may make of the sweeper.** -/
theorem step_paces (db : Db) (e : Event) :
    Paces chain rt.sweeper e (rt.step chain db e).2.sweeper := by
  cases e with
  | restart clock => exact .starts
  | bootstrap _ | create _ _ | cancel _ | heard _ | expire _ | tick _ =>
      rw [sweeper_step_of_aside (by trivial)]
      exact .stays (by simp [Event.Turns])
  | sweep locked =>
      simp only [ChainRuntime.step]
      split
      · simp only [ChainRuntime.withPhase, phase_expire]
        exact .leaves trivial
      · exact .stays (by simp [Event.Turns])
  | head reply =>
      simp only [ChainRuntime.step, ChainRuntime.onHead]
      split
      · exact .leaves trivial
      · exact .leaves trivial
      · exact .stays (by simp [Event.Turns])
  | logs clock reply => exact paces_logs clock reply
  | proceed clock => exact paces_proceed clock
  | abort => exact .leaves trivial

end Inversion

/-! ## The span -/

/-- Where a loop can be. -/
def Phase.Spanned (chain : ChainSpec) : Phase → Prop
  | .scanning head cursor => cursor < chain.target head
  | .scanned head cursor toBlock _ =>
      cursor < toBlock ∧ toBlock ≤ chain.target head ∧ toBlock ≤ cursor + chain.maxLogRange
  | .fetching _ _ toBlock next _ => next ≤ toBlock
  | _ => True

structure Sweeper.Paced (chain : ChainSpec) (s : Sweeper) : Prop where
  range_pos : 1 ≤ s.range
  range_le : s.range ≤ s.ceiling
  ceiling_le : s.ceiling ≤ chain.maxLogRange
  spanned : s.phase.Spanned chain

section Span

variable {chain : ChainSpec} {s s' : Sweeper} {e : Event}

/-- Outside the loops there is no span to keep. -/
theorem Phase.Outside.spanned {phase : Phase} (h : phase.Outside) : phase.Spanned chain := by
  cases phase <;> trivial

/-- A scan begins below its target, or is over at once. -/
theorem spanned_scanFrom (head cursor : Nat) : (chain.scanFrom head cursor).Spanned chain := by
  unfold ChainSpec.scanFrom
  split
  · assumption
  · trivial

/-- A fetch goes on below its last block, or is over. -/
theorem spanned_fetchFrom (head : Nat) (batch : List PendingBackfill) (toBlock next : Nat)
    (logs : List Log) : (Phase.fetchFrom head batch toBlock next logs).Spanned chain := by
  unfold Phase.fetchFrom
  split
  · assumption
  · trivial

/-- So does the fetch of a batch. -/
theorem spanned_ofBatch (head : Nat) (batch : List PendingBackfill) :
    (Phase.ofBatch head batch).Spanned chain := by
  unfold Phase.ofBatch
  split
  · exact spanned_fetchFrom ..
  · trivial

/-- **A chunk** is not empty, ends within the scan and is no wider than the
range. -/
theorem Sweeper.chunkEnd_bounds {fromBlock last : Nat} (pos : 1 ≤ s.range) (h : fromBlock ≤ last) :
    fromBlock ≤ s.chunkEnd fromBlock last ∧ s.chunkEnd fromBlock last ≤ last ∧
      s.chunkEnd fromBlock last + 1 ≤ fromBlock + s.range := by
  unfold Sweeper.chunkEnd
  omega

/-- A refused span is followed by a shorter one, whatever the refusal says. -/
theorem Sweeper.shrinkRange_range {fromBlock toBlock : Nat} (clock : Nat) (error : String)
    (wide : 1 < s.range) (hspan : toBlock + 1 ≤ fromBlock + s.range) :
    1 ≤ (s.shrinkRange fromBlock toBlock clock error).range ∧
      (s.shrinkRange fromBlock toBlock clock error).range < s.range := by
  -- half the span is shorter than the range, even if the span is
  have hhalf : max ((toBlock - fromBlock + 1) / 2) 1 < s.range := max_lt (by omega) wide
  unfold Sweeper.shrinkRange
  simp only
  split
  · split
    · exact ⟨le_max_right _ _, max_lt (by omega) wide⟩
    · exact ⟨le_max_right _ _, hhalf⟩
  · exact ⟨le_max_right _ _, hhalf⟩

/-- A range that grows stays within its ceiling, and that within the configured
one. -/
theorem Sweeper.growRange_range (clock : Nat) (pos : 1 ≤ s.range) (h : s.range ≤ s.ceiling)
    (h' : s.ceiling ≤ chain.maxLogRange) :
    1 ≤ (s.growRange chain clock).range ∧
      (s.growRange chain clock).range ≤ (s.growRange chain clock).ceiling ∧
      (s.growRange chain clock).ceiling ≤ chain.maxLogRange := by
  unfold Sweeper.growRange
  simp only
  split <;> split <;> omega

/-- A range that shrinks stays at least one block wide. -/
theorem Sweeper.Paced.shrinkRange {fromBlock toBlock : Nat} (paced : s.Paced chain) (clock : Nat)
    (error : String) (wide : 1 < s.range) (hspan : toBlock + 1 ≤ fromBlock + s.range) :
    (s.shrinkRange fromBlock toBlock clock error).Paced chain := by
  obtain ⟨hpos, hlt⟩ := Sweeper.shrinkRange_range clock error wide hspan
  have hle := paced.range_le
  have hmax := paced.ceiling_le
  refine ⟨hpos, Nat.le_refl _, ?_, paced.spanned⟩
  show (s.shrinkRange fromBlock toBlock clock error).range ≤ _
  omega

/-- **The span stays between one block and the configured maximum.** -/
theorem Sweeper.Paced.step (pos : 1 ≤ chain.maxLogRange) (paced : s.Paced chain)
    (h : Paces chain s e s') : s'.Paced chain := by
  obtain ⟨hpos, hle, hmax, hspanned⟩ := paced
  cases h with
  | starts => exact ⟨pos, Nat.le_refl _, Nat.le_refl _, trivial⟩
  | stays _ => exact ⟨hpos, hle, hmax, hspanned⟩
  | leaves hout => exact ⟨hpos, hle, hmax, hout.spanned⟩
  | enters _ => exact ⟨hpos, hle, hmax, spanned_scanFrom ..⟩
  | @scans clock head cursor logs hat =>
      rw [hat] at hspanned
      have hend := Sweeper.chunkEnd_bounds (s := s) hpos
        (show cursor + 1 ≤ chain.target head from hspanned)
      have hshort := hend.2.2
      exact ⟨hpos, hle, hmax, Nat.lt_of_succ_le hend.1, hend.2.1,
        show s.chunkEnd (cursor + 1) (chain.target head) ≤ cursor + chain.maxLogRange by omega⟩
  | @narrows clock head cursor err hat wide =>
      have hcursor := hspanned
      rw [hat] at hcursor
      have hend := Sweeper.chunkEnd_bounds (s := s) hpos
        (show cursor + 1 ≤ chain.target head from hcursor)
      exact Sweeper.Paced.shrinkRange ⟨hpos, hle, hmax, hspanned⟩ clock _ wide hend.2.2
  | @sweeps clock head cursor toBlock logs _ =>
      obtain ⟨hpos', hle', hmax'⟩ := Sweeper.growRange_range clock hpos hle hmax
      exact ⟨hpos', hle', hmax', spanned_scanFrom ..⟩
  | picks _ => exact ⟨hpos, hle, hmax, spanned_ofBatch ..⟩
  | fetches _ => exact ⟨hpos, hle, hmax, spanned_fetchFrom ..⟩
  | @narrowsFetch clock head toBlock next batch logs err hat wide =>
      have hnext := hspanned
      rw [hat] at hnext
      have hend := Sweeper.chunkEnd_bounds (s := s) hpos hnext
      exact Sweeper.Paced.shrinkRange ⟨hpos, hle, hmax, hspanned⟩ clock _ wide hend.2.2

end Span

/-! ## How far a loop can go -/

/-- A bound for the requests that the loop the sweeper is in can still make. -/
def Sweeper.left (chain : ChainSpec) (s : Sweeper) : Nat :=
  match s.phase with
  | .scanning head cursor => (chain.target head - cursor) * chain.maxLogRange + s.range
  | .scanned head _ toBlock _ => (chain.target head - toBlock + 1) * chain.maxLogRange
  | .fetching _ _ toBlock next _ => (toBlock + 1 - next) * chain.maxLogRange + s.range
  | _ => 0

/-- The request that the event answers. -/
def Sweeper.asked (chain : ChainSpec) (s : Sweeper) : Event → List Filter
  | .logs _ _ => (s.request? chain).toList
  | _ => []

section Ends

variable {chain : ChainSpec} {s s' : Sweeper} {e : Event}

theorem mul_add_le_of_lt {a b m r : Nat} (h : a < b) (hr : r ≤ m) : a * m + r ≤ b * m := by
  calc a * m + r ≤ a * m + m := Nat.add_le_add_left hr _
    _ = (a + 1) * m := (Nat.succ_mul a m).symm
    _ ≤ b * m := Nat.mul_le_mul_right m h

/-- Outside the loops there is nothing left to ask. -/
theorem left_of_outside {phase : Phase} (h : phase.Outside) :
    Sweeper.left chain { s with phase } = 0 := by
  cases phase <;> first | rfl | cases h

/-- Only a turn of a loop asks. -/
theorem asked_of_not_turns (h : ¬ e.Turns s.phase) : s.asked chain e = [] := by
  unfold Sweeper.asked Sweeper.request?
  cases e with
  | logs clock reply => cases hphase : s.phase <;> simp_all [Event.Turns]
  | _ => rfl

/-- A step asks at most once. -/
theorem length_asked_le (chain : ChainSpec) (s : Sweeper) (e : Event) : (s.asked chain e).length ≤ 1 := by
  unfold Sweeper.asked
  split
  · cases s.request? chain <;> simp
  · simp

/-- Inside a loop there is something left to ask. -/
theorem left_pos (paced : s.Paced chain) (loops : s.phase.Loops) : 1 ≤ s.left chain := by
  have hpos := paced.range_pos
  have hmax : 1 ≤ chain.maxLogRange := hpos.trans (paced.range_le.trans paced.ceiling_le)
  unfold Sweeper.left
  cases hphase : s.phase with
  | scanning head cursor => exact Nat.le_add_left_of_le hpos
  | scanned head cursor toBlock logs => exact Nat.mul_pos (Nat.succ_pos _) hmax
  | fetching head batch toBlock next logs => exact Nat.le_add_left_of_le hpos
  | _ => simp [hphase, Phase.Loops] at loops

/-- Each answer leaves the loop with fewer requests to make, and nothing
else gives it more. -/
theorem left_step (paced : s.Paced chain) (loops : s.phase.Loops) (h : Paces chain s e s') :
    s'.left chain + (s.asked chain e).length ≤ s.left chain := by
  have hpos := paced.range_pos
  have hrange : s.range ≤ chain.maxLogRange := paced.range_le.trans paced.ceiling_le
  have hspanned := paced.spanned
  have hasked := length_asked_le chain s e
  cases h with
  | starts => exact Nat.zero_le _
  | stays h =>
      rw [asked_of_not_turns h]
      exact Nat.le_refl _
  | leaves hout =>
      rw [left_of_outside hout, Nat.zero_add]
      exact hasked.trans (left_pos paced loops)
  | enters hat => simp [hat, Phase.Loops] at loops
  | @scans clock head cursor logs hat =>
      rw [hat] at hspanned
      have hend := Sweeper.chunkEnd_bounds (s := s) hpos
        (show cursor + 1 ≤ chain.target head from hspanned)
      have hblocks : (chain.target head - s.chunkEnd (cursor + 1) (chain.target head) + 1) *
          chain.maxLogRange ≤ (chain.target head - cursor) * chain.maxLogRange :=
        Nat.mul_le_mul_right _ (by omega)
      simp only [Sweeper.left, hat]
      omega
  | @narrows clock head cursor err hat wide =>
      have hcursor := hspanned
      rw [hat] at hcursor
      have hend := Sweeper.chunkEnd_bounds (s := s) hpos
        (show cursor + 1 ≤ chain.target head from hcursor)
      have hshorter := (Sweeper.shrinkRange_range clock err.message wide hend.2.2).2
      have hphase : ∀ a b, (s.shrinkRange a b clock err.message).phase = .scanning head cursor :=
        fun _ _ => hat
      simp only [Sweeper.left, hat, hphase]
      omega
  | @sweeps clock head cursor toBlock logs hat =>
      have hgrown := Sweeper.growRange_range clock hpos paced.range_le paced.ceiling_le
      have hblocks := mul_add_le_of_lt (Nat.lt_succ_self (chain.target head - toBlock))
        (hgrown.2.1.trans hgrown.2.2)
      simp only [Sweeper.left, Sweeper.asked, hat, List.length_nil, Nat.add_zero,
        ChainSpec.scanFrom]
      by_cases hmore : toBlock < chain.target head
      · simp only [if_pos hmore]
        exact hblocks
      · simp only [if_neg hmore]
        exact Nat.zero_le _
  | picks hat => simp [hat, Phase.Loops] at loops
  | @fetches clock head toBlock next batch logs found hat =>
      rw [hat] at hspanned
      have hend := Sweeper.chunkEnd_bounds (s := s) hpos (show next ≤ toBlock from hspanned)
      have hblocks : (toBlock + 1 - (s.chunkEnd next toBlock + 1)) * chain.maxLogRange + s.range ≤
          (toBlock + 1 - next) * chain.maxLogRange := mul_add_le_of_lt (by omega) hrange
      simp only [Sweeper.left, hat, Phase.fetchFrom]
      by_cases hmore : s.chunkEnd next toBlock + 1 ≤ toBlock
      · simp only [if_pos hmore]
        omega
      · simp only [if_neg hmore]
        omega
  | @narrowsFetch clock head toBlock next batch logs err hat wide =>
      have hnext := hspanned
      rw [hat] at hnext
      have hend := Sweeper.chunkEnd_bounds (s := s) hpos (show next ≤ toBlock from hnext)
      have hshorter := (Sweeper.shrinkRange_range clock err.message wide hend.2.2).2
      have hphase : ∀ a b, (s.shrinkRange a b clock err.message).phase =
          .fetching head batch toBlock next logs := fun _ _ => hat
      simp only [Sweeper.left, hat, hphase]
      omega

end Ends

/-! ## The spans of a loop -/

/-- The blocks `(cursor, toBlock]` that the event hands to `apply_sweep`. -/
def Sweeper.applied (s : Sweeper) : Event → List (Nat × Nat)
  | .proceed _ =>
      match s.phase with
      | .scanned _ cursor toBlock _ => [(cursor, toBlock)]
      | _ => []
  | _ => []

/-- The blocks `[next, end]` of a backfill that the event answers for. -/
def Sweeper.fetched (s : Sweeper) : Event → List (Nat × Nat)
  | .logs _ (.ok _) =>
      match s.phase with
      | .fetching _ _ toBlock next _ => [(next, s.chunkEnd next toBlock)]
      | _ => []
  | _ => []

/-- The sweep that read `head` is in its loop, at `cursor`. -/
def Phase.ScansAt (head cursor : Nat) : Phase → Prop
  | .scanning h c => h = head ∧ c = cursor
  | .scanned h c _ _ => h = head ∧ c = cursor
  | _ => False

/-- The loop over the blocks of a batch up to `toBlock` is at `next`, or done
and past its end. -/
def Phase.FetchesAt (toBlock next : Nat) : Phase → Prop
  | .fetching _ _ b n _ => b = toBlock ∧ n = next
  | .fetched _ _ _ => next = toBlock + 1
  | _ => False

section Tilings

variable {chain : ChainSpec} {s s' : Sweeper} {e : Event}

theorem Phase.Outside.not_loops {phase : Phase} (h : phase.Outside) : ¬ phase.Loops := by
  cases phase <;> first | exact id | cases h

/-- A scan that begins is at the cursor, unless it is over at once. -/
theorem scansAt_scanFrom (head cursor : Nat) :
    (chain.scanFrom head cursor).Outside ∨ (chain.scanFrom head cursor).ScansAt head cursor := by
  unfold ChainSpec.scanFrom
  split
  · exact .inr ⟨rfl, rfl⟩
  · exact .inl trivial

/-- Only a turn of a loop applies a chunk. -/
theorem applied_of_not_turns (h : ¬ e.Turns s.phase) : s.applied e = [] := by
  unfold Sweeper.applied
  cases e with
  | proceed clock => cases hphase : s.phase <;> simp_all [Event.Turns]
  | _ => rfl

/-- What is handed to `apply_sweep` starts at the cursor. -/
theorem tiles_applied {head cursor : Nat} (paced : s.Paced chain)
    (hscan : s.phase.ScansAt head cursor) (e : Event) :
    ∃ b, Tiles Prod.fst Prod.snd cursor (s.applied e) b := by
  have hspanned := paced.spanned
  unfold Sweeper.applied
  cases e with
  | proceed clock =>
      cases hphase : s.phase with
      | scanned h c toBlock logs =>
          rw [hphase] at hscan hspanned
          obtain ⟨-, rfl⟩ := hscan
          exact ⟨toBlock, tiles_singleton (x := (c, toBlock)) hspanned.1⟩
      | _ => exact ⟨cursor, rfl⟩
  | _ => exact ⟨cursor, rfl⟩

/-- A turn of the sweep's loop moves its cursor over what it applies. -/
theorem applied_step {head cursor : Nat} (paced : s.Paced chain)
    (hscan : s.phase.ScansAt head cursor) (h : Paces chain s e s') :
    ∃ cursor', (s'.phase.Outside ∨ s'.phase.ScansAt head cursor') ∧
      Tiles Prod.fst Prod.snd cursor (s.applied e) cursor' := by
  cases h with
  | starts => exact ⟨cursor, .inl trivial, rfl⟩
  | stays h =>
      rw [applied_of_not_turns h]
      exact ⟨cursor, .inr hscan, rfl⟩
  | leaves hout =>
      obtain ⟨b, hb⟩ := tiles_applied paced hscan e
      exact ⟨b, .inl hout, hb⟩
  | scans hat =>
      rw [hat] at hscan
      exact ⟨cursor, .inr hscan, rfl⟩
  | narrows hat wide => exact ⟨cursor, .inr hscan, rfl⟩
  | @sweeps clock h c toBlock logs hat =>
      have hspanned := paced.spanned
      rw [hat] at hscan hspanned
      obtain ⟨rfl, rfl⟩ := hscan
      refine ⟨toBlock, scansAt_scanFrom .., ?_⟩
      simp only [Sweeper.applied, hat]
      exact tiles_singleton (x := (c, toBlock)) hspanned.1
  | enters hat => simp [hat, Phase.ScansAt] at hscan
  | picks hat => simp [hat, Phase.ScansAt] at hscan
  | fetches hat => simp [hat, Phase.ScansAt] at hscan
  | narrowsFetch hat wide => simp [hat, Phase.ScansAt] at hscan

/-- What is handed to `apply_sweep` is short and does not pass the target. -/
theorem applied_bounds {head cursor : Nat} (paced : s.Paced chain)
    (hscan : s.phase.ScansAt head cursor) {x : Nat × Nat} (hx : x ∈ s.applied e) :
    x.2 ≤ chain.target head ∧ x.2 - x.1 ≤ chain.maxLogRange := by
  have hspanned := paced.spanned
  unfold Sweeper.applied at hx
  cases e with
  | proceed clock =>
      cases hphase : s.phase with
      | scanned h c toBlock logs =>
          rw [hphase] at hscan hspanned hx
          obtain ⟨rfl, -⟩ := hscan
          rw [List.mem_singleton.mp hx]
          exact ⟨hspanned.2.1, Nat.sub_le_iff_le_add'.mpr hspanned.2.2⟩
      | _ => simp [hphase] at hx
  | _ => cases hx

/-- Only a turn of a loop fetches a chunk. -/
theorem fetched_of_not_turns (h : ¬ e.Turns s.phase) : s.fetched e = [] := by
  unfold Sweeper.fetched
  cases e with
  | logs clock reply =>
      cases reply with
      | error _ => rfl
      | ok found => cases hphase : s.phase <;> simp_all [Event.Turns]
  | _ => rfl

/-- What one event fetches continues what was fetched. -/
theorem tiles_fetched {toBlock next : Nat} (paced : s.Paced chain)
    (hfetch : s.phase.FetchesAt toBlock next) (e : Event) :
    ∃ b, Tiles Prod.fst (·.2 + 1) next (s.fetched e) b := by
  have hspanned := paced.spanned
  unfold Sweeper.fetched
  split
  · cases hphase : s.phase with
    | fetching head batch b n logs =>
        rw [hphase] at hfetch hspanned
        obtain ⟨-, rfl⟩ := hfetch
        have hend := Sweeper.chunkEnd_bounds (s := s) paced.range_pos hspanned
        exact ⟨_, rfl, Nat.lt_succ_of_le hend.1, rfl⟩
    | _ => exact ⟨next, rfl⟩
  · exact ⟨next, rfl⟩

/-- A fetch that begins is at its first block. -/
theorem fetchesAt_fetchFrom {head toBlock next : Nat} {batch : List PendingBackfill}
    {logs : List Log} (h : next ≤ toBlock + 1) :
    (Phase.fetchFrom head batch toBlock next logs).FetchesAt toBlock next := by
  unfold Phase.fetchFrom
  split
  · exact ⟨rfl, rfl⟩
  · exact Nat.le_antisymm h (by omega)

/-- A turn of the loop over a batch moves on over what it fetched. -/
theorem fetched_step {toBlock next : Nat} (paced : s.Paced chain)
    (hfetch : s.phase.FetchesAt toBlock next) (h : Paces chain s e s') :
    ∃ next', (s'.phase.Outside ∨ s'.phase.FetchesAt toBlock next') ∧
      Tiles Prod.fst (·.2 + 1) next (s.fetched e) next' := by
  cases h with
  | starts => exact ⟨next, .inl trivial, rfl⟩
  | stays h =>
      rw [fetched_of_not_turns h]
      exact ⟨next, .inr hfetch, rfl⟩
  | leaves hout =>
      obtain ⟨b, hb⟩ := tiles_fetched paced hfetch e
      exact ⟨b, .inl hout, hb⟩
  | @fetches clock head b n batch logs found hat =>
      have hspanned := paced.spanned
      rw [hat] at hfetch hspanned
      obtain ⟨rfl, rfl⟩ := hfetch
      have hend := Sweeper.chunkEnd_bounds (s := s) paced.range_pos hspanned
      refine ⟨s.chunkEnd n b + 1, .inr (fetchesAt_fetchFrom (Nat.succ_le_succ hend.2.1)), ?_⟩
      simp only [Sweeper.fetched, hat]
      exact ⟨rfl, Nat.lt_succ_of_le hend.1, rfl⟩
  | narrowsFetch hat wide => exact ⟨next, .inr hfetch, rfl⟩
  | enters hat => simp [hat, Phase.FetchesAt] at hfetch
  | scans hat => simp [hat, Phase.FetchesAt] at hfetch
  | narrows hat wide => simp [hat, Phase.FetchesAt] at hfetch
  | sweeps hat => simp [hat, Phase.FetchesAt] at hfetch
  | picks hat => simp [hat, Phase.FetchesAt] at hfetch

end Tilings

/-! ## Runs -/

/-- A state of an instance, after any events over any databases. -/
def Reached (chain : ChainSpec) (rt : ChainRuntime) : Prop :=
  ∃ clock past, rt = run (resume chain) (.new chain clock) past

/-- The scans from `rt` on tile their ranges and end. -/
structure Scans (chain : ChainSpec) (rt : ChainRuntime) : Prop where
  range : 1 ≤ rt.sweeper.range ∧ rt.sweeper.range ≤ rt.sweeper.ceiling ∧
    rt.sweeper.ceiling ≤ chain.maxLogRange
  /-- The arithmetic of the loops does not wrap. -/
  fits : ∀ block, block < 2 ^ 63 → chain.maxLogRange < 2 ^ 63 →
    block + rt.sweeper.range < 2 ^ 64 ∧ rt.sweeper.range * 2 < 2 ^ 64
  /-- A refusal that is retried, is retried with a shorter span. -/
  retried : ∀ db clock e, (rt.sweeper.request? chain).isSome →
    (resume chain rt (db, .logs clock (.error e))).sweeper.phase = rt.sweeper.phase →
    (resume chain rt (db, .logs clock (.error e))).sweeper.range < rt.sweeper.range
  /-- What a sweep applies, while it is in its loop. -/
  sweep : ∀ head cursor events, rt.sweeper.phase.ScansAt head cursor →
    Along (resume chain) (fun rt _ => rt.sweeper.phase.Loops) rt events →
    (∃ last, Tiles Prod.fst Prod.snd cursor
      (collect (fun rt i => rt.sweeper.applied i.2) (resume chain) rt events) last) ∧
    ∀ x ∈ collect (fun rt i => rt.sweeper.applied i.2) (resume chain) rt events,
      x.2 ≤ chain.target head ∧ x.2 - x.1 ≤ chain.maxLogRange
  /-- What the scan of a batch has fetched, once it is through. -/
  backfill : ∀ head batch first last events,
    (batch.map PendingBackfill.startBlock).min? = some first →
    (batch.map PendingBackfill.backfillTo).max? = some last →
    rt.sweeper.phase = .ofBatch head batch →
    Along (resume chain) (fun rt _ => rt.sweeper.phase.Loops) rt events →
    (∃ h b l, (run (resume chain) rt events).sweeper.phase = .fetched h b l) →
    ∀ block, (collect (fun rt i => rt.sweeper.fetched i.2) (resume chain) rt events).countP
      (fun x => x.1 ≤ block ∧ block ≤ x.2) = if first ≤ block ∧ block ≤ last then 1 else 0
  /-- The requests a loop makes. -/
  ends : ∀ events, Along (resume chain) (fun rt _ => rt.sweeper.phase.Loops) rt events →
    (collect (fun rt i => rt.sweeper.asked chain i.2) (resume chain) rt events).length ≤
      rt.sweeper.left chain

section Runs

variable {chain : ChainSpec} {rt : ChainRuntime}

/-- **Every event keeps the pace.** -/
theorem paced_resume (pos : 1 ≤ chain.maxLogRange) (i : Db × Event)
    (paced : rt.sweeper.Paced chain) : (resume chain rt i).sweeper.Paced chain :=
  paced.step pos (step_paces i.1 i.2)

/-- So it is kept in every reachable state. -/
theorem paced_of_reached (pos : 1 ≤ chain.maxLogRange) (reached : Reached chain rt) :
    rt.sweeper.Paced chain := by
  obtain ⟨clock, past, rfl⟩ := reached
  exact invariant_run (fun rt : ChainRuntime => rt.sweeper.Paced chain)
    (fun rt i => paced_resume pos i)
    (show (Sweeper.start chain clock).Paced chain from
      ⟨pos, Nat.le_refl _, Nat.le_refl _, trivial⟩) past

/-- **A loop asks at most as often as there is left to ask.** -/
theorem left_run (pos : 1 ≤ chain.maxLogRange) (paced : rt.sweeper.Paced chain)
    {events : List (Db × Event)}
    (loops : Along (resume chain) (fun rt _ => rt.sweeper.phase.Loops) rt events) :
    (collect (fun rt i => rt.sweeper.asked chain i.2) (resume chain) rt events).length ≤
      rt.sweeper.left chain := by
  induction events generalizing rt with
  | nil => exact Nat.zero_le _
  | cons i events ih =>
      have hrest := ih (paced_resume pos i paced) loops.2
      have hstep := left_step paced loops.1 (step_paces i.1 i.2)
      rw [collect_cons, List.length_append]
      change (resume chain rt i).sweeper.left chain + _ ≤ _ at hstep
      omega

/-- The sweep's loop applies consecutive spans from its cursor on. -/
theorem sweep_tiles (pos : 1 ≤ chain.maxLogRange) (paced : rt.sweeper.Paced chain)
    {head cursor : Nat} (hscan : rt.sweeper.phase.ScansAt head cursor) {events : List (Db × Event)}
    (loops : Along (resume chain) (fun rt _ => rt.sweeper.phase.Loops) rt events) :
    ∃ last, Tiles Prod.fst Prod.snd cursor
      (collect (fun rt i => rt.sweeper.applied i.2) (resume chain) rt events) last := by
  refine (tiles_along (fun (rt : ChainRuntime) n => rt.sweeper.Paced chain ∧
    (rt.sweeper.phase.Outside ∨ rt.sweeper.phase.ScansAt head n)) ?_ ⟨paced, .inr hscan⟩ loops).imp
    fun _ h => h.2
  rintro rt n i - ⟨paced, hat⟩ hloops
  have hscan := hat.resolve_left fun hout => hout.not_loops hloops
  obtain ⟨n', hat', htiles⟩ := applied_step paced hscan (step_paces i.1 i.2)
  exact ⟨n', ⟨paced_resume pos i paced, hat'⟩, htiles⟩

/-- The chunks of a scan stay at or below the target, and none is wider than the
configured range. -/
theorem sweep_bounds (pos : 1 ≤ chain.maxLogRange) (paced : rt.sweeper.Paced chain)
    {head cursor : Nat} (hscan : rt.sweeper.phase.ScansAt head cursor) {events : List (Db × Event)}
    (loops : Along (resume chain) (fun rt _ => rt.sweeper.phase.Loops) rt events) :
    ∀ x ∈ collect (fun rt i => rt.sweeper.applied i.2) (resume chain) rt events,
      x.2 ≤ chain.target head ∧ x.2 - x.1 ≤ chain.maxLogRange := by
  intro x hx
  obtain ⟨pre, i, post, rfl, hout⟩ := mem_collect hx
  rw [along_append] at loops
  obtain ⟨hpaced, hat⟩ := invariant_along (fun rt : ChainRuntime => rt.sweeper.Paced chain ∧
      (rt.sweeper.phase.Outside ∨ ∃ c, rt.sweeper.phase.ScansAt head c))
    (fun rt i _ ⟨paced, hat⟩ hloops => by
      obtain ⟨c, hc⟩ := hat.resolve_left fun hout => hout.not_loops hloops
      obtain ⟨n', hat', -⟩ := applied_step paced hc (step_paces i.1 i.2)
      exact ⟨paced_resume pos i paced, hat'.imp id fun h => ⟨n', h⟩⟩)
    ⟨paced, .inr ⟨cursor, hscan⟩⟩ loops.1
  obtain ⟨c, hc⟩ := hat.resolve_left fun hout => hout.not_loops loops.2.1
  exact applied_bounds hpaced hc hout

/-- The loop over a batch fetches consecutive spans, up to the end if it
completes. -/
theorem fetch_tiles (pos : 1 ≤ chain.maxLogRange) (paced : rt.sweeper.Paced chain)
    {toBlock next : Nat} (hfetch : rt.sweeper.phase.FetchesAt toBlock next)
    {events : List (Db × Event)}
    (loops : Along (resume chain) (fun rt _ => rt.sweeper.phase.Loops) rt events)
    {h : Nat} {b : List PendingBackfill} {l : List Log}
    (hdone : (run (resume chain) rt events).sweeper.phase = .fetched h b l) :
    Tiles Prod.fst (·.2 + 1) next
      (collect (fun rt i => rt.sweeper.fetched i.2) (resume chain) rt events) (toBlock + 1) := by
  have hstep : ∀ (rt : ChainRuntime) n, ∀ i ∈ events, (rt.sweeper.Paced chain ∧
      (rt.sweeper.phase.Outside ∨ rt.sweeper.phase.FetchesAt toBlock n)) → rt.sweeper.phase.Loops →
      ∃ n', ((resume chain rt i).sweeper.Paced chain ∧ ((resume chain rt i).sweeper.phase.Outside ∨
        (resume chain rt i).sweeper.phase.FetchesAt toBlock n')) ∧
        Tiles Prod.fst (·.2 + 1) n (rt.sweeper.fetched i.2) n' := by
    rintro rt n i - ⟨paced, hat⟩ hloops
    have hfetch := hat.resolve_left fun hout => hout.not_loops hloops
    obtain ⟨n', hat', htiles⟩ := fetched_step paced hfetch (step_paces i.1 i.2)
    exact ⟨n', ⟨paced_resume pos i paced, hat'⟩, htiles⟩
  obtain ⟨last, ⟨-, hat⟩, htiles⟩ := tiles_along _ hstep ⟨paced, .inr hfetch⟩ loops
  rw [hdone] at hat
  rcases hat with hout | hend
  · cases hout
  · rwa [hend] at htiles

/-- **Who asks again for the same chunk asks for less.** -/
theorem range_retried (paced : rt.sweeper.Paced chain) {db : Db} {clock : Nat} {e : RpcError}
    (hasks : (rt.sweeper.request? chain).isSome)
    (hsame : (resume chain rt (db, .logs clock (.error e))).sweeper.phase = rt.sweeper.phase) :
    (resume chain rt (db, .logs clock (.error e))).sweeper.range < rt.sweeper.range := by
  have hpos := paced.range_pos
  have hspanned := paced.spanned
  have hloops : rt.sweeper.phase.Loops ∧ (Event.logs clock (.error e)).Turns rt.sweeper.phase := by
    unfold Sweeper.request? at hasks
    cases hphase : rt.sweeper.phase <;> simp_all [Phase.Loops, Event.Turns]
  have hpaces : Paces chain rt.sweeper _ (resume chain rt (db, .logs clock (.error e))).sweeper :=
    step_paces db (.logs clock (.error e))
  generalize (resume chain rt (db, .logs clock (.error e))).sweeper = s' at hsame hpaces
  cases hpaces with
  | stays h => exact absurd hloops.2 h
  | leaves hout => exact absurd hloops.1 (hsame ▸ hout.not_loops)
  | @narrows _ head cursor _ hat wide =>
      rw [hat] at hspanned
      have hend := Sweeper.chunkEnd_bounds (s := rt.sweeper) hpos
        (show cursor + 1 ≤ chain.target head from hspanned)
      exact (Sweeper.shrinkRange_range clock e.message wide hend.2.2).2
  | @narrowsFetch _ head toBlock next batch logs _ hat wide =>
      rw [hat] at hspanned
      have hend := Sweeper.chunkEnd_bounds (s := rt.sweeper) hpos
        (show next ≤ toBlock from hspanned)
      exact (Sweeper.shrinkRange_range clock e.message wide hend.2.2).2

/-- A batch that is through was fetched block for block, once. -/
theorem batch_partitioned (pos : 1 ≤ chain.maxLogRange) (paced : rt.sweeper.Paced chain)
    {head first last : Nat} {batch : List PendingBackfill}
    (hfirst : (batch.map PendingBackfill.startBlock).min? = some first)
    (hlast : (batch.map PendingBackfill.backfillTo).max? = some last)
    (hphase : rt.sweeper.phase = .ofBatch head batch) {events : List (Db × Event)}
    (loops : Along (resume chain) (fun rt _ => rt.sweeper.phase.Loops) rt events)
    (hdone : ∃ h b l, (run (resume chain) rt events).sweeper.phase = .fetched h b l) (block : Nat) :
    (collect (fun rt i => rt.sweeper.fetched i.2) (resume chain) rt events).countP
      (fun x => x.1 ≤ block ∧ block ≤ x.2) = if first ≤ block ∧ block ≤ last then 1 else 0 := by
  obtain ⟨h, b, l, hdone⟩ := hdone
  simp only [Phase.ofBatch, hfirst, hlast] at hphase
  by_cases hle : first ≤ last
  · have hfetch : rt.sweeper.phase.FetchesAt last first := by
      rw [hphase]
      exact fetchesAt_fetchFrom (Nat.le_succ_of_le hle)
    have hcount := (fetch_tiles pos paced hfetch loops hdone).countP (block + 1)
    simpa only [Nat.lt_succ_iff, Nat.add_le_add_iff_right] using hcount
  · -- nothing to fetch
    rw [Phase.fetchFrom, if_neg hle] at hphase
    cases events with
    | nil =>
        rw [if_neg (by omega)]
        rfl
    | cons i events =>
        have hloops : rt.sweeper.phase.Loops := loops.1
        rw [hphase] at hloops
        cases hloops

end Runs

/-- **Scanning.**  Whatever a provider answers and however time passes, the
span stays between one block and the configured maximum, a retried refusal
shortens it, sweeps and backfills scan their blocks in order and without gap or
overlap, and each of the two loops ends. -/
theorem scans_tile_and_end {chain : ChainSpec} {rt : ChainRuntime} (pos : 1 ≤ chain.maxLogRange)
    (reached : Reached chain rt) : Scans chain rt := by
  have paced := paced_of_reached pos reached
  obtain ⟨hpos, hle, hmax, -⟩ := id paced
  exact
    { range := ⟨hpos, hle, hmax⟩
      fits := fun block hblock hfits => by omega
      retried := fun db clock e => range_retried paced
      sweep := fun head cursor events hscan loops =>
        ⟨sweep_tiles pos paced hscan loops, sweep_bounds pos paced hscan loops⟩
      backfill := fun head batch first last events hfirst hlast hphase loops hdone =>
        batch_partitioned pos paced hfirst hlast hphase loops hdone
      ends := fun events => left_run pos paced }

/-- A watch from block 101 on, at cursor 100. -/
def watchedDb : Db :=
  run exec Db.empty [.ensureCursor baseChain.chainId 100, .createWatch 1 watchOrder]

/-- A sweep at head 110, at its first request. -/
def firstScan : ChainRuntime :=
  run (resume baseChain) (.new baseChain 0)
    [(Db.empty, .bootstrap 100), (watchedDb, .sweep fun _ => false), (watchedDb, .head (.ok 110)),
      (watchedDb, .proceed 0)]

theorem scans_tile_and_end_base :
    firstScan.sweeper.phase.ScansAt 110 100 ∧ firstScan.sweeper.left baseChain = 16000 ∧
      Scans baseChain firstScan :=
  ⟨⟨rfl, rfl⟩, by decide +kernel, scans_tile_and_end (by decide) ⟨0, _, rfl⟩⟩

end GumIndexer
