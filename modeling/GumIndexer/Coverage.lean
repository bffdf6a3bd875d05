import GumIndexer.Accounting
import GumIndexer.Base.Tiling

/-!
# GumIndexer.Coverage

Every block an active watch cares about is scanned for it exactly once.

The cursor of a chain moves in two ways: a sweep scans the blocks
`(expectedCursor, toBlock]` and a fast-forward skips blocks no active watch
cares about.  Read off a run, the moves tile the distance the cursor covers
(`exec_moves`), whoever planned the sweeps and however stale their cursors
were.  Since registration reads the cursor, the blocks up to it are the watch's
backfill and the blocks above it are tiled by later moves, among which a skip
stays below the watch's start block (`forwarded_lt_startBlock`).
-/

namespace GumIndexer

open Base

/-- A move of a cursor over the blocks `(lo, hi]`: a sweep, which scanned
them, or a fast-forward, which skipped them. -/
structure Move where
  scanned : Bool
  lo : Nat
  hi : Nat
deriving DecidableEq, Repr

/-- The block was moved over. -/
def Move.Covers (m : Move) (b : Nat) : Prop := m.lo < b ∧ b ≤ m.hi

instance (m : Move) (b : Nat) : Decidable (m.Covers b) := inferInstanceAs (Decidable (_ ∧ _))

/-- The moves of a chain's cursor in an operation. -/
def movesOf (chainId : Nat) (db : Db) : Op → List Move
  | .applySweep chain cache expectedCursor toBlock logs =>
      match (applySweep db chain cache expectedCursor toBlock logs).2 with
      | .ok (.applied _, _) =>
          if chain.chainId = chainId then [⟨true, expectedCursor, toBlock⟩] else []
      | _ => []
  | .fastForwardCursor id target =>
      match db.cursors.get? id, fastForwardCursor db id target with
      | some cur, .ok (cursor, _) =>
          if id = chainId ∧ cur.confirmedBlock ≠ cursor then [⟨false, cur.confirmedBlock, cursor⟩]
          else []
      | _, _ => []
  | _ => []

/-- The callers' promise: a sweep covers at least one block. -/
def Op.Forward : Op → Prop
  | .applySweep _ _ expectedCursor toBlock _ => expectedCursor < toBlock
  | _ => True

instance : DecidablePred Op.Forward
  | .applySweep _ _ expectedCursor toBlock _ => inferInstanceAs (Decidable (expectedCursor < toBlock))
  | .ensureCursor _ _ => isTrue trivial
  | .createWatch _ _ => isTrue trivial
  | .commitWatch _ _ _ => isTrue trivial
  | .cancelWatch _ => isTrue trivial
  | .expireWatches _ _ _ => isTrue trivial
  | .recordPending _ _ => isTrue trivial
  | .applyBackfill _ _ _ _ => isTrue trivial
  | .fastForwardCursor _ _ => isTrue trivial
  | .tick _ => isTrue trivial
  | .draw _ => isTrue trivial

variable {db db' : Db} {chain : ChainSpec} {a : Act} {op : Op}

/-! ## Who moves the cursor -/

/-- A post leaves the cursors alone. -/
theorem Post.cursors {w w' : Watch} {type : EventType} {view : Option TransferView}
    {transfers : Table Transfer Transfer.key} (h : Post chain db w w' type view transfers db') :
    db'.cursors = db.cursors := by
  obtain ⟨outbox, -, rfl⟩ := h.posted
  rfl

/-- So does counting a match. -/
theorem Counts.cursors {w : Watch} {m : MatchedTransfer} (h : Counts chain db w m db') :
    db'.cursors = db.cursors := by
  obtain ⟨transfers, -, post⟩ := h.step
  exact post.cursors

/-- **Only a move moves a cursor.** -/
theorem Step.cursors (h : Step db a db') (hmove : a ≠ .moveCursor) : db'.cursors = db.cursors := by
  cases h with
  | register _ _ _ _ _ => rfl
  | cancel _ _ => rfl
  | expire _ post => exact post.cursors
  | announce _ _ _ post => exact post.cursors
  | count counts _ => exact counts.cursors
  | complete counts _ post => exact post.cursors.trans counts.cursors
  | ignore _ _ => rfl
  | orphanRetired _ _ _ => rfl
  | orphan _ _ _ _ _ _ post => exact post.cursors
  | clearBackfill _ => rfl
  | moveCursor _ _ _ _ => exact absurd rfl hmove
  | other _ _ _ cursors _ => exact cursors

/-- The same for a trace. -/
theorem Trace.cursors {acts : List Act} (h : Trace Step db acts db')
    (hmove : ∀ a ∈ acts, a ≠ .moveCursor) : db'.cursors = db.cursors :=
  h.invariant_mem (fun d => d.cursors = db.cursors)
    (fun _ a _ ha hstep heq => (hstep.cursors (hmove a ha)).trans heq) rfl

/-- Sweeps, fast-forwards and the first cursor apart, operations leave the
cursors alone. -/
theorem exec_cursors (h : ¬ op.Allows db .moveCursor) : (exec db op).cursors = db.cursors := by
  obtain ⟨acts, htr, -, hallow⟩ := exec_trace db op
  refine Trace.cursors htr fun a ha heq => h ?_
  rw [← heq]
  exact hallow a ha

/-- The transaction of a sweep moves the cursor at its end only. -/
theorem sweepTx_cursors {cache : WatchCache} {discovered : List WatchKey} {toBlock : Nat}
    {logs : List Log} {tx : SweepTx} (h : sweepTx db chain cache discovered toBlock logs = .ok tx) :
    tx.db.cursors = db.cursors := by
  obtain ⟨mid, cs, -, -, htr, htr'⟩ := sweepTx_trace h
  refine Trace.cursors (htr.append htr') fun a ha => ?_
  rcases List.mem_append.mp ha with ha | ha
  · obtain ⟨m, -, rfl⟩ := List.mem_map.mp ha
    exact Act.noConfusion
  · obtain ⟨t, -, rfl⟩ := List.mem_map.mp ha
    rcases resolveAct_cases _ t with h | h <;> rw [h] <;> exact Act.noConfusion

/-! ## The moves tile the way of the cursor -/

/-- The cursor of the chain is at `k`. -/
def Db.CursorAt (db : Db) (chainId k : Nat) : Prop := db.cursors.get? chainId = some ⟨chainId, k⟩

instance (db : Db) (chainId k : Nat) : Decidable (db.CursorAt chainId k) :=
  inferInstanceAs (Decidable (_ = _))

/-- The cursor is where it was set. -/
theorem Db.cursorAt_setCursor {db : Db} {c k : Nat} (h : db.CursorAt c k) (toBlock : Nat) :
    (setCursor db c toBlock).CursorAt c toBlock :=
  Table.get?_replace_self (t := db.cursors) (a := ⟨c, toBlock⟩) h

/-- The cursors of other chains stay. -/
theorem Db.cursorAt_setCursor_of_ne {db : Db} {c c' k : Nat} (h : db.CursorAt c k) (hne : c' ≠ c)
    (toBlock : Nat) : (setCursor db c' toBlock).CursorAt c k :=
  (Table.get?_replace_of_ne (a := (⟨c', toBlock⟩ : Cursor)) hne).trans h

/-- A chain has one cursor. -/
theorem Db.CursorAt.unique {db : Db} {c k k' : Nat} (h : db.CursorAt c k) (h' : db.CursorAt c k') :
    k = k' := by
  have heq : some (⟨c, k⟩ : Cursor) = some ⟨c, k'⟩ := h.symm.trans h'
  exact congrArg Cursor.confirmedBlock (Option.some.inj heq)

/-- A sweep's transaction does not move the cursor. -/
theorem sweepTx_cursorAt {c k : Nat} {cache : WatchCache} {discovered : List WatchKey} {toBlock : Nat}
    {logs : List Log} {tx : SweepTx} {db' : Db}
    (h : sweepTx db chain cache discovered toBlock logs = .ok tx)
    (hflush : flushStats chain tx = .ok db') (hat : db.CursorAt c k) : db'.CursorAt c k := by
  obtain ⟨stats, rfl⟩ := flushStats_frame hflush
  exact (congrArg (Table.get? · c) (sweepTx_cursors h)).trans hat

/-- The sweep from the cursor, if its loops succeed and the flush fails. -/
theorem applySweep_of_flush_error {cache : WatchCache} {cursor toBlock : Nat} {logs : List Log}
    {tx : SweepTx} {e : StoreError} (hat : db.CursorAt chain.chainId cursor)
    (htx : sweepTx db chain (deltaLoad db chain cache).1 (deltaLoad db chain cache).2 toBlock logs =
      .ok tx)
    (hflush : flushStats chain tx = .error e) :
    applySweep db chain cache cursor toBlock logs = ((deltaLoad db chain cache).1, .error e) := by
  unfold applySweep
  rw [hat]
  simp only [ne_eq, not_true_eq_false, if_false, sweepRest, htx, bind, Except.bind, hflush]

/-- The sweep from anywhere else. -/
theorem applySweep_of_ne {cursor expected : Nat} (hat : db.CursorAt chain.chainId cursor)
    (hne : expected ≠ cursor) (cache : WatchCache) (toBlock : Nat) (logs : List Log) :
    applySweep db chain cache expected toBlock logs =
      (cache, .ok (.cursorMoved expected cursor, db)) := by
  unfold applySweep
  rw [hat]
  simp only [ne_eq, Ne.symm hne, not_false_eq_true, if_true]

/-- The sweep from the cursor, if its loops and the flush succeed. -/
theorem applySweep_of_ok {cache : WatchCache} {cursor toBlock : Nat} {logs : List Log} {tx : SweepTx}
    {db' : Db} (hat : db.CursorAt chain.chainId cursor)
    (htx : sweepTx db chain (deltaLoad db chain cache).1 (deltaLoad db chain cache).2 toBlock logs =
      .ok tx)
    (hflush : flushStats chain tx = .ok db') :
    applySweep db chain cache cursor toBlock logs =
      (evictCompleted (deltaLoad db chain cache).1 tx.out,
        .ok (.applied tx.out, setCursor db' chain.chainId toBlock)) := by
  unfold applySweep
  rw [hat]
  simp only [ne_eq, not_true_eq_false, if_false, sweepRest, htx, bind, Except.bind, hflush]
  rfl

/-- What a sweep that was applied did. -/
theorem applySweep_applied {cache : WatchCache} {expectedCursor toBlock : Nat} {logs : List Log}
    {out : SweepOutcome} {db' : Db}
    (h : (applySweep db chain cache expectedCursor toBlock logs).2 = .ok (.applied out, db')) :
    ∃ tx db₁, db.CursorAt chain.chainId expectedCursor ∧
      sweepTx db chain (deltaLoad db chain cache).1 (deltaLoad db chain cache).2 toBlock logs = .ok tx ∧
      flushStats chain tx = .ok db₁ ∧ out = tx.out ∧ db' = setCursor db₁ chain.chainId toBlock := by
  rcases applySweep_cases db chain cache expectedCursor toBlock logs with
    ⟨tx, db₁, hcur, htx, hflush, he⟩ | ⟨actual, -, he⟩ | he | ⟨e, -, he⟩
  · rw [he] at h
    cases h
    exact ⟨tx, db₁, hcur, htx, hflush, rfl, rfl⟩
  all_goals
    rw [he] at h
    cases h

/-- A sweep moves the cursor of its chain over the range it scanned, or not at
all. -/
theorem applySweep_moves {c k : Nat} {cache : WatchCache} {expectedCursor toBlock : Nat}
    {logs : List Log} (hf : expectedCursor < toBlock) (h : db.CursorAt c k) :
    ∃ k', (exec db (.applySweep chain cache expectedCursor toBlock logs)).CursorAt c k' ∧
      Tiles Move.lo Move.hi k
        (movesOf c db (.applySweep chain cache expectedCursor toBlock logs)) k' := by
  simp only [exec, movesOf]
  rcases applySweep_cases db chain cache expectedCursor toBlock logs with
    ⟨tx, db', hcur, htx, hflush, he⟩ | ⟨actual, -, he⟩ | he | ⟨e, -, he⟩
  · have hat := sweepTx_cursorAt htx hflush h
    simp only [he, committed]
    by_cases hc : chain.chainId = c
    · subst hc
      obtain rfl := h.unique hcur
      rw [if_pos rfl]
      exact ⟨toBlock, Db.cursorAt_setCursor hat toBlock,
        tiles_singleton (x := (⟨true, k, toBlock⟩ : Move)) hf⟩
    · rw [if_neg hc]
      exact ⟨k, Db.cursorAt_setCursor_of_ne hat hc toBlock, tiles_nil⟩
  all_goals
    simp only [he, committed]
    exact ⟨k, h, tiles_nil⟩

/-- A fast-forward never goes back. -/
theorem le_forwarded (db : Db) (c cursor target : Nat) : cursor ≤ forwarded db c cursor target := by
  unfold forwarded
  simp only
  split
  · exact Nat.le_refl _
  · exact Nat.le_max_left _ _

/-- A fast-forward moves the cursor over the range it skips. -/
theorem fastForwardCursor_moves {c c' k target : Nat} (h : db.CursorAt c k) :
    ∃ k', (exec db (.fastForwardCursor c' target)).CursorAt c k' ∧
      Tiles Move.lo Move.hi k (movesOf c db (.fastForwardCursor c' target)) k' := by
  simp only [exec, movesOf, fastForwardCursor]
  cases hcur : db.cursors.get? c' with
  | none => exact ⟨k, h, tiles_nil⟩
  | some cur =>
      simp only [committed]
      have hle := le_forwarded db c' cur.confirmedBlock target
      by_cases hc : c' = c
      · subst hc
        obtain rfl : cur = ⟨c', k⟩ := Option.some.inj (hcur.symm.trans h)
        simp only [true_and] at hle ⊢
        by_cases hne : k = forwarded db c' k target
        · rw [if_neg (fun hn => hn hne.symm), if_neg (fun hn => hn hne)]
          exact ⟨k, h, tiles_nil⟩
        · rw [if_pos (Ne.symm hne), if_pos hne]
          exact ⟨_, Db.cursorAt_setCursor h _,
            tiles_singleton (x := (⟨false, k, forwarded db c' k target⟩ : Move)) (by
              change k < forwarded db c' k target
              omega)⟩
      · refine ⟨k, ?_, ?_⟩
        · split
          · exact Db.cursorAt_setCursor_of_ne h hc _
          · exact h
        · rw [if_neg fun hn => hc hn.1]
          exact tiles_nil

/-- **An operation moves the cursor over exactly the blocks of its moves.** -/
theorem exec_moves {c k : Nat} (hf : op.Forward) (h : db.CursorAt c k) :
    ∃ k', (exec db op).CursorAt c k' ∧ Tiles Move.lo Move.hi k (movesOf c db op) k' := by
  have hkeep : ¬ op.Allows db .moveCursor → (exec db op).CursorAt c k := by
    intro hno
    rw [Db.CursorAt, exec_cursors hno]
    exact h
  cases op with
  | ensureCursor c' head =>
      refine ⟨k, ?_, tiles_nil⟩
      simp only [exec, ensureCursor]
      cases hcur : db.cursors.get? c' with
      | some cur => exact h
      | none =>
          have hne : c' ≠ c := by
            rintro rfl
            rw [h] at hcur
            contradiction
          simp only [Db.CursorAt, Table.get?_upsert, if_neg hne]
          exact h
  | applySweep chain cache expectedCursor toBlock logs => exact applySweep_moves hf h
  | fastForwardCursor c' target => exact fastForwardCursor_moves h
  | createWatch _ _ => exact ⟨k, hkeep id, tiles_nil⟩
  | commitWatch _ _ _ => exact ⟨k, hkeep id, tiles_nil⟩
  | cancelWatch _ => exact ⟨k, hkeep id, tiles_nil⟩
  | expireWatches _ _ _ => exact ⟨k, hkeep id, tiles_nil⟩
  | recordPending _ _ => exact ⟨k, hkeep id, tiles_nil⟩
  | applyBackfill _ _ _ _ => exact ⟨k, hkeep id, tiles_nil⟩
  | tick _ => exact ⟨k, hkeep id, tiles_nil⟩
  | draw _ => exact ⟨k, hkeep id, tiles_nil⟩

/-- The cursor of the chain is at `b` or above. -/
def Db.Passed (db : Db) (chainId b : Nat) : Prop := ∃ k, db.CursorAt chainId k ∧ b ≤ k

/-- A block the cursor has passed stays passed over an operation. -/
theorem Db.Passed.exec {c b : Nat} {op : Op} (inv : db.Passed c b) (h : op.Forward) :
    (exec db op).Passed c b := by
  obtain ⟨k, hk, hb⟩ := inv
  obtain ⟨k', hk', htiles⟩ := exec_moves h hk
  exact ⟨k', hk', hb.trans htiles.le⟩

/-- The same over a run. -/
theorem Db.Passed.run {c b : Nat} {ops : List Op} (inv : db.Passed c b)
    (h : ∀ op ∈ ops, op.Forward) : (Base.run GumIndexer.exec db ops).Passed c b :=
  invariant_mem (Db.Passed · c b) (fun _ op hop hd => hd.exec (h op hop)) inv

/-! ## Where a watch comes from -/

/-- **The only operation that adds a watch is its registration**, which reads
the cursor. -/
theorem exec_new_watch {id : Uuid} {w : Watch} (hnone : db.watches.get? id = none)
    (hw : (exec db op).watches.get? id = some w) :
    ∃ new seq cur, db.CursorAt new.chainId cur ∧ w = new.row id seq cur db.now ∧
      Registers db id new seq (.created (.ofWatch w)) (exec db op) op := by
  by_cases hop : ∃ id' new, op.Creates id' new
  · obtain ⟨id', new, hcreates⟩ := hop
    rcases exec_creates hcreates db with heq | ⟨seq, out, hreg⟩
    · rw [heq, hnone] at hw
      contradiction
    · rcases hreg.cases with ⟨⟨c, k⟩, hcur, rfl, hstep⟩ | ⟨-, n, heq⟩
      · have hrow := hstep.new_watch hnone hw
        injection hrow with hrow
        obtain rfl : c = new.chainId := Table.key_of_get? hcur
        obtain rfl : id' = id := by
          have hid := Table.key_of_get? hw
          rw [← hrow] at hid
          exact hid
        exact ⟨new, seq, k, hcur, hrow.symm, by rw [← hrow]; exact hreg⟩
      · rw [heq] at hw
        have hsome := hnone.symm.trans hw
        contradiction
  · obtain ⟨acts, htr, -, hallow⟩ := exec_trace db op
    have hstill : (exec db op).watches.get? id = none := by
      refine htr.invariant_mem (fun d => d.watches.get? id = none) (fun d a d' ha hstep hd => ?_) hnone
      cases hg : d'.watches.get? id with
      | none => rfl
      | some u =>
          have hallowed := hallow a ha
          rw [hstep.new_watch hd hg] at hallowed
          exact absurd hallowed.of_register hop
    rw [hstill] at hw
    contradiction

/-- A watch of a reachable database was registered on the way. -/
theorem exists_registration {ops : List Op} {w : Watch}
    (hw : (run exec Db.empty ops).watches.get? w.id = some w) :
    ∃ pre op post new seq cur row, ops = pre ++ op :: post ∧
      (run exec Db.empty pre).CursorAt new.chainId cur ∧
      row = new.row w.id seq cur (run exec Db.empty pre).now ∧
      Registers (run exec Db.empty pre) w.id new seq (.created (.ofWatch row))
        (exec (run exec Db.empty pre) op) op ∧
      (exec (run exec Db.empty pre) op).watches.get? w.id = some row := by
  have hfirst : ∃ pre op post, ops = pre ++ op :: post ∧
      (¬ ∃ u, (run exec Db.empty pre).watches.get? w.id = some u) ∧
      ∃ u, (exec (run exec Db.empty pre) op).watches.get? w.id = some u :=
    exists_first (P := fun d : Db => ∃ u, d.watches.get? w.id = some u) (by simp [Db.empty]) ⟨w, hw⟩
  obtain ⟨pre, op, post, hops, hbefore, hafter⟩ := hfirst
  obtain ⟨row, hrow⟩ := hafter
  have hnone : (run exec Db.empty pre).watches.get? w.id = none := by
    cases hg : (run exec Db.empty pre).watches.get? w.id with
    | none => rfl
    | some u => exact absurd ⟨u, hg⟩ hbefore
  obtain ⟨new, seq, cur, hcur, heq, hreg⟩ := exec_new_watch hnone hrow
  exact ⟨pre, op, post, new, seq, cur, row, hops, hcur, heq, hreg, hrow⟩

/-- No watch starts at the genesis block. -/
theorem startBlock_pos (cursor head lookback : Nat) : 1 ≤ startBlock cursor head lookback := by
  unfold startBlock
  simp only
  split <;> omega

/-! ## Skipped blocks -/

/-- **A fast-forward stays below the start block of every active watch.** -/
theorem forwarded_lt_startBlock {w : Watch} {cursor target : Nat} (hw : w ∈ db.watches.rows)
    (active : w.status = .active) (pos : 1 ≤ w.startBlock)
    (hne : cursor ≠ forwarded db w.chainId cursor target) :
    forwarded db w.chainId cursor target < w.startBlock := by
  have hmem : w.startBlock ∈ (db.watches.rows.filter fun u =>
      u.chainId = w.chainId ∧ u.status = .active).map Watch.startBlock := by
    refine List.mem_map_of_mem (List.mem_filter.mpr ⟨hw, ?_⟩)
    simpa using active
  unfold forwarded minActiveStartBlock at hne ⊢
  cases hmin : ((db.watches.rows.filter fun u =>
      u.chainId = w.chainId ∧ u.status = .active).map Watch.startBlock).min? with
  | none =>
      rw [List.min?_eq_none_iff.mp hmin] at hmem
      cases hmem
  | some start =>
      have hle := (List.min?_eq_some_iff.mp hmin).2 _ hmem
      simp only [hmin] at hne ⊢
      by_cases hp : hasPending db w.chainId = true
      · rw [if_pos hp] at hne
        exact absurd rfl hne
      · rw [if_neg hp] at hne ⊢
        omega

/-- **A fast-forward skips no block of an active watch.** -/
theorem skip_lt_startBlock {w : Watch} {m : Move} (hw : w ∈ db.watches.rows)
    (active : w.status = .active) (pos : 1 ≤ w.startBlock) (hm : m ∈ movesOf w.chainId db op)
    (skip : m.scanned = false) : m.hi < w.startBlock := by
  unfold movesOf at hm
  split at hm
  · split at hm
    · split at hm
      · rw [List.mem_singleton.mp hm] at skip
        contradiction
      · cases hm
    · cases hm
  · split at hm
    · next cur cursor db' hcur hff =>
        split at hm
        · next hif =>
            rw [List.mem_singleton.mp hm]
            obtain ⟨rfl, hne⟩ := hif
            simp only [fastForwardCursor, hcur, Except.ok.injEq, Prod.mk.injEq] at hff
            rw [← hff.1] at hne ⊢
            exact forwarded_lt_startBlock hw active pos hne
        · cases hm
    · cases hm
  · cases hm

/-- The moves of a run after which the watch is still active skip nothing from
its start block on. -/
theorem covers_scanned {w w' : Watch} {m : Move} {ops : List Op} {b : Nat}
    (hw : db.watches.get? w.id = some w) (hw' : (run exec db ops).watches.get? w.id = some w')
    (active : w'.status = .active) (pos : 1 ≤ w.startBlock) (hb : w.startBlock ≤ b)
    (hm : m ∈ collect (movesOf w.chainId) exec db ops) (hcov : m.Covers b) : m.scanned = true := by
  obtain ⟨pre, op, post, rfl, hmove⟩ := mem_collect hm
  obtain ⟨u, hu, hlater⟩ := (Db.Retains.of_get? hw).run pre
  have hsame := hlater.same
  have hu' : (run exec db pre).watches.get? u.id = some u := by rw [hsame.id]; exact hu
  -- the watch is active at the end, so it was active when the move was made
  have hactive : u.status = .active := by
    obtain ⟨v, hv, hlater'⟩ := (Db.Retains.of_get? hu').run (op :: post)
    rw [hsame.id, ← run_append, hw'] at hv
    exact hlater'.active (Option.some.inj hv ▸ active)
  by_contra hskip
  rw [← hsame.chainId] at hmove
  have hlt := skip_lt_startBlock (Table.mem_of_get? hu) hactive (by rw [hsame.startBlock]; exact pos)
    hmove (by simpa using hskip)
  have hhi := hcov.2
  rw [hsame.startBlock] at hlt
  omega

/-! ## The result -/

/-- What registration recorded: a backfill up to the cursor, if the watch
starts at or below it. -/
theorem NewWatch.backfillTo_any (new : NewWatch) (id : Uuid) (seq now : Nat) {cursor b : Nat}
    (hb : (new.row id seq cursor now).startBlock ≤ b) :
    (new.row id seq cursor now).backfillTo.any (fun upTo => b ≤ upTo) = true ↔ b ≤ cursor := by
  change (if (new.row id seq cursor now).startBlock ≤ cursor then some cursor else none).any _ =
    true ↔ _
  by_cases hle : (new.row id seq cursor now).startBlock ≤ cursor
  · simp [hle]
  · simp only [if_neg hle, Option.any_none, Bool.false_eq_true, false_iff]
    omega

/-- The moves since a registration, for a watch that is still active. -/
theorem scanned_once_since {new : NewWatch} {id : Uuid} {seq k now : Nat} {row w : Watch}
    {ops : List Op} (hrow : row = new.row id seq k now) (registered : db.watches.get? row.id = some row)
    (hat : db.CursorAt row.chainId k) (forward : ∀ op ∈ ops, op.Forward)
    (hw : (run exec db ops).watches.get? row.id = some w) (active : w.status = .active) :
    ∃ cursor, (run exec db ops).CursorAt row.chainId cursor ∧
      ∀ b, row.startBlock ≤ b → b ≤ cursor →
        (∀ m ∈ collect (movesOf row.chainId) exec db ops, m.Covers b → m.scanned = true) ∧
        (collect (movesOf row.chainId) exec db ops).countP
          (fun m => m.Covers b ∧ m.scanned = true) =
            if row.backfillTo.any (fun upTo => b ≤ upTo) then 0 else 1 := by
  have hway : ∃ cursor, (run exec db ops).CursorAt row.chainId cursor ∧
      Tiles Move.lo Move.hi k (collect (movesOf row.chainId) exec db ops) cursor :=
    tiles_collect (fun (d : Db) k => d.CursorAt row.chainId k)
      (fun d k op hop hk => exec_moves (forward op hop) hk) hat
  obtain ⟨cursor, hend, htiles⟩ := hway
  refine ⟨cursor, hend, fun b hb hle => ?_⟩
  have hscan : ∀ m ∈ collect (movesOf row.chainId) exec db ops, m.Covers b → m.scanned = true :=
    fun m hm => covers_scanned registered hw active (by rw [hrow]; exact startBlock_pos _ _ _) hb hm
  refine ⟨hscan, ?_⟩
  have hcount : (collect (movesOf row.chainId) exec db ops).countP
      (fun m => m.Covers b ∧ m.scanned = true) =
        (collect (movesOf row.chainId) exec db ops).countP (fun m => m.lo < b ∧ b ≤ m.hi) := by
    refine List.countP_congr fun m hm => ?_
    simp only [decide_eq_true_eq]
    exact ⟨fun h => h.1, fun h => ⟨h, hscan m hm h⟩⟩
  rw [hcount, htiles.countP b]
  have hany : row.backfillTo.any (fun upTo => b ≤ upTo) = true ↔ b ≤ k := by
    rw [hrow] at hb ⊢
    exact NewWatch.backfillTo_any new id seq now hb
  by_cases hbk : b ≤ k
  · rw [if_pos (hany.mpr hbk), if_neg (by omega)]
  · rw [if_neg (mt hany.mp hbk), if_pos (by omega)]

/-- **Block coverage.**  In a run whose sweeps all plan at least one block,
for every watch active at its end: the watch was committed by a
`create_watch` of the run, and since then the moves of its chain's cursor
cover a block from its start block up to the cursor only by scanning it,
exactly once if the block lies above the backfill recorded at registration and
never if it lies in it.  And no such operation ever moves a cursor back. -/
theorem blocks_scanned_once (ops : List Op) (forward : ∀ op ∈ ops, op.Forward) :
    (∀ w ∈ (run exec Db.empty ops).watches.rows, w.status = .active →
      ∃ pre op post new seq row committed cursor, ops = pre ++ op :: post ∧
        Registers (run exec Db.empty pre) w.id new seq (.created row) committed op ∧
        row.startBlock = w.startBlock ∧
        run exec Db.empty ops = run exec committed post ∧
        (run exec Db.empty ops).CursorAt w.chainId cursor ∧
        ∀ b, w.startBlock ≤ b → b ≤ cursor →
          (∀ m ∈ collect (movesOf w.chainId) exec committed post,
            m.Covers b → m.scanned = true) ∧
          (collect (movesOf w.chainId) exec committed post).countP
            (fun m => m.Covers b ∧ m.scanned = true) =
              if row.backfillTo.any (fun upTo => b ≤ upTo) then 0 else 1) ∧
      ∀ op, op.Forward → ∀ c k, (run exec Db.empty ops).CursorAt c k →
        ∃ k', (exec (run exec Db.empty ops) op).CursorAt c k' ∧ k ≤ k' := by
  refine ⟨fun w hw active => ?_, fun op hf c k hat => ?_⟩
  · have hget := Table.get?_of_mem hw
    obtain ⟨pre, op, post, new, seq, k, row, rfl, hcur, hrow, hcreate, hreg⟩ :=
      exists_registration hget
    have hid : row.id = w.id := Table.key_of_get? hreg
    have hreg' : (exec (run exec Db.empty pre) op).watches.get? row.id = some row := by
      rw [hid]
      exact hreg
    have hpost : ∀ op ∈ post, op.Forward := fun op hop => forward op (by simp [hop])
    rw [run_append, run_cons] at hget ⊢
    obtain ⟨w', hw', hlater⟩ := (Db.Retains.of_get? hreg').run post
    rw [hid, hget] at hw'
    obtain rfl := Option.some.inj hw'
    have hsame := hlater.same
    -- registration leaves the cursor where it read it
    have hat : (exec (run exec Db.empty pre) op).CursorAt row.chainId k := by
      rw [Db.CursorAt, exec_cursors hcreate.not_moves, hrow]
      exact hcur
    obtain ⟨cursor, hend, hblocks⟩ :=
      scanned_once_since hrow hreg' hat hpost (by rw [hid]; exact hget) active
    rw [← hsame.chainId, ← hsame.startBlock] at hblocks
    exact ⟨pre, op, post, new, seq, .ofWatch row, _, cursor, rfl, hcreate, hsame.startBlock.symm, rfl,
      by rw [hsame.chainId]; exact hend, hblocks⟩
  · obtain ⟨k', hk', htiles⟩ := exec_moves hf hat
    exact ⟨k', hk', htiles.le⟩

/-- A watch registered at head 150 with a lookback of 20 blocks, and the sweep
of the next two blocks. -/
def lateRegistration : List Op :=
  [.ensureCursor baseChain.chainId 100, .fastForwardCursor baseChain.chainId 150,
    .createWatch 1 { watchOrder with headEstimate := 150, lookbackBlocks := 20 },
    .applySweep baseChain .new 150 152 []]

theorem blocks_scanned_once_late :
    ∃ w ∈ (run exec Db.empty lateRegistration).watches.rows,
      w.status = .active ∧ w.startBlock = 130 ∧
      ∃ pre op post new seq row committed, lateRegistration = pre ++ op :: post ∧
        Registers (run exec Db.empty pre) w.id new seq (.created row) committed op ∧
        (collect (movesOf w.chainId) exec committed post).countP
          (fun m => m.Covers 152 ∧ m.scanned = true) =
            if row.backfillTo.any (fun upTo => 152 ≤ upTo) then 0 else 1 := by
  have hrow : ((run exec Db.empty lateRegistration).watches.get? 1).map
      (fun w => (w.status, w.startBlock, w.chainId)) = some (.active, 130, baseChain.chainId) := by
    decide +kernel
  have hcursor : (run exec Db.empty lateRegistration).CursorAt baseChain.chainId 152 := by
    unfold Db.CursorAt
    decide +kernel
  obtain ⟨w, hw, heq⟩ := Option.map_eq_some_iff.mp hrow
  simp only [Prod.mk.injEq] at heq
  have hmem := Table.mem_of_get? hw
  obtain ⟨pre, op, post, new, seq, row, committed, cursor, hops, hcreate, -, -, hat, hblocks⟩ :=
    (blocks_scanned_once lateRegistration (by decide)).1 w hmem heq.1
  rw [heq.2.2] at hat
  obtain rfl := hat.unique hcursor
  exact ⟨w, hmem, heq.1, heq.2.1, pre, op, post, new, seq, row, committed, hops, hcreate,
    (hblocks 152 (by omega) (Nat.le_refl _)).2⟩

/-- The fast-forward that brought the cursor to 150 did skip blocks of the
backfill that was recorded afterwards. -/
theorem backfill_skipped_before :
    ∃ ops : List Op, (∀ op ∈ ops, op.Forward) ∧
      ∃ w ∈ (run exec Db.empty ops).watches.rows, w.status = .active ∧
        ∃ cursor, (run exec Db.empty ops).CursorAt w.chainId cursor ∧
          ∃ b, w.startBlock ≤ b ∧ b ≤ cursor ∧
            ∃ m ∈ collect (movesOf w.chainId) exec Db.empty ops,
              m.scanned = false ∧ m.Covers b := by
  refine ⟨lateRegistration, by decide, ?_⟩
  have hrow : ((run exec Db.empty lateRegistration).watches.get? 1).map
      (fun w => (w.status, w.startBlock, w.chainId)) = some (.active, 130, baseChain.chainId) := by
    decide +kernel
  obtain ⟨w, hw, heq⟩ := Option.map_eq_some_iff.mp hrow
  simp only [Prod.mk.injEq] at heq
  refine ⟨w, Table.mem_of_get? hw, heq.1, 152, ?_, 140, by omega, by omega, ?_⟩
  · rw [heq.2.2, Db.CursorAt]
    decide +kernel
  · rw [heq.2.2]
    exact ⟨⟨false, 100, 150⟩, by decide +kernel, rfl, by decide⟩

end GumIndexer
