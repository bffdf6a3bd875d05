import GumIndexer.Orphans
import GumIndexer.Settlement
import GumIndexer.Spans
import Mathlib.Data.List.Dedup

/-!
# GumIndexer.Schedule

When the sweeper sweeps.

`sweeper::run` is a loop around `Sweeper::sweep`.  Between two sweeps it waits
for a trigger of the head path, for the time at which the oldest announced
transfer should have reached its depth (`due`), or for its tick.  What it has
to come back for is in `pending_blocks`, which is read from the database once,
at the start, and kept up to date by messages: `handle_log` sends the block of
a transfer after it has recorded it.

`SweepTask` is the instance of `GumIndexer.Sweeper` with what the loop keeps,
the channel, and the triggers that were recorded but not sent yet.  Everything
else that runs meanwhile is in its events too: the API and the other instances
write the database and the cache, the process is restarted, time passes.

`pending_scheduled` says that no announcement falls through: what is pending
above the durable cursor is known to the loop or on its way to it, and a loop
that waits with blocks to come back for has set its alarm.
`passed_not_pending` is the other half, over the database alone: the cursor
never moves past a transfer that stays pending.
-/

namespace GumIndexer

open Base

/-! ## The loop -/

/-- `SweepTrigger`; the reason to sweep at once is a label of metrics. -/
inductive SweepTrigger
  | now
  /-- A transfer was seen at head in `block`. -/
  | pendingAt (block : Nat)
deriving DecidableEq, Repr

/-- The settings of a chain that time its sweeps. -/
structure SweepTimers where
  expectedBlockTimeMs : Nat
  safetySweepIntervalMs : Nat
  idleProbeIntervalMs : Nat
deriving DecidableEq, Repr

/-- `block_time`, in microseconds as all instants and durations here. -/
def SweepTimers.blockTime (timers : SweepTimers) : Nat := max timers.expectedBlockTimeMs 1 * 1000

/-- `depth_delay`: the number of blocks is cut to 32 bits. -/
def SweepTimers.depthDelay (timers : SweepTimers) (blocks : Nat) : Nat :=
  timers.blockTime * (max blocks 1 % 2 ^ 32) + max (timers.blockTime / 4) 50000

/-- What a loop waits before it sweeps again after an error: 2 s. -/
def retryDelay : Nat := 2000000

/-- `pending_blocks` of the store. -/
def pendingBlocks (db : Db) (chainId : Nat) : List Nat :=
  ((db.transfers.rows.filter fun t => t.chainId = chainId ∧ t.status = .pending).map
    Transfer.blockNumber).dedup

/-- How a transaction ends for its caller. -/
inductive Outcome
  | answered
  /-- The connection is gone; the transaction may have been committed. -/
  | lost (kept : Bool)
deriving DecidableEq, Repr

/-- `handle_log`: what it does to the database, and the trigger it sends
then. -/
def handleLog (chain : ChainSpec) (db : Db) (cache : WatchCache) (log : Log) (outcome : Outcome) :
    Db × Option SweepTrigger :=
  match matchLog chain cache log with
  | .error _ => (db, none)
  | .ok m =>
      if m.removed then (db, some .now)
      else
        match outcome, recordPending db chain m with
        | .answered, .ok (true, db') => (db', some (.pendingAt m.blockNumber))
        | .answered, .ok (false, db') => (db', none)
        | .answered, .error _ => (db, some (.pendingAt m.blockNumber))
        | .lost kept, r => (if kept then committed db r else db, some (.pendingAt m.blockNumber))

/-- What the running sweep waits for. -/
inductive Reply
  | head (reply : Except RpcError Nat)
  | logs (reply : Except RpcError (List Log))
  | proceed
  /-- A statement of the database fails. -/
  | abort

def Reply.event (seconds : Nat) : Reply → Event
  | .head reply => .head reply
  | .logs reply => .logs seconds reply
  | .proceed => .proceed seconds
  | .abort => .abort

/-- How `Sweeper::sweep` returns. -/
inductive Ending
  | finished (head : Nat)
  /-- The cursor moved under the sweep. -/
  | yielded
  | failed
deriving DecidableEq, Repr

section Ends

variable (chain : ChainSpec) (db : Db) (rt : ChainRuntime)

/-- The cursor with which the loop `while cursor < target` is left in this
turn. -/
def scanEnd? : Reply → Option Nat
  | .logs (.error e) =>
      match rt.sweeper.phase with
      | .scanning _ cursor => if e.errorClass = .aheadOfHead then some cursor else none
      | _ => none
  | .proceed =>
      match rt.sweeper.phase with
      | .forwarding head =>
          match fastForwardCursor db chain.chainId (chain.target head) with
          | .ok (cursor, _) => if cursor < chain.target head then none else some cursor
          | .error _ => none
      | .scanned head cursor toBlock logs =>
          match (applySweep db chain rt.cache cursor toBlock logs).2 with
          | .ok (.applied _, _) => if toBlock < chain.target head then none else some toBlock
          | _ => none
      | _ => none
  | _ => none

/-- How the sweep returns in this turn, if it does. -/
def ending? : Reply → Option Ending
  | .head (.ok _) => none
  | .head (.error _) =>
      match rt.sweeper.phase with
      | .probing => some .failed
      | _ => none
  | .logs (.ok _) => none
  | .logs (.error e) =>
      match rt.sweeper.phase with
      | .scanning _ _ =>
          if e.errorClass = .rangeTooLarge ∧ 1 < rt.sweeper.range ∨ e.errorClass = .aheadOfHead then none
          else some .failed
      | .fetching _ _ _ _ _ =>
          if e.errorClass = .rangeTooLarge ∧ 1 < rt.sweeper.range then none else some .failed
      | _ => none
  | .proceed =>
      match rt.sweeper.phase with
      | .forwarding head =>
          match fastForwardCursor db chain.chainId (chain.target head) with
          | .ok _ => none
          | .error _ => some .failed
      | .scanned _ cursor toBlock logs =>
          match (applySweep db chain rt.cache cursor toBlock logs).2 with
          | .ok (.applied _, _) => none
          | .ok (.cursorMoved _ _, _) => some .yielded
          | .error _ => some .failed
      | .backfilling head =>
          if pendingBackfills db chain.chainId backfillBatch = [] then some (.finished head) else none
      | .fetched head batch logs =>
          match (applyBackfill db chain rt.cache batch logs).2 with
          | .ok _ => if batch.length < backfillBatch then some (.finished head) else none
          | .error _ => some .failed
      | _ => none
  | .abort =>
      match rt.sweeper.phase with
      | .idle => none
      | _ => some .failed

end Ends

def Phase.isIdle : Phase → Bool
  | .idle => true
  | _ => false

/-- An instance that runs the loop of a chain, or may start it. -/
structure SweepTask where
  db : Db
  rt : ChainRuntime
  /-- What calls of `handle_log` are about to send. -/
  sending : List SweepTrigger := []
  channel : List SweepTrigger := []
  running : Bool := false
  /-- A sweep is to start. -/
  next : Bool := false
  /-- The `pending_blocks` of the sweeper. -/
  blocks : List Nat := []
  due : Option Nat := none
  lastSafety : Nat
  lastHeadProbe : Nat
  clock : Nat
  /-- The last sweep found the cursor moved. -/
  yielded : Bool := false

inductive TaskEvent
  /-- Another task or another instance commits a transaction. -/
  | other (op : Op)
  /-- Another task of the instance changes the cache. -/
  | cached (cache : WatchCache)
  | bootstrap (head : Nat)
  /-- The process is replaced by a new one. -/
  | restart
  | heard (log : Log) (outcome : Outcome)
  /-- A call of `handle_log` sends its trigger. -/
  | send (i : Nat)
  /-- A call of `handle_log` is torn down before it sends. -/
  | drop (i : Nat)
  /-- The session asks for a sweep: it connected, or it lagged. -/
  | request
  | start
  | stop
  | begin (locked : Uuid → Bool)
  | turn (t : Reply)
  | recv
  | wake
  | tick (locked : Uuid → Bool)
  | elapse (micros : Nat)

namespace SweepTask

variable (timers : SweepTimers) (chain : ChainSpec) (s : SweepTask)

/-- A process that just started. -/
def new (db : Db) (clock : Nat) : SweepTask where
  db := db
  rt := .new chain (clock / 1000000)
  lastSafety := clock
  lastHeadProbe := clock
  clock := clock

/-- The loop is at its `select!`. -/
def Waits : Prop := s.running = true ∧ s.next = false ∧ s.rt.sweeper.phase.isIdle = true

instance : Decidable s.Waits := inferInstanceAs (Decidable (_ ∧ _))

/-- The first lines of `sweeper::run`. -/
def started : SweepTask :=
  { s with
    rt := { s.rt with sweeper := .start chain (s.clock / 1000000) }
    running := true
    next := true
    blocks := pendingBlocks s.db chain.chainId
    due := none
    lastSafety := s.clock
    lastHeadProbe := s.clock
    yielded := false }

/-- What the loop makes of the result of a sweep. -/
def ended : Ending → SweepTask
  | .finished head =>
      { s with
        due := s.blocks.min?.map fun first =>
          s.clock + timers.depthDelay (min (first - chain.target head) chain.confirmations)
        lastSafety := s.clock
        yielded := false }
  | .yielded => { s with due := none, lastSafety := s.clock, yielded := true }
  | .failed => { s with due := some (s.clock + retryDelay), lastSafety := s.clock, yielded := false }

/-- One turn of the running sweep. -/
def turned (t : Reply) : SweepTask :=
  let (db, rt) := s.rt.step chain s.db (t.event (s.clock / 1000000))
  let blocks := match scanEnd? chain s.db s.rt t with
    | some cursor => s.blocks.filter (cursor < ·)
    | none => s.blocks
  let s' := { s with db, rt, blocks }
  match ending? chain s.db s.rt t with
  | some ending => s'.ended timers chain ending
  | none => s'

/-- A trigger of the channel. -/
def received : SweepTask :=
  match s.channel with
  | [] => s
  | .now :: rest => { s with channel := rest, next := true }
  | .pendingAt block :: rest =>
      let deadline := s.clock + timers.depthDelay chain.confirmations
      { s with
        channel := rest
        blocks := s.blocks.insert block
        due := some ((s.due.map (min · deadline)).getD deadline) }

/-- A tick: the safety sweep, or the probe of a parked chain. -/
def ticked (locked : Uuid → Bool) : SweepTask :=
  if s.rt.cache.map.rows ≠ [] ∨ s.blocks ≠ [] then
    if timers.safetySweepIntervalMs * 1000 ≤ s.clock - s.lastSafety then { s with next := true } else s
  else if timers.idleProbeIntervalMs * 1000 ≤ s.clock - s.lastHeadProbe then
    let (db, rt) := ChainRuntime.expire chain s.db s.rt locked
    { s with db, rt, lastHeadProbe := s.clock }
  else s

/-- One event; one that does not fit changes nothing. -/
def step : TaskEvent → SweepTask
  | .other op => { s with db := exec s.db op }
  | .cached cache => { s with rt := { s.rt with cache } }
  | .bootstrap head =>
      let (db, rt) := s.rt.step chain s.db (.bootstrap head)
      { s with db, rt }
  | .restart => .new chain s.db s.clock
  | .heard log outcome =>
      let (db, trigger) := handleLog chain s.db s.rt.cache log outcome
      { s with db, sending := s.sending ++ trigger.toList }
  | .send i =>
      match s.sending[i]? with
      | some trigger =>
          { s with sending := s.sending.eraseIdx i, channel := s.channel ++ [trigger] }
      | none => s
  | .drop i => if s.running then s else { s with sending := s.sending.eraseIdx i }
  | .request => { s with channel := s.channel ++ [.now] }
  | .start => if s.rt.hydrated ∧ s.running = false then s.started chain else s
  | .stop => { s with running := false, rt := s.rt.withPhase .idle }
  | .begin locked =>
      if s.running ∧ s.next ∧ s.rt.sweeper.phase.isIdle then
        let (db, rt) := ChainRuntime.expire chain s.db s.rt locked
        { s with db, rt := rt.withPhase .probing, next := false, lastHeadProbe := s.clock }
      else s
  | .turn t => if s.running then s.turned timers chain t else s
  | .recv => if s.Waits then s.received timers chain else s
  | .wake => if s.Waits ∧ s.due.any (· ≤ s.clock) then { s with due := none, next := true } else s
  | .tick locked => if s.Waits then s.ticked timers chain locked else s
  | .elapse micros => { s with clock := s.clock + micros }

end SweepTask

/-! ## The cursor and what is pending -/

/-- The operation announces a transfer of the chain. -/
def Op.Announces (chainId : Nat) : Op → Prop
  | .recordPending chain _ => chain.chainId = chainId
  | _ => False

instance (chainId : Nat) : (op : Op) → Decidable (op.Announces chainId)
  | .recordPending chain _ => inferInstanceAs (Decidable (chain.chainId = chainId))
  | .ensureCursor _ _ => isFalse id
  | .createWatch _ _ => isFalse id
  | .commitWatch _ _ _ => isFalse id
  | .cancelWatch _ => isFalse id
  | .expireWatches _ _ _ => isFalse id
  | .applySweep _ _ _ _ _ => isFalse id
  | .applyBackfill _ _ _ _ => isFalse id
  | .fastForwardCursor _ _ => isFalse id
  | .tick _ => isFalse id
  | .draw _ => isFalse id

section Cursor

variable {db db' : Db} {chain : ChainSpec} {op : Op} {c : Nat}

/-- What is pending after an operation that announces nothing on the chain was
pending before it. -/
theorem pending_of_exec {log : LogId} {t : Transfer} (quiet : ¬ op.Announces c)
    (ht : (exec db op).transfers.get? log = some t) (hc : t.chainId = c) (hp : t.status = .pending) :
    db.transfers.get? log = some t := by
  cases op with
  | recordPending chain m =>
      simp only [exec] at ht
      rcases recordPending_cases db chain m with ⟨db', he, hstep⟩ | he | ⟨v, he⟩ | ⟨w, -, -, he⟩
      · rw [he] at ht
        rcases hstep.writes ht with hold | hw
        · exact hold
        · cases hw
          exact absurd hc quiet
      all_goals
        rw [he] at ht
        exact ht
  | _ => exact pendingFrom_exec (fun _ _ => by simp) log t ht hp

/-- A commit leaves a row as it was, or settles it. -/
theorem OpenSweep.finish_row {o : OpenSweep} {log : LogId} {t : Transfer}
    (h : o.finish db = some db') (ht : db.transfers.get? log = some t) :
    db'.transfers.get? log = some t ∨
      ∃ s, s ≠ .pending ∧ db'.transfers.get? log = some (t.withStatus s) := by
  cases OpenSweep.finish_rows h log with
  | counted _ _ _ row => exact .inr ⟨.confirmed, by decide, row t ht⟩
  | @resolved u _ _ row =>
      rw [ht] at row
      exact .inr ⟨_, u.resolved_not_pending _, row⟩
  | kept _ _ row => exact .inl (row.trans ht)

/-- So does every step of the server. -/
theorem Server.step_row {s : Server} {log : LogId} {t : Transfer} (i : ServerStep)
    (ht : s.db.transfers.get? log = some t) :
    (s.step i).db.transfers.get? log = some t ∨
      ∃ st, st ≠ .pending ∧ (s.step i).db.transfers.get? log = some (t.withStatus st) := by
  have hyields := s.step_yields i
  generalize (s.step i).db = db at hyields ⊢
  cases hyields with
  | idle => exact .inl ht
  | @runs op _ =>
      obtain ⟨acts, htr, -, -⟩ := exec_trace s.db op
      obtain ⟨t', ht', rfl | ⟨-, st, hst, rfl⟩⟩ := settles_trace htr ht
      · exact .inl ht'
      · exact .inr ⟨st, hst, ht'⟩
  | sweeps _ finish => exact OpenSweep.finish_row finish ht
  | forwards _ => exact .inl ht

/-- A row that was announced ahead is as announced and still ahead, or settled. -/
def Server.Minds (s : Server) (t : Transfer) : Prop :=
  s.db.transfers.get? t.key = some t ∧ s.Ahead t ∨
    ∃ st, st ≠ .pending ∧ s.db.transfers.get? t.key = some (t.withStatus st)

theorem Server.Minds.step {s : Server} {t : Transfer} (inv : s.Minds t) (holds : s.Holds)
    (pending : t.status = .pending) (i : ServerStep) : (s.step i).Minds t := by
  rcases inv with ⟨ht, ahead⟩ | ⟨st, hst, ht⟩
  · exact (s.step_row i ht).imp (fun ht' => ⟨ht', ahead.step holds ht ht' pending⟩) id
  · -- settled rows change their status at most, and not back to pending
    rcases s.step_row i ht with ht' | ⟨st', hst', ht'⟩
    · exact .inr ⟨st, hst, ht'⟩
    · exact .inr ⟨st', hst', ht'⟩

end Cursor

/-- **No pending transfer is passed over.**  A transfer announced above the
cursor, and not behind the back of an open sweep or fast-forward, is settled by
the time the cursor has reached its block, and until then its row is what was
announced. -/
theorem passed_not_pending (steps later : List ServerStep)
    (forward : ∀ i ∈ steps ++ later, ∀ op ∈ i.op?, op.Forward) {t : Transfer} {k : Nat}
    (announced : (run Server.step {} steps).db.transfers.get? t.key = some t)
    (pending : t.status = .pending) (hat : (run Server.step {} steps).db.CursorAt t.chainId k)
    (above : k < t.blockNumber)
    (heeded : ∀ tx ∈ (run Server.step {} steps).txs t.chainId, tx.Heeds t.key t.blockNumber) :
    ∃ k', (run Server.step {} (steps ++ later)).db.CursorAt t.chainId k' ∧ k ≤ k' ∧
      ((run Server.step {} (steps ++ later)).db.transfers.get? t.key = some t ∧ k' < t.blockNumber ∨
        ∃ s, s ≠ .pending ∧
          (run Server.step {} (steps ++ later)).db.transfers.get? t.key = some (t.withStatus s)) := by
  obtain ⟨k', hat', hle⟩ := Server.passed_run forward ⟨k, hat, Nat.le_refl k⟩
  have inv := invariant_run (fun s : Server => s.Holds ∧ s.Minds t)
    (fun s i hs => ⟨hs.1.step i, hs.2.step hs.1 pending i⟩)
    ⟨Server.holds_run steps, .inl ⟨announced, ⟨k, hat, above⟩, heeded⟩⟩ later
  rw [← run_append] at inv
  refine ⟨k', hat', hle, inv.2.imp (fun ⟨ht, ⟨k₁, hat₁, hlt⟩, _⟩ => ⟨ht, ?_⟩) id⟩
  rw [hat'.unique hat₁]
  exact hlt

/-- A watch hears of a payment in block 103. -/
def heardAt103 : List ServerStep :=
  [.op (.ensureCursor baseChain.chainId 100), .op (.createWatch 1 watchOrder),
    .op (.recordPending baseChain (heardOf 9))]

/-- The sweep up to block 106 settles it, also if its watch is cancelled before
the sweep commits. -/
def sweptAfterwards : List ServerStep :=
  [.select baseChain .new 100 106 [], .op (.cancelWatch 1), .commit baseChain.chainId]

theorem passed_not_pending_swept :
    ∃ s, s ≠ .pending ∧ (run Server.step {} (heardAt103 ++ sweptAfterwards)).db.transfers.get?
        ((heardOf 9).row baseChain.chainId 1 .pending).key =
      some (((heardOf 9).row baseChain.chainId 1 .pending).withStatus s) := by
  have hfree : (run Server.step {} heardAt103).txs baseChain.chainId = none := rfl
  obtain ⟨k', hk', -, ⟨-, hlt⟩ | hsettled⟩ := passed_not_pending heardAt103 sweptAfterwards (by decide)
    (t := (heardOf 9).row baseChain.chainId 1 .pending) (k := 100) (by decide +kernel) rfl
    (by decide +kernel) (by decide) (fun tx htx => by
      have hnone : tx ∈ (run Server.step {} heardAt103).txs baseChain.chainId := htx
      rw [hfree] at hnone
      contradiction)
  · have hat : (run Server.step {} (heardAt103 ++ sweptAfterwards)).db.CursorAt
        baseChain.chainId 106 := by decide +kernel
    obtain rfl := hk'.unique hat
    exact absurd hlt (by decide)
  · exact hsettled

/-! ## What is pending is scheduled -/

section Carries

variable {db db' : Db} {chain : ChainSpec} {rt : ChainRuntime} {c : Nat}

/-- What may happen to the database while the loop runs: the cursor moves
forward, and nothing becomes pending. -/
structure Carries (c : Nat) (db db' : Db) : Prop where
  passed : ∀ b, db.Passed c b → db'.Passed c b
  pending : ∀ log t, db'.transfers.get? log = some t → t.chainId = c → t.status = .pending →
    db.transfers.get? log = some t

theorem Carries.refl (c : Nat) (db : Db) : Carries c db db := ⟨fun _ h => h, fun _ _ h _ _ => h⟩

theorem Carries.exec {op : Op} (forward : op.Forward) (quiet : ¬ op.Announces c) :
    Carries c db (exec db op) :=
  ⟨fun _ h => h.exec forward, fun _ _ ht hc hp => pending_of_exec quiet ht hc hp⟩

/-- A sweep is asked for blocks after the cursor. -/
theorem Runs.forward {e : Event} {op : Op} (paced : rt.sweeper.Paced chain)
    (h : Runs chain db rt e op) : op.Forward := by
  cases h with
  | applySweep hphase =>
      have hspan := paced.spanned
      rw [hphase] at hspan
      exact hspan.1
  | _ => trivial

theorem Runs.quiet {e : Event} {op : Op} (h : Runs chain db rt e op) (he : ∀ log, e ≠ .heard log) :
    ¬ op.Announces c := by
  cases h with
  | heard => exact absurd rfl (he _)
  | _ => exact id

theorem Carries.step {e : Event} (paced : rt.sweeper.Paced chain) (he : ∀ log, e ≠ .heard log) :
    Carries c db (rt.step chain db e).1 := by
  have hcommits : Commits chain db rt e (rt.step chain db e).1 := step_commits e
  rcases hcommits with heq | ⟨runs, heq⟩
  · rw [heq]
    exact .refl c db
  · rw [heq]
    exact .exec (runs.forward paced) (runs.quiet he)

theorem Carries.expire (locked : Uuid → Bool) :
    Carries c db (ChainRuntime.expire chain db rt locked).1 := by
  rw [expire_db]
  exact .exec trivial id

end Carries

/-- The cursor a scan goes on from. -/
def Phase.cursor? : Phase → Option Nat
  | .scanning _ cursor => some cursor
  | .scanned _ cursor _ _ => some cursor
  | _ => none

section Behind

variable {db : Db} {chain : ChainSpec} {rt : ChainRuntime}

/-- The scan is not ahead of the durable cursor. -/
structure ChainRuntime.Behind (chain : ChainSpec) (db : Db) (rt : ChainRuntime) : Prop where
  paced : rt.sweeper.Paced chain
  passed : ∀ cursor, rt.sweeper.phase.cursor? = some cursor → db.Passed chain.chainId cursor

theorem cursor?_scanFrom {head cursor k : Nat} (h : (chain.scanFrom head cursor).cursor? = some k) :
    k = cursor := by
  unfold ChainSpec.scanFrom at h
  split at h
  · exact (Option.some.inj h).symm
  · contradiction

theorem cursor?_fetchFrom (head : Nat) (batch : List PendingBackfill) (toBlock next : Nat)
    (logs : List Log) : (Phase.fetchFrom head batch toBlock next logs).cursor? = none := by
  unfold Phase.fetchFrom
  split <;> rfl

theorem cursor?_ofBatch (head : Nat) (batch : List PendingBackfill) :
    (Phase.ofBatch head batch).cursor? = none := by
  unfold Phase.ofBatch
  split
  · exact cursor?_fetchFrom ..
  · rfl

/-- The cursor that `fast_forward_cursor` returns is the durable one. -/
theorem fastForwardCursor_at {c target cursor : Nat} {db' : Db}
    (h : fastForwardCursor db c target = .ok (cursor, db')) : db'.CursorAt c cursor := by
  unfold fastForwardCursor at h
  split at h
  · contradiction
  · next cur hcur =>
      have hat : db.CursorAt c cur.confirmedBlock := by
        rw [Db.CursorAt, hcur, ← show cur.chainId = c from Table.key_of_get? hcur]
      obtain ⟨rfl, rfl⟩ := Prod.mk.inj (Except.ok.inj h)
      split
      · exact Db.cursorAt_setCursor hat _
      · next heq => rwa [not_not.mp heq]

/-- So is the upper end of a sweep that was applied. -/
theorem applySweep_cursorAt {cache cache' : WatchCache} {cursor toBlock : Nat} {logs : List Log}
    {out : SweepOutcome} {db' : Db}
    (h : applySweep db chain cache cursor toBlock logs = (cache', .ok (.applied out, db'))) :
    db'.CursorAt chain.chainId toBlock := by
  obtain ⟨tx, db₁, hcur, htx, hflush, -, rfl⟩ := applySweep_applied (congrArg Prod.snd h)
  exact Db.cursorAt_setCursor (sweepTx_cursorAt htx hflush hcur) toBlock

/-- **The scan stays behind the durable cursor**, whatever else happens to
it. -/
theorem ChainRuntime.Behind.step (pos : 1 ≤ chain.maxLogRange) (inv : rt.Behind chain db) (e : Event) :
    (rt.step chain db e).2.Behind chain (rt.step chain db e).1 where
  paced := inv.paced.step pos (step_paces db e)
  passed := by
    have hkept : ∀ b, db.Passed chain.chainId b → (rt.step chain db e).1.Passed chain.chainId b := by
      intro b hb
      have hcommits : Commits chain db rt e (rt.step chain db e).1 := step_commits e
      rcases hcommits with heq | ⟨runs, heq⟩
      · rwa [heq]
      · rw [heq]
        exact hb.exec (runs.forward inv.paced)
    have hresumes : Resumes chain db rt e (rt.step chain db e).2.sweeper.phase := step_resumes e
    intro cursor hcursor
    generalize hphase' : (rt.step chain db e).2.sweeper.phase = phase' at hresumes hcursor
    cases hresumes with
    | stays => exact hkept _ (inv.passed cursor hcursor)
    | forwarded hphase hok =>
        obtain rfl := cursor?_scanFrom hcursor
        have hat := fastForwardCursor_at hok
        simp only [ChainRuntime.step, ChainRuntime.proceed, hphase, hok]
        exact ⟨cursor, hat, Nat.le_refl _⟩
    | scanned hphase =>
        obtain rfl := Option.some.inj hcursor
        exact hkept _ (inv.passed _ (by rw [hphase]; rfl))
    | swept hphase hok =>
        obtain rfl := cursor?_scanFrom hcursor
        have hat := applySweep_cursorAt hok
        simp only [ChainRuntime.step, ChainRuntime.proceed, hphase, hok]
        exact ⟨cursor, hat, Nat.le_refl _⟩
    | batch _ => rw [cursor?_ofBatch] at hcursor; contradiction
    | fetched _ => rw [cursor?_fetchFrom] at hcursor; contradiction
    | _ => contradiction

/-- The cursor a scan is left with is behind the durable one. -/
theorem scanEnd_passed (inv : rt.Behind chain db) {t : Reply} {cursor : Nat} (seconds : Nat)
    (h : scanEnd? chain db rt t = some cursor) :
    (rt.step chain db (t.event seconds)).1.Passed chain.chainId cursor := by
  cases t with
  | head _ => contradiction
  | abort => contradiction
  | logs reply =>
      cases reply with
      | ok _ => contradiction
      | error e =>
          simp only [scanEnd?] at h
          split at h
          · next hphase =>
              split at h
              · obtain rfl := Option.some.inj h
                exact inv.passed _ (by rw [hphase]; rfl)
              · contradiction
          · contradiction
  | proceed =>
      simp only [scanEnd?] at h
      simp only [Reply.event, ChainRuntime.step, ChainRuntime.proceed]
      split at h
      · next hphase =>
          split at h
          · next hok =>
              split at h
              · contradiction
              · obtain rfl := Option.some.inj h
                simp only [hphase, hok]
                exact ⟨_, fastForwardCursor_at hok, Nat.le_refl _⟩
          · contradiction
      · next head from_ toBlock logs hphase =>
          rcases hsweep : applySweep db chain rt.cache from_ toBlock logs with ⟨cache, r⟩
          rw [hsweep] at h
          split at h
          · next out db' hr =>
              obtain rfl : r = _ := hr
              split at h
              · contradiction
              · obtain rfl := Option.some.inj h
                simp only [hphase, hsweep]
                exact ⟨toBlock, applySweep_cursorAt hsweep, Nat.le_refl _⟩
          · contradiction
      · contradiction

end Behind

namespace SweepTask

variable {timers : SweepTimers} {chain : ChainSpec} {s s' : SweepTask}

/-- The loop knows of the block, or will. -/
def Tracked (s : SweepTask) (b : Nat) : Prop :=
  b ∈ s.blocks ∨ .pendingAt b ∈ s.channel ∨ .pendingAt b ∈ s.sending

instance (s : SweepTask) (b : Nat) : Decidable (s.Tracked b) :=
  inferInstanceAs (Decidable (_ ∨ _ ∨ _))

/-- Sweeps of others go forward, and while the loop runs only its own head
path announces transfers of the chain. -/
def Alone (chain : ChainSpec) (s : SweepTask) : TaskEvent → Prop
  | .other op => op.Forward ∧ (s.running = true → ¬ op.Announces chain.chainId)
  | _ => True

/-- What is pending above the cursor is tracked. -/
def Scheduled (chain : ChainSpec) (s : SweepTask) : Prop :=
  s.running = true → ∀ log t, s.db.transfers.get? log = some t → t.chainId = chain.chainId →
    t.status = .pending → s.db.Passed chain.chainId t.blockNumber ∨ s.Tracked t.blockNumber

theorem Scheduled.carries (inv : s.Scheduled chain) (running : s'.running = true → s.running = true)
    (carries : Carries chain.chainId s.db s'.db)
    (tracked : ∀ b, s.Tracked b → s'.db.Passed chain.chainId b ∨ s'.Tracked b) :
    s'.Scheduled chain := by
  intro hrun log t ht hc hp
  rcases inv (running hrun) log t (carries.pending log t ht hc hp) hc hp with hpassed | htracked
  · exact .inl (carries.passed _ hpassed)
  · exact tracked _ htracked

/-- The database is left alone, and no block is forgotten. -/
theorem Scheduled.frame (inv : s.Scheduled chain) (running : s'.running = true → s.running = true)
    (db : s'.db = s.db) (tracked : ∀ b, s.Tracked b → s'.Tracked b) : s'.Scheduled chain :=
  inv.carries running (db ▸ .refl _ _) fun b h => .inr (tracked b h)

/-- `handle_log` leaves the database alone, or announces a transfer and tells
the loop. -/
theorem handleLog_cases (chain : ChainSpec) (db : Db) (cache : WatchCache) (log : Log)
    (outcome : Outcome) :
    (handleLog chain db cache log outcome).1 = db ∨
      ∃ m db', Step db (.announce chain.chainId m) db' ∧
        handleLog chain db cache log outcome = (db', some (.pendingAt m.blockNumber)) := by
  unfold handleLog
  split
  · exact .inl rfl
  · next m _ =>
      split
      · exact .inl rfl
      · rcases recordPending_cases db chain m with ⟨db', he, hstep⟩ | he | ⟨v, he⟩ | ⟨w, -, -, he⟩
        · cases outcome with
          | answered => exact .inr ⟨m, db', hstep, by rw [he]⟩
          | lost kept =>
              cases kept with
              | false => exact .inl rfl
              | true => exact .inr ⟨m, db', hstep, by rw [he]; rfl⟩
        all_goals
          rw [he]
          cases outcome with
          | answered => exact .inl rfl
          | lost kept => cases kept <;> exact .inl rfl

/-- A transfer that becomes pending is announced to the loop. -/
theorem Scheduled.heard (inv : s.Scheduled chain) (log : Log) (outcome : Outcome) :
    (s.step timers chain (.heard log outcome)).Scheduled chain := by
  have htracked : ∀ b, s.Tracked b → (s.step timers chain (.heard log outcome)).Tracked b := fun b h =>
    h.imp_right fun h => h.imp_right fun h => List.mem_append_left _ h
  rcases handleLog_cases chain s.db s.rt.cache log outcome with hdb | ⟨m, db', hstep, heq⟩
  · exact inv.frame id hdb htracked
  · intro hrun id t ht hc hp
    have hdb : (s.step timers chain (.heard log outcome)).db = db' := by simp only [step, heq]
    rw [hdb] at ht ⊢
    rcases hstep.writes ht with hold | hwrites
    · rcases inv hrun id t hold hc hp with ⟨k, hk, hle⟩ | hold
      · left
        refine ⟨k, ?_, hle⟩
        rw [Db.CursorAt, hstep.cursors (by simp)]
        exact hk
      · exact .inr (htracked _ hold)
    · cases hwrites
      refine .inr (.inr (.inr ?_))
      simp only [step, heq]
      exact List.mem_append_right _ (by simp [MatchedTransfer.row])

theorem mem_pendingBlocks {db : Db} {c : Nat} {log : LogId} {t : Transfer}
    (ht : db.transfers.get? log = some t) (hc : t.chainId = c) (hp : t.status = .pending) :
    t.blockNumber ∈ pendingBlocks db c := by
  rw [pendingBlocks, List.mem_dedup]
  refine List.mem_map_of_mem (List.mem_filter.mpr ⟨Table.mem_of_get? ht, ?_⟩)
  simp [hc, hp]

/-- What a turn of the sweep changes besides the alarm. -/
theorem turned_frame (timers : SweepTimers) (chain : ChainSpec) (s : SweepTask) (t : Reply) :
    ∃ due lastSafety yielded, s.turned timers chain t =
      { s with
        db := (s.rt.step chain s.db (t.event (s.clock / 1000000))).1
        rt := (s.rt.step chain s.db (t.event (s.clock / 1000000))).2
        blocks := match scanEnd? chain s.db s.rt t with
          | some cursor => s.blocks.filter (cursor < ·)
          | none => s.blocks
        due, lastSafety, yielded } := by
  simp only [SweepTask.turned]
  cases ending? chain s.db s.rt t with
  | none => exact ⟨_, _, _, rfl⟩
  | some ending => cases ending <;> exact ⟨_, _, _, rfl⟩

/-- A sweep forgets the blocks it has passed. -/
theorem Scheduled.turned (inv : s.Scheduled chain) (behind : s.rt.Behind chain s.db) (t : Reply) :
    (s.turned timers chain t).Scheduled chain := by
  obtain ⟨due, lastSafety, yielded, heq⟩ := turned_frame timers chain s t
  rw [heq]
  refine inv.carries id (.step behind.paced (by cases t <;> simp [Reply.event])) fun b h => ?_
  rcases h with h | h
  · cases hend : scanEnd? chain s.db s.rt t with
    | none => exact .inr (.inl (by simpa only [hend] using h))
    | some cursor =>
        by_cases hb : cursor < b
        · exact .inr (.inl (by simpa only [hend, List.mem_filter, decide_eq_true_eq] using ⟨h, hb⟩))
        · obtain ⟨k, hk, hle⟩ := scanEnd_passed behind (s.clock / 1000000) hend
          exact .inl ⟨k, hk, (Nat.le_of_not_lt hb).trans hle⟩
  · exact .inr (.inr h)

/-- **Every event keeps what is pending scheduled.** -/
theorem Scheduled.step (inv : s.Scheduled chain) (behind : s.rt.Behind chain s.db) {e : TaskEvent}
    (alone : s.Alone chain e) : (s.step timers chain e).Scheduled chain := by
  cases e with
  | other op =>
      intro hrun
      exact inv.carries id (.exec alone.1 (alone.2 hrun)) (fun b h => .inr h) hrun
  | cached cache => exact inv
  | bootstrap head => exact inv.carries id (.step (e := .bootstrap head) behind.paced (by simp)) fun b h => .inr h
  | restart => exact fun hrun => by contradiction
  | heard log outcome => exact inv.heard log outcome
  | send i =>
      simp only [SweepTask.step]
      split
      · next trigger hi =>
          refine inv.frame id rfl fun b h => ?_
          rcases h with h | h | h
          · exact .inl h
          · exact .inr (.inl (List.mem_append_left _ h))
          · obtain ⟨j, hj⟩ := List.mem_iff_getElem?.mp h
            by_cases hij : j = i
            · rw [hij, hi] at hj
              exact .inr (.inl (by simp [← Option.some.inj hj]))
            · exact .inr (.inr (List.mem_eraseIdx_iff_getElem?.mpr ⟨j, hij, hj⟩))
      · exact inv
  | drop i =>
      simp only [SweepTask.step]
      split
      · exact inv
      · next hstopped => exact fun hrun => absurd hrun hstopped
  | request => exact inv.frame id rfl fun b h => h.imp_right fun h => h.imp_left fun h => List.mem_append_left _ h
  | start =>
      simp only [SweepTask.step]
      split
      · exact fun _ log t ht hc hp => .inr (.inl (mem_pendingBlocks ht hc hp))
      · exact inv
  | stop => exact fun hrun => by contradiction
  | begin locked =>
      simp only [SweepTask.step]
      split
      · exact inv.carries id (.expire locked) fun b h => .inr h
      · exact inv
  | turn t =>
      simp only [SweepTask.step]
      split
      · exact inv.turned behind t
      · exact inv
  | recv =>
      simp only [SweepTask.step, received]
      split
      · split
        · exact inv
        · next rest hchannel =>
            refine inv.frame id rfl fun b h => ?_
            rw [Tracked, hchannel] at h
            simpa [Tracked] using h
        · next block rest hchannel =>
            refine inv.frame id rfl fun b h => ?_
            rw [Tracked, hchannel] at h
            simp only [Tracked, List.mem_insert_iff]
            simp only [List.mem_cons, SweepTrigger.pendingAt.injEq] at h
            tauto
      · exact inv
  | wake =>
      simp only [SweepTask.step]
      split
      · exact inv
      · exact inv
  | tick locked =>
      simp only [SweepTask.step, ticked]
      split
      · split
        · split
          · exact inv
          · exact inv
        · split
          · exact inv.carries id (.expire locked) fun b h => .inr h
          · exact inv
      · exact inv
  | elapse micros => exact inv

theorem passed_of_handleLog {db : Db} {b : Nat} (h : db.Passed chain.chainId b) (cache : WatchCache)
    (log : Log) (outcome : Outcome) :
    (handleLog chain db cache log outcome).1.Passed chain.chainId b := by
  rcases handleLog_cases chain db cache log outcome with hdb | ⟨m, db', hstep, heq⟩
  · rwa [hdb]
  · obtain ⟨k, hk, hle⟩ := h
    refine ⟨k, ?_, hle⟩
    rw [heq, Db.CursorAt, hstep.cursors (by simp)]
    exact hk

/-- The sweep is over, or has not read the cursor yet. -/
theorem behind_of_outside {db : Db} {rt : ChainRuntime} (paced : rt.sweeper.Paced chain)
    (outside : rt.sweeper.phase.Outside) : rt.Behind chain db where
  paced := paced
  passed := by
    intro cursor hcursor
    cases hphase : rt.sweeper.phase <;> rw [hphase] at outside hcursor <;> contradiction

theorem paced_start (pos : 1 ≤ chain.maxLogRange) (seconds : Nat) :
    (Sweeper.start chain seconds).Paced chain := ⟨pos, Nat.le_refl _, Nat.le_refl _, trivial⟩

theorem paced_withPhase {rt : ChainRuntime} (pos : 1 ≤ chain.maxLogRange)
    (paced : rt.sweeper.Paced chain) {phase : Phase} (outside : phase.Outside) :
    (rt.withPhase phase).sweeper.Paced chain :=
  paced.step pos (.leaves (e := .abort) outside)

theorem behind_step (pos : 1 ≤ chain.maxLogRange) (behind : s.rt.Behind chain s.db) {e : TaskEvent}
    (alone : s.Alone chain e) :
    (s.step timers chain e).rt.Behind chain (s.step timers chain e).db := by
  have hexpire : ∀ locked, (ChainRuntime.expire chain s.db s.rt locked).2.Behind chain
      (ChainRuntime.expire chain s.db s.rt locked).1 := fun locked =>
    ⟨by rw [phase_expire]; exact behind.paced, fun cursor hcursor => by
      rw [phase_expire] at hcursor
      exact (Carries.expire locked).passed _ (behind.passed cursor hcursor)⟩
  cases e with
  | other op => exact ⟨behind.paced, fun cursor h => (behind.passed cursor h).exec alone.1⟩
  | bootstrap head => exact behind.step pos (.bootstrap head)
  | restart => exact behind_of_outside (paced_start pos _) trivial
  | heard log outcome =>
      exact ⟨behind.paced, fun cursor h => passed_of_handleLog (behind.passed cursor h) _ log outcome⟩
  | send i =>
      simp only [SweepTask.step]
      split <;> exact behind
  | drop i =>
      simp only [SweepTask.step]
      split <;> exact behind
  | start =>
      simp only [SweepTask.step]
      split
      · exact behind_of_outside (paced_start pos _) trivial
      · exact behind
  | stop => exact behind_of_outside (paced_withPhase pos behind.paced trivial) trivial
  | begin locked =>
      simp only [SweepTask.step]
      split
      · exact behind_of_outside (paced_withPhase pos (hexpire locked).paced trivial) trivial
      · exact behind
  | turn t =>
      simp only [SweepTask.step]
      split
      · obtain ⟨due, lastSafety, yielded, heq⟩ := turned_frame timers chain s t
        rw [heq]
        exact behind.step pos (t.event (s.clock / 1000000))
      · exact behind
  | recv =>
      simp only [SweepTask.step, received]
      split
      · split <;> exact behind
      · exact behind
  | wake =>
      simp only [SweepTask.step]
      split <;> exact behind
  | tick locked =>
      simp only [SweepTask.step, ticked]
      split
      · split
        · split <;> exact behind
        · split
          · exact hexpire locked
          · exact behind
      · exact behind
  | cached _ | request | elapse _ => exact ⟨behind.paced, behind.passed⟩

/-! ## The alarm -/

theorem depthDelay_le (timers : SweepTimers) {blocks confirmations : Nat} (short : confirmations < 2 ^ 32)
    (h : blocks ≤ confirmations) : timers.depthDelay blocks ≤ timers.depthDelay confirmations := by
  unfold SweepTimers.depthDelay
  rw [Nat.mod_eq_of_lt (by omega), Nat.mod_eq_of_lt (by omega)]
  exact Nat.add_le_add_right (Nat.mul_le_mul_left _ (by omega)) _

theorem Phase.isIdle_iff {phase : Phase} : phase.isIdle = true ↔ phase = .idle := by
  cases phase <;> simp [Phase.isIdle]

/-- A reply that comes when no sweep runs changes nothing. -/
theorem turned_of_idle (h : s.rt.sweeper.phase.isIdle = true) (t : Reply) :
    s.turned timers chain t = s := by
  have hphase := Phase.isIdle_iff.mp h
  obtain ⟨db, ⟨cache, hydrated, ⟨range, ceiling, setAt, phase⟩⟩⟩ := s
  subst hphase
  cases t with
  | head reply => cases reply <;> rfl
  | logs reply => cases reply <;> rfl
  | proceed => rfl
  | abort => rfl

theorem isIdle_ofBatch (head : Nat) {batch : List PendingBackfill} (h : batch ≠ []) :
    (Phase.ofBatch head batch).isIdle = false := by
  obtain ⟨b, batch, rfl⟩ := List.exists_cons_of_ne_nil h
  simp only [Phase.ofBatch, List.map_cons, List.min?_cons, List.max?_cons, Phase.fetchFrom]
  split <;> rfl

theorem busy_of_logs {db : Db} {rt : ChainRuntime} {reply : Except RpcError (List Log)} (seconds : Nat)
    (h : rt.sweeper.phase.isIdle = false) (goes : ending? chain db rt (.logs reply) = none) :
    (rt.onLogs chain seconds reply).sweeper.phase.isIdle = false := by
  cases hphase : rt.sweeper.phase with
  | scanning head cursor =>
      cases reply with
      | ok logs => simp only [ChainRuntime.onLogs, hphase]; rfl
      | error e =>
          simp only [ending?, hphase] at goes
          simp only [ChainRuntime.onLogs, hphase, Sweeper.onSweepLogs]
          split
          · simp only [Sweeper.shrinkRange, hphase]; rfl
          · next hwide =>
              split
              · rfl
              · next hahead => rw [if_neg (by tauto)] at goes; contradiction
  | fetching head batch toBlock next logs =>
      cases reply with
      | ok found =>
          simp only [ChainRuntime.onLogs, hphase, Sweeper.onBackfillLogs, Phase.fetchFrom]
          split <;> rfl
      | error e =>
          simp only [ending?, hphase] at goes
          simp only [ChainRuntime.onLogs, hphase, Sweeper.onBackfillLogs]
          split
          · simp only [Sweeper.shrinkRange, hphase]; rfl
          · next hwide => rw [if_neg hwide] at goes; contradiction
  | idle => rw [hphase] at h; contradiction
  | _ => simp only [ChainRuntime.onLogs, hphase]; rfl

theorem busy_of_proceed {db : Db} {rt : ChainRuntime} (seconds : Nat)
    (h : rt.sweeper.phase.isIdle = false) (goes : ending? chain db rt .proceed = none) :
    (ChainRuntime.proceed chain db rt seconds).2.sweeper.phase.isIdle = false := by
  cases hphase : rt.sweeper.phase with
  | forwarding head =>
      simp only [ending?, hphase] at goes
      simp only [ChainRuntime.proceed, hphase]
      split at goes
      · next hok =>
          simp only [hok, ChainRuntime.withPhase, ChainSpec.scanFrom]
          split <;> rfl
      · contradiction
  | scanned head cursor toBlock logs =>
      simp only [ending?, hphase] at goes
      simp only [ChainRuntime.proceed, hphase]
      rcases hsweep : applySweep db chain rt.cache cursor toBlock logs with ⟨cache, r⟩
      rw [hsweep] at goes
      split at goes
      · next hr =>
          obtain rfl : r = _ := hr
          simp only [ChainSpec.scanFrom]
          split <;> rfl
      · contradiction
      · contradiction
  | backfilling head =>
      simp only [ending?, hphase] at goes
      simp only [ChainRuntime.proceed, hphase, ChainRuntime.withPhase]
      split at goes
      · contradiction
      · next hbatch => exact isIdle_ofBatch head hbatch
  | fetched head batch logs =>
      simp only [ending?, hphase] at goes
      simp only [ChainRuntime.proceed, hphase]
      rcases hback : applyBackfill db chain rt.cache batch logs with ⟨cache, r⟩
      rw [hback] at goes
      split at goes
      · next hr =>
          obtain rfl : r = _ := hr
          split at goes
          · contradiction
          · next hfull =>
              simp only [ChainRuntime.withPhase, if_neg hfull]
              rfl
      · contradiction
  | idle => rw [hphase] at h; contradiction
  | _ => simp only [ChainRuntime.proceed, hphase]; rfl

/-- A sweep that does not return goes on. -/
theorem busy_of_ending {db : Db} {rt : ChainRuntime} {t : Reply} (seconds : Nat)
    (h : rt.sweeper.phase.isIdle = false) (goes : ending? chain db rt t = none) :
    (rt.step chain db (t.event seconds)).2.sweeper.phase.isIdle = false := by
  cases t with
  | head reply =>
      cases reply with
      | ok head =>
          simp only [Reply.event, ChainRuntime.step, ChainRuntime.onHead]
          split
          · rfl
          · contradiction
          · exact h
      | error e =>
          simp only [ending?] at goes
          simp only [Reply.event, ChainRuntime.step, ChainRuntime.onHead]
          split at goes
          · contradiction
          · split
            · contradiction
            · contradiction
            · exact h
  | logs reply => exact busy_of_logs seconds h goes
  | proceed => exact busy_of_proceed seconds h goes
  | abort =>
      simp only [ending?] at goes
      split at goes
      · next hphase => rw [hphase] at h; contradiction
      · contradiction

/-- A loop with blocks to come back for has set its alarm, and not far ahead. -/
def Armed (timers : SweepTimers) (chain : ChainSpec) (s : SweepTask) : Prop :=
  s.Waits → s.blocks ≠ [] → s.yielded = false →
    ∃ d, s.due = some d ∧ d ≤ s.clock + max retryDelay (timers.depthDelay chain.confirmations)

theorem armed_ended (short : chain.confirmations < 2 ^ 32) (ending : Ending) :
    (s.ended timers chain ending).Armed timers chain := by
  intro _ hblocks hyielded
  cases ending with
  | finished head =>
      cases hmin : s.blocks.min? with
      | none => exact absurd (List.min?_eq_none_iff.mp hmin) hblocks
      | some first =>
          refine ⟨s.clock + timers.depthDelay (min (first - chain.target head) chain.confirmations),
            by simp only [SweepTask.ended, hmin, Option.map_some], ?_⟩
          have hle := depthDelay_le timers short
            (Nat.min_le_right (first - chain.target head) chain.confirmations)
          exact Nat.add_le_add_left (hle.trans (Nat.le_max_right _ _)) _
  | yielded => contradiction
  | failed => exact ⟨_, rfl, Nat.add_le_add_left (Nat.le_max_left _ _) _⟩

/-- **Every event keeps the alarm set.** -/
theorem Armed.step (short : chain.confirmations < 2 ^ 32) (inv : s.Armed timers chain) (e : TaskEvent) :
    (s.step timers chain e).Armed timers chain := by
  cases e with
  | bootstrap head =>
      intro hwaits
      have hsweeper : ((s.rt.step chain s.db (.bootstrap head)).2).sweeper = s.rt.sweeper :=
        sweeper_step_of_aside trivial
      exact inv ⟨hwaits.1, hwaits.2.1, hsweeper ▸ hwaits.2.2⟩
  | restart => exact fun hwaits => by cases hwaits.1
  | send i =>
      simp only [SweepTask.step]
      split <;> exact inv
  | drop i =>
      simp only [SweepTask.step]
      split <;> exact inv
  | start =>
      simp only [SweepTask.step]
      split
      · exact fun hwaits => by cases hwaits.2.1
      · exact inv
  | stop => exact fun hwaits => by cases hwaits.1
  | begin locked =>
      simp only [SweepTask.step]
      split
      · exact fun hwaits => by cases hwaits.2.2
      · exact inv
  | turn t =>
      simp only [SweepTask.step]
      split
      · by_cases hidle : s.rt.sweeper.phase.isIdle = true
        · rw [turned_of_idle hidle]
          exact inv
        · simp only [turned]
          cases hend : ending? chain s.db s.rt t with
          | some ending => exact armed_ended short ending
          | none =>
              intro hwaits
              have hbusy := busy_of_ending (s.clock / 1000000) (by simpa using hidle) hend
              exact absurd hwaits.2.2 (by rw [hbusy]; simp)
      · exact inv
  | recv =>
      simp only [SweepTask.step, received]
      split
      · split
        · exact inv
        · exact fun hwaits => by cases hwaits.2.1
        · intro _ _ _
          refine ⟨_, rfl, ?_⟩
          have hle := Nat.le_max_right retryDelay (timers.depthDelay chain.confirmations)
          cases s.due with
          | none => exact Nat.add_le_add_left hle _
          | some d => exact (Nat.min_le_right _ _).trans (Nat.add_le_add_left hle _)
      · exact inv
  | wake =>
      simp only [SweepTask.step]
      split
      · exact fun hwaits => by cases hwaits.2.1
      · exact inv
  | tick locked =>
      simp only [SweepTask.step, ticked]
      split
      · split
        · split
          · exact fun hwaits => by cases hwaits.2.1
          · exact inv
        · next hparked =>
            split
            · exact fun _ hblocks => absurd (.inr hblocks) hparked
            · exact inv
      · exact inv
  | elapse micros =>
      intro hwaits hblocks hyielded
      obtain ⟨d, hd, hle⟩ := inv hwaits hblocks hyielded
      refine ⟨d, hd, ?_⟩
      simp only [SweepTask.step]
      omega
  | other _ | cached _ | heard _ _ | request => exact inv

/-- While the loop waits, nothing puts its alarm off. -/
theorem due_step {e : TaskEvent} {d : Nat} (waits : s.Waits) (hd : s.due = some d)
    (waits' : (s.step timers chain e).Waits) :
    ∃ d', (s.step timers chain e).due = some d' ∧ d' ≤ d := by
  have hsame : ∃ d', s.due = some d' ∧ d' ≤ d := ⟨d, hd, Nat.le_refl d⟩
  cases e with
  | restart => cases waits'.1
  | stop => cases waits'.1
  | send i =>
      simp only [SweepTask.step]
      split <;> exact hsame
  | drop i =>
      simp only [SweepTask.step]
      split <;> exact hsame
  | start =>
      simp only [SweepTask.step]
      rw [if_neg (by simp [waits.1])]
      exact hsame
  | begin locked =>
      simp only [SweepTask.step]
      rw [if_neg (by simp [waits.2.1])]
      exact hsame
  | turn t =>
      simp only [SweepTask.step, if_pos waits.1, turned_of_idle waits.2.2]
      exact hsame
  | recv =>
      simp only [SweepTask.step, if_pos waits, received] at waits' ⊢
      split
      · exact hsame
      · exact hsame
      · exact ⟨_, rfl, by rw [hd]; exact Nat.min_le_left _ _⟩
  | wake =>
      simp only [SweepTask.step] at waits' ⊢
      split
      · next hfires =>
          rw [if_pos hfires] at waits'
          cases waits'.2.1
      · exact hsame
  | tick locked =>
      simp only [SweepTask.step, if_pos waits, ticked]
      split
      · split <;> exact hsame
      · split <;> exact hsame
  | other _ | cached _ | bootstrap _ | heard _ _ | request | elapse _ => exact hsame

end SweepTask

/-- **What is pending is scheduled.**  Whatever happens to an instance and its
database, as long as nobody else announces transfers of the chain while its
loop runs: every transfer that is pending above the durable cursor is in the
loop's set, in its channel or about to be sent to it; a loop that waits with
blocks to come back for, and did not yield to another instance, has set its
alarm, no further ahead than it takes a transfer to reach its depth or a failed
sweep to be retried; and nothing puts the alarm off. -/
theorem pending_scheduled (timers : SweepTimers) (chain : ChainSpec) (pos : 1 ≤ chain.maxLogRange)
    (short : chain.confirmations < 2 ^ 32) (db : Db) (clock : Nat) (events : List TaskEvent)
    (alone : Along (SweepTask.step timers chain) (SweepTask.Alone chain) (.new chain db clock) events) :
    let s := run (SweepTask.step timers chain) (.new chain db clock) events
    (s.running = true → ∀ t ∈ s.db.transfers.rows, t.chainId = chain.chainId → t.status = .pending →
        s.db.Passed chain.chainId t.blockNumber ∨ s.Tracked t.blockNumber) ∧
      (s.Waits → s.blocks ≠ [] → s.yielded = false →
        ∃ d, s.due = some d ∧
          d ≤ s.clock + max retryDelay (timers.depthDelay chain.confirmations)) ∧
      ∀ e d, s.Waits → s.due = some d → (s.step timers chain e).Waits →
        ∃ d', (s.step timers chain e).due = some d' ∧ d' ≤ d := by
  intro s
  have hinv : s.rt.Behind chain s.db ∧ s.Scheduled chain ∧ s.Armed timers chain :=
    invariant_along
      (fun s : SweepTask => s.rt.Behind chain s.db ∧ s.Scheduled chain ∧ s.Armed timers chain)
      (fun s e _ inv hok => ⟨SweepTask.behind_step pos inv.1 hok, inv.2.1.step inv.1 hok,
        inv.2.2.step short e⟩)
      ⟨SweepTask.behind_of_outside (SweepTask.paced_start pos _) trivial, fun h => by contradiction,
        fun h => by cases h.1⟩ alone
  exact ⟨fun hrun t ht => hinv.2.1 hrun t.key t (Table.get?_of_mem ht), hinv.2.2,
    fun e d waits hd waits' => SweepTask.due_step waits hd waits'⟩

/-- Blocks of two seconds, a safety sweep a minute, a probe every five. -/
def baseTimers : SweepTimers := ⟨2000, 60000, 300000⟩

/-- A payment in block 103 is heard while a sweep runs; the loop gets to know
of it when it waits again. -/
def heardMeanwhile : List TaskEvent :=
  [.bootstrap 100, .start, .begin fun _ => false, .turn (.head (.ok 100)),
    .heard (transferLog 7 9 40 103 0) .answered, .turn .proceed, .turn .proceed, .send 0, .recv]

theorem pending_scheduled_heard :
    (run (SweepTask.step baseTimers baseChain) (.new baseChain watchedDb 0) heardMeanwhile).Waits ∧
      (run (SweepTask.step baseTimers baseChain) (.new baseChain watchedDb 0) heardMeanwhile).blocks =
        [103] ∧
      ∃ d, (run (SweepTask.step baseTimers baseChain) (.new baseChain watchedDb 0)
        heardMeanwhile).due = some d ∧ d ≤ 6500000 := by
  have hwaits : (run (SweepTask.step baseTimers baseChain) (.new baseChain watchedDb 0)
    heardMeanwhile).Waits := by decide +kernel
  have hblocks : (run (SweepTask.step baseTimers baseChain) (.new baseChain watchedDb 0)
    heardMeanwhile).blocks = [103] := by decide +kernel
  refine ⟨hwaits, hblocks, ?_⟩
  have harmed := (pending_scheduled baseTimers baseChain (by decide) (by decide) watchedDb 0
    heardMeanwhile ⟨trivial, trivial, trivial, trivial, trivial, trivial, trivial, trivial, trivial,
      trivial⟩).2.1 hwaits (by rw [hblocks]; simp) (by decide +kernel)
  obtain ⟨d, hd, hle⟩ := harmed
  refine ⟨d, hd, hle.trans ?_⟩
  decide +kernel

end GumIndexer
