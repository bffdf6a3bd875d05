import GumIndexer.Coverage
import Mathlib.Data.List.Induction

/-!
# GumIndexer.Interleaving

Transactions that read before others commit.

`GumIndexer.Ops` runs every operation in one step.  The database runs them at
READ COMMITTED: the rows a transaction writes are locked until it commits, so
its writes can be taken to happen then, but what it has only read may change
meanwhile.  Two transactions read more than they lock.  `apply_sweep` SELECTs
the transfers that are pending and then updates them by their ids, whatever
became of them in between; `fast_forward_cursor` asks whether any are pending.
Both have the row of the cursor `FOR UPDATE`, so other sweeps, fast-forwards
and registrations of the chain wait for them; `record_pending` and
`apply_backfill` do not.

A `Server` is the database together with such transactions that are open, and
`Server.step` runs a whole operation or one half of such a transaction.
Operations are steps of a server (`run_op`), and a sweep that reads and commits
with nothing in between is `apply_sweep` (`select_commit`).

A commit is `Undisturbed` if the rows the sweep has read are still what they
were.  Then it is a trace of the steps of `GumIndexer.Ledger`, as an operation
is (`Server.step_trace`), and what every such step keeps holds in every run
without disturbed commits (`Server.run_invariant`).
-/

namespace GumIndexer

open Base

variable {db db' : Db} {chain : ChainSpec}

/-! ## What the loops of a sweep leave -/

/-- Counting once more what a loop has counted comes to the same. -/
theorem countAll_again {tx tx' : SweepTx} {ms : List MatchedTransfer}
    (h : ms.foldlM (countConfirmed chain) tx = .ok tx') :
    ∃ cs, tx'.out.confirmed = tx.out.confirmed ++ cs ∧
      cs.foldlM (countConfirmed chain) tx = .ok tx' := by
  induction ms generalizing tx with
  | nil =>
      cases h
      exact ⟨[], by simp, rfl⟩
  | cons m ms ih =>
      rw [List.foldlM_cons] at h
      cases hm : countConfirmed chain tx m with
      | error e => rw [hm] at h; contradiction
      | ok tx₁ =>
          rw [hm] at h
          obtain ⟨cs, hout, hcs⟩ := ih h
          have hcons : tx₁.out.confirmed = tx.out.confirmed ++ [m] →
              ∃ cs, tx'.out.confirmed = tx.out.confirmed ++ cs ∧
                cs.foldlM (countConfirmed chain) tx = .ok tx' := fun hconfirmed =>
            ⟨m :: cs, by rw [hout, hconfirmed, List.append_assoc, List.singleton_append],
              by rw [List.foldlM_cons, hm]; exact hcs⟩
          cases countConfirmed_ok hm with
          | inactive _ => exact ⟨cs, hout, hcs⟩
          | settled _ => exact ⟨cs, hout, hcs⟩
          | below _ _ confirmed _ => exact hcons confirmed
          | reached _ _ _ confirmed _ => exact hcons confirmed

/-- Counting a match leaves the rows of other logs alone. -/
theorem Step.get?_of_count_ne {chainId : Nat} {m : MatchedTransfer} {log : LogId}
    (h : Step db (.count chainId m) db') (hne : m.logId chainId ≠ log) :
    db'.transfers.get? log = db.transfers.get? log := by
  cases h with
  | count counts _ =>
      obtain ⟨transfers, hc, post⟩ := counts.step
      rw [post.transfers]
      exact hc.get?_of_ne (Ne.symm hne)
  | complete counts _ post' =>
      obtain ⟨transfers, hc, post⟩ := counts.step
      rw [post'.transfers, post.transfers]
      exact hc.get?_of_ne (Ne.symm hne)

/-- Counting a row that is there confirms it. -/
theorem Step.get?_of_count {chainId : Nat} {m : MatchedTransfer} {t : Transfer}
    (h : Step db (.count chainId m) db') (ht : db.transfers.get? (m.logId chainId) = some t) :
    db'.transfers.get? (m.logId chainId) = some (t.withStatus .confirmed) := by
  cases h with
  | count counts _ =>
      obtain ⟨transfers, hc, post⟩ := counts.step
      rw [post.transfers]
      exact hc.get?_self ht
  | complete counts _ post' =>
      obtain ⟨transfers, hc, post⟩ := counts.step
      rw [post'.transfers, post.transfers]
      exact hc.get?_self ht

/-- After a counting loop a row is confirmed, if the loop has counted it, or as
it was. -/
theorem count_rows {chainId : Nat} {cs : List MatchedTransfer}
    (htr : Trace Step db (cs.map (.count chainId)) db') (log : LogId) :
    (db'.Confirmed log ∧ (∃ m ∈ cs, m.logId chainId = log) ∧
        ∀ t, db.transfers.get? log = some t →
          db'.transfers.get? log = some (t.withStatus .confirmed)) ∨
      (∀ m ∈ cs, m.logId chainId ≠ log) ∧ db'.transfers.get? log = db.transfers.get? log := by
  induction cs generalizing db with
  | nil =>
      cases htr
      exact .inr ⟨fun _ hm => by contradiction, rfl⟩
  | cons m cs ih =>
      cases htr with
      | @cons _ d _ _ _ hstep htr =>
          by_cases hlog : m.logId chainId = log
          · subst hlog
            have hd : d.Confirmed (m.logId chainId) := hstep.confirmed_iff.mpr (.inr (by
              simp [Act.credits, MatchedTransfer.toCredit]))
            rcases ih htr with ⟨hconfirmed, -, hrow⟩ | ⟨-, hsame⟩
            · exact .inl ⟨hconfirmed, ⟨m, List.mem_cons_self, rfl⟩, fun t ht =>
                hrow (t.withStatus .confirmed) (hstep.get?_of_count ht)⟩
            · refine .inl ⟨?_, ⟨m, List.mem_cons_self, rfl⟩, fun t ht =>
                hsame.trans (hstep.get?_of_count ht)⟩
              rw [Db.Confirmed, HasStatus, hsame]
              exact hd
          · rw [← hstep.get?_of_count_ne hlog]
            rcases ih htr with ⟨hconfirmed, ⟨m', hm', hlog'⟩, hrow⟩ | ⟨hne, hsame⟩
            · exact .inl ⟨hconfirmed, ⟨m', List.mem_cons_of_mem _ hm', hlog'⟩, hrow⟩
            · refine .inr ⟨fun m' hm' => ?_, hsame⟩
              rcases List.mem_cons.mp hm' with rfl | hm'
              · exact hlog
              · exact hne m' hm'

/-- What resolving a row does, whatever became of the row since it was read. -/
structure Resolves (chain : ChainSpec) (canonical : List (B256 × Nat)) (t : Transfer)
    (db db' : Db) : Prop where
  cursors : db'.cursors = db.cursors
  transfers : db'.transfers = (setTransfer db t.key (t.resolved canonical).status).transfers
  events : ∀ e ∈ db'.outbox.rows, e ∈ db.outbox.rows ∨
    (t.blockHash, t.logIndex) ∉ canonical ∧ ∃ d watch amount,
      e = eventRow d chain watch .paymentOrphaned (some (t.orphanedView amount))

theorem cursors_setTransfer (db : Db) (log : LogId) (status : TransferStatus) :
    (setTransfer db log status).cursors = db.cursors := by
  unfold setTransfer
  split <;> rfl

theorem outbox_setTransfer (db : Db) (log : LogId) (status : TransferStatus) :
    (setTransfer db log status).outbox = db.outbox := by
  unfold setTransfer
  split <;> rfl

/-- What `resolve_leftover` does when it succeeds. -/
theorem resolveLeftover_resolves {canonical : List (B256 × Nat)} {tx tx' : SweepTx} {t : Transfer}
    (h : resolveLeftover chain canonical tx t = .ok tx') :
    Resolves chain canonical t tx.db tx'.db := by
  unfold resolveLeftover at h
  by_cases hc : (t.blockHash, t.logIndex) ∈ canonical
  · rw [if_pos hc] at h
    cases h
    refine ⟨cursors_setTransfer _ _ _, ?_, fun e he => .inl ?_⟩
    · rw [Transfer.resolved, if_pos hc]
      rfl
    · exact (outbox_setTransfer tx.db t.key .ignored) ▸ he
  · rw [if_neg hc] at h
    have hstatus : (t.resolved canonical).status = .orphaned := by
      rw [Transfer.resolved, if_neg hc]
      rfl
    rcases lockActiveWatch_cases (setTransfer tx.db t.key .orphaned) t.watchId with
      ⟨-, hl⟩ | ⟨w, -, -, -, -, hl⟩ | ⟨w, v, -, -, -, -, hl⟩
    · rw [hl] at h
      cases h
      exact ⟨cursors_setTransfer _ _ _, by rw [hstatus]; rfl,
        fun e he => .inl ((outbox_setTransfer tx.db t.key .orphaned) ▸ he)⟩
    · simp only [hl, bind, Except.bind] at h
      cases hn : numericColumn t.amount with
      | error e => rw [hn] at h; contradiction
      | ok amount =>
          simp only [hn] at h
          rcases insertEvent_cases ((setTransfer tx.db t.key .orphaned).putWatch w.bump) chain
            (.ofWatch w.bump) .paymentOrphaned (some (t.orphanedView amount)) with
            ⟨outbox, hi, he⟩ | ⟨-, he⟩
          · simp only [he] at h
            cases h
            refine ⟨cursors_setTransfer tx.db t.key .orphaned, by rw [hstatus]; rfl, fun e hmem => ?_⟩
            have hrows : e ∈ outbox.rows := hmem
            rw [Table.rows_of_insertNew hi, List.mem_append, List.mem_singleton] at hrows
            refine hrows.imp (fun hold => ?_) fun hnew => ⟨hc, _, _, amount, hnew⟩
            exact (outbox_setTransfer tx.db t.key .orphaned) ▸ hold
          · simp only [he] at h
            contradiction
    · rw [hl] at h
      contradiction

theorem get?_setTransfer (db : Db) (log : LogId) (status : TransferStatus) (log' : LogId) :
    (setTransfer db log status).transfers.get? log' =
      if log = log' then (db.transfers.get? log').map (·.withStatus status)
      else db.transfers.get? log' := by
  unfold setTransfer
  cases ht : db.transfers.get? log with
  | none =>
      by_cases hlog : log = log'
      · rw [if_pos hlog, ← hlog, ht, Option.map_none]
      · rw [if_neg hlog]
  | some t =>
      change (db.transfers.replace (t.withStatus status)).get? log' = _
      rw [Table.get?_replace, Transfer.key_withStatus, Table.key_of_get? ht]
      by_cases hlog : log = log'
      · rw [if_pos hlog, if_pos hlog, ← hlog, ht]
        rfl
      · rw [if_neg hlog, if_neg hlog]

/-- What the loop over the pending transfers does to a row. -/
theorem resolveAll_rows {canonical : List (B256 × Nat)} {tx tx' : SweepTx} {ts : List Transfer}
    (h : ts.foldlM (resolveLeftover chain canonical) tx = .ok tx') (log : LogId) :
    (∃ t ∈ ts, t.key = log ∧ tx'.db.transfers.get? log =
        (tx.db.transfers.get? log).map (·.withStatus (t.resolved canonical).status)) ∨
      (∀ t ∈ ts, t.key ≠ log) ∧ tx'.db.transfers.get? log = tx.db.transfers.get? log := by
  induction ts generalizing tx with
  | nil =>
      cases h
      exact .inr ⟨fun _ ht => by contradiction, rfl⟩
  | cons t ts ih =>
      rw [List.foldlM_cons] at h
      cases hm : resolveLeftover chain canonical tx t with
      | error e => rw [hm] at h; contradiction
      | ok tx₁ =>
          rw [hm] at h
          have hrow : tx₁.db.transfers.get? log = _ :=
            (congrArg (Table.get? · log) (resolveLeftover_resolves hm).transfers).trans
              (get?_setTransfer _ _ _ _)
          rcases ih h with ⟨t', ht', hkey, hrest⟩ | ⟨hne, hrest⟩
          · refine .inl ⟨t', List.mem_cons_of_mem _ ht', hkey, ?_⟩
            rw [hrest, hrow]
            split
            · rw [Option.map_map]
              rfl
            · rfl
          · by_cases hlog : t.key = log
            · exact .inl ⟨t, List.mem_cons_self, hlog, by rw [hrest, hrow, if_pos hlog]⟩
            · refine .inr ⟨fun t' ht' => ?_, by rw [hrest, hrow, if_neg hlog]⟩
              rcases List.mem_cons.mp ht' with rfl | ht'
              · exact hlog
              · exact hne t' ht'

/-- The events it queues. -/
theorem resolveAll_events {canonical : List (B256 × Nat)} {tx tx' : SweepTx} {ts : List Transfer}
    (h : ts.foldlM (resolveLeftover chain canonical) tx = .ok tx') :
    ∀ e ∈ tx'.db.outbox.rows, e ∈ tx.db.outbox.rows ∨
      ∃ t ∈ ts, (t.blockHash, t.logIndex) ∉ canonical ∧ ∃ d watch amount,
        e = eventRow d chain watch .paymentOrphaned (some (t.orphanedView amount)) := by
  induction ts generalizing tx with
  | nil =>
      cases h
      exact fun e he => .inl he
  | cons t ts ih =>
      rw [List.foldlM_cons] at h
      cases hm : resolveLeftover chain canonical tx t with
      | error e => rw [hm] at h; contradiction
      | ok tx₁ =>
          rw [hm] at h
          intro e he
          rcases ih h e he with hmid | ⟨t', ht', hout⟩
          · exact ((resolveLeftover_resolves hm).events e hmid).imp id fun hnew =>
              ⟨t, List.mem_cons_self, hnew⟩
          · exact .inr ⟨t', List.mem_cons_of_mem _ ht', hout⟩

/-! ## Open transactions -/

/-- A sweep between its SELECT of the pending transfers and its commit. -/
structure OpenSweep where
  chain : ChainSpec
  /-- The cache after the delta load. -/
  cache : WatchCache
  discovered : List WatchKey
  cursor : Nat
  toBlock : Nat
  logs : List Log
  /-- What it has counted. -/
  counted : List MatchedTransfer
  /-- What its SELECT returned. -/
  selected : List Transfer
  matched : ∀ m ∈ counted, m ∈ sweepMatches chain cache logs
  leftover : ∀ t ∈ selected, Leftover chain.chainId t
  reached : ∀ t ∈ selected, t.blockNumber ≤ toBlock
  distinct : (selected.map Transfer.key).Nodup
  apart : ∀ m ∈ counted, ∀ t ∈ selected, m.logId chain.chainId ≠ t.key

/-- The loop over the matches reports a part of them as confirmed, and they are
what it counted. -/
theorem confirmed_countAll {discovered : List WatchKey} {ms : List MatchedTransfer} {mid : SweepTx}
    (h : ms.foldlM (countConfirmed chain) { db, out := { discovered } } = .ok mid) :
    mid.out.confirmed.Sublist ms ∧
      Trace Step db (mid.out.confirmed.map (.count chain.chainId)) mid.db := by
  obtain ⟨cs, hcs, hout, htr⟩ := countAll_trace h
  rw [List.nil_append] at hout
  rw [hout]
  exact ⟨hcs, htr⟩

/-- A row that is still pending was not counted. -/
theorem leftover_not_counted {cs : List MatchedTransfer} {toBlock : Nat} {t : Transfer}
    (htr : Trace Step db (cs.map (.count chain.chainId)) db')
    (ht : t ∈ leftovers db' chain.chainId toBlock) : ∀ m ∈ cs, m.logId chain.chainId ≠ t.key := by
  obtain ⟨hmem, -, hp, -⟩ := mem_leftovers.mp ht
  rcases count_rows htr t.key with ⟨⟨u, hu, hconfirmed⟩, -⟩ | ⟨hne, -⟩
  · rw [Table.get?_of_mem hmem] at hu
    obtain rfl := Option.some.inj hu
    rw [hp] at hconfirmed
    contradiction
  · exact hne

/-- `apply_sweep` up to the SELECT of the pending transfers. -/
def OpenSweep.read (db : Db) (chain : ChainSpec) (cache : WatchCache) (expectedCursor toBlock : Nat)
    (logs : List Log) : Option OpenSweep :=
  if db.CursorAt chain.chainId expectedCursor then
    match h : (sweepMatches chain (deltaLoad db chain cache).1 logs).foldlM (countConfirmed chain)
        { db, out := { discovered := (deltaLoad db chain cache).2 } } with
    | .ok mid => some {
        chain
        cache := (deltaLoad db chain cache).1
        discovered := (deltaLoad db chain cache).2
        cursor := expectedCursor
        toBlock
        logs
        counted := mid.out.confirmed
        selected := leftovers mid.db chain.chainId toBlock
        matched := fun _ hm => (confirmed_countAll h).1.mem hm
        leftover := (lists_leftovers mid.db chain.chainId toBlock).sat
        reached := fun _ ht => (mem_leftovers.mp ht).2.2.2
        distinct := (lists_leftovers mid.db chain.chainId toBlock).nodup
        apart := fun m hm _ ht => leftover_not_counted (confirmed_countAll h).2 ht m hm }
    | .error _ => none
  else none

namespace OpenSweep

variable (o : OpenSweep)

/-- The call of `apply_sweep` it belongs to. -/
def op : Op := .applySweep o.chain o.cache o.cursor o.toBlock o.logs

def canonical : List (B256 × Nat) := canonicalOf o.chain o.cache o.logs

/-- The counting, on the database at the time of the commit.  The rows have
been locked since they were counted, so they count as they did then; a run in
which they do not is none of the database's, and the sweep is rolled back. -/
def recount (db : Db) : Option SweepTx :=
  match o.counted.foldlM (countConfirmed o.chain) { db, out := { discovered := o.discovered } } with
  | .ok tx => if tx.out.confirmed = o.counted then some tx else none
  | .error _ => none

/-- The rest of `apply_sweep`, up to its commit. -/
def finish (db : Db) : Option Db :=
  match o.recount db with
  | none => none
  | some mid =>
      match o.selected.foldlM (resolveLeftover o.chain o.canonical) mid with
      | .error _ => none
      | .ok tx =>
          match flushStats o.chain tx with
          | .ok db => some (setCursor db o.chain.chainId o.toBlock)
          | .error _ => none

end OpenSweep

/-- A transaction that has the row of a cursor `FOR UPDATE`. -/
inductive CursorTx
  | sweep (o : OpenSweep)
  /-- A fast-forward that has made up its mind where to. -/
  | forward (cursor newCursor : Nat)

/-- The database after the commit of a transaction on the cursor of `c`. -/
def CursorTx.finish (c : Nat) (db : Db) : CursorTx → Db
  | .sweep o => (o.finish db).getD db
  | .forward _ newCursor => setCursor db c newCursor

/-- Where the transaction will leave the cursor. -/
def CursorTx.reach : CursorTx → Nat
  | .sweep o => o.toBlock
  | .forward _ newCursor => newCursor

/-! ## The server -/

/-- The database and, by chain, the transaction that has the row of its
cursor. -/
structure Server where
  db : Db := .empty
  txs : Nat → Option CursorTx := fun _ => none

inductive ServerStep
  | op (op : Op)
  | select (chain : ChainSpec) (cache : WatchCache) (expectedCursor toBlock : Nat) (logs : List Log)
  | forward (chainId target : Nat)
  | commit (chainId : Nat)
  | abort (chainId : Nat)

/-- The operation that a step runs or begins. -/
def ServerStep.op? : ServerStep → Option Op
  | .op o => some o
  | .select chain cache expectedCursor toBlock logs =>
      some (.applySweep chain cache expectedCursor toBlock logs)
  | .forward chainId target => some (.fastForwardCursor chainId target)
  | .commit _ | .abort _ => none

/-- The chain whose cursor an operation locks. -/
def Op.cursorOf : Op → Option Nat
  | .createWatch _ new => some new.chainId
  | .commitWatch _ _ new => some new.chainId
  | .applySweep chain _ _ _ _ => some chain.chainId
  | .fastForwardCursor chainId _ => some chainId
  | _ => none

namespace Server

variable (s : Server)

/-- An operation waits for a transaction that has the row of the cursor it
needs. -/
def runOp (op : Op) : Server :=
  if (op.cursorOf.bind s.txs).isSome then s else { s with db := exec s.db op }

def select (chain : ChainSpec) (cache : WatchCache) (expectedCursor toBlock : Nat)
    (logs : List Log) : Server :=
  match s.txs chain.chainId, OpenSweep.read s.db chain cache expectedCursor toBlock logs with
  | none, some o => { s with txs := Function.update s.txs chain.chainId (some (.sweep o)) }
  | _, _ => s

def forward (chainId target : Nat) : Server :=
  match s.txs chainId, s.db.cursors.get? chainId with
  | none, some cur =>
      let newCursor := forwarded s.db chainId cur.confirmedBlock target
      { s with txs := Function.update s.txs chainId (some (.forward cur.confirmedBlock newCursor)) }
  | _, _ => s

def commit (chainId : Nat) : Server :=
  match s.txs chainId with
  | some tx => ⟨tx.finish chainId s.db, Function.update s.txs chainId none⟩
  | none => s

def step : ServerStep → Server
  | .op o => s.runOp o
  | .select chain cache expectedCursor toBlock logs => s.select chain cache expectedCursor toBlock logs
  | .forward chainId target => s.forward chainId target
  | .commit chainId => s.commit chainId
  | .abort chainId => { s with txs := Function.update s.txs chainId none }

end Server

/-- The rows that a sweep has read are what they were when it commits. -/
def ServerStep.Undisturbed (s : Server) : ServerStep → Prop
  | .commit chainId =>
      match s.txs chainId with
      | some (.sweep o) => ∀ t ∈ o.selected, s.db.transfers.get? t.key = some t
      | _ => True
  | _ => True

instance (s : Server) (i : ServerStep) : Decidable (i.Undisturbed s) := by
  unfold ServerStep.Undisturbed
  split
  · split <;> infer_instance
  · infer_instance

/-! ## Operations are steps -/

theorem run_op (ops : List Op) :
    run Server.step {} (ops.map .op) = { db := run exec Db.empty ops } := by
  suffices h : ∀ db, run Server.step { db } (ops.map .op) = { db := run exec db ops } from h Db.empty
  intro db
  induction ops generalizing db with
  | nil => rfl
  | cons op ops ih =>
      rw [List.map_cons, run_cons, run_cons, ← ih]
      congr 1
      have hnone : op.cursorOf.bind ({ db } : Server).txs = none := by
        cases op.cursorOf <;> rfl
      rw [Server.step, Server.runOp, hnone]
      rfl

theorem along_op {ok : Server → ServerStep → Prop} {ops : List Op}
    (h : Along exec (fun db op => ok { db } (.op op)) Db.empty ops) :
    Along Server.step ok {} (ops.map .op) := by
  refine along_iff_forall.mpr fun pre i post heq => ?_
  obtain ⟨before, rest, rfl, rfl, hrest⟩ := List.map_eq_append_iff.mp heq
  obtain ⟨op, after, rfl, rfl, -⟩ := List.map_eq_cons_iff.mp hrest
  rw [run_op]
  exact along_iff_forall.mp h before op after rfl

/-- Operations in one step are not disturbed. -/
theorem undisturbed_op (ops : List Op) :
    Along Server.step (fun s i => i.Undisturbed s) {} (ops.map .op) :=
  along_op (along_iff_forall.mpr fun _ _ _ _ => trivial)

theorem mem_op? {ops : List Op} {P : Op → Prop} (h : ∀ op ∈ ops, P op) :
    ∀ i ∈ ops.map ServerStep.op, ∀ op ∈ i.op?, P op := by
  intro i hi op hop
  obtain ⟨o, ho, rfl⟩ := List.mem_map.mp hi
  obtain rfl := Option.some.inj hop
  exact h o ho

namespace OpenSweep

variable {o : OpenSweep}

/-- The part of the transaction that has run can be run again on the present
rows. -/
theorem recount_eq_some {mid : SweepTx} (h : o.recount db = some mid) :
    o.counted.foldlM (countConfirmed o.chain) { db, out := { discovered := o.discovered } } = .ok mid ∧
      mid.out.confirmed = o.counted := by
  unfold recount at h
  split at h
  · next tx htx =>
      split at h
      · next hconfirmed =>
          obtain rfl := Option.some.inj h
          exact ⟨htx, hconfirmed⟩
      · contradiction
  · contradiction

/-- It takes the same steps there. -/
theorem recount_trace {mid : SweepTx} (h : o.recount db = some mid) :
    mid.out.confirmed = o.counted ∧ mid.db.cursors = db.cursors ∧
      Trace Step db (o.counted.map (.count o.chain.chainId)) mid.db := by
  obtain ⟨hcount, hconfirmed⟩ := recount_eq_some h
  have htr := (confirmed_countAll hcount).2
  rw [hconfirmed] at htr
  refine ⟨hconfirmed, Trace.cursors htr fun a ha => ?_, htr⟩
  obtain ⟨m, -, rfl⟩ := List.mem_map.mp ha
  simp

/-- The parts of a commit. -/
theorem finish_phases (h : o.finish db = some db') :
    ∃ mid tx d, o.recount db = some mid ∧
      o.selected.foldlM (resolveLeftover o.chain o.canonical) mid = .ok tx ∧
      flushStats o.chain tx = .ok d ∧ db' = setCursor d o.chain.chainId o.toBlock := by
  unfold finish at h
  cases hmid : o.recount db with
  | none => rw [hmid] at h; contradiction
  | some mid =>
      simp only [hmid] at h
      cases htx : o.selected.foldlM (resolveLeftover o.chain o.canonical) mid with
      | error e => rw [htx] at h; contradiction
      | ok tx =>
          simp only [htx] at h
          cases hflush : flushStats o.chain tx with
          | error e => rw [hflush] at h; contradiction
          | ok d =>
              rw [hflush] at h
              exact ⟨mid, tx, d, rfl, htx, hflush, (Option.some.inj h).symm⟩

/-- What a commit has done to the row of a log. -/
inductive Settled (o : OpenSweep) (db db' : Db) (log : LogId) : Prop
  | counted {m : MatchedTransfer} (mem : m ∈ o.counted) (logId : m.logId o.chain.chainId = log)
      (confirmed : db'.Confirmed log) (row : ∀ t, db.transfers.get? log = some t →
        db'.transfers.get? log = some (t.withStatus .confirmed))
  | resolved {t : Transfer} (mem : t ∈ o.selected) (key : t.key = log)
      (row : db'.transfers.get? log =
        (db.transfers.get? log).map (·.withStatus (t.resolved o.canonical).status))
  | kept (counted : ∀ m ∈ o.counted, m.logId o.chain.chainId ≠ log)
      (selected : ∀ t ∈ o.selected, t.key ≠ log)
      (row : db'.transfers.get? log = db.transfers.get? log)

/-- **What a commit does to the rows**, whatever became of them since they were
read. -/
theorem finish_rows (h : o.finish db = some db') (log : LogId) : Settled o db db' log := by
  obtain ⟨mid, tx, d, hmid, htx, hflush, rfl⟩ := finish_phases h
  obtain ⟨stats, rfl⟩ := flushStats_frame hflush
  rcases count_rows (recount_trace hmid).2.2 log with ⟨hconfirmed, ⟨m, hm, hlog⟩, hrow⟩ | ⟨hne, hsame⟩
  · rcases resolveAll_rows htx log with ⟨t, ht, hkey, -⟩ | ⟨-, hkeep⟩
    · exact absurd (hlog.trans hkey.symm) (o.apart m hm t ht)
    · refine .counted hm hlog ?_ fun t ht => hkeep.trans (hrow t ht)
      have hd : tx.db.Confirmed log := by
        rw [Db.Confirmed, HasStatus, hkeep]
        exact hconfirmed
      exact hd
  · rcases resolveAll_rows htx log with ⟨t, ht, hkey, hrow⟩ | ⟨hout, hkeep⟩
    · exact .resolved ht hkey (by rw [← hsame]; exact hrow)
    · exact .kept hne hout (hkeep.trans hsame)

/-- A commit moves its cursor and no other. -/
theorem finish_cursors (h : o.finish db = some db') :
    db'.cursors = (setCursor db o.chain.chainId o.toBlock).cursors := by
  obtain ⟨mid, tx, d, hmid, htx, hflush, rfl⟩ := finish_phases h
  obtain ⟨stats, rfl⟩ := flushStats_frame hflush
  have hcursors : tx.db.cursors = mid.db.cursors :=
    foldlM_ok (fun _ (tx : SweepTx) => tx.db.cursors = mid.db.cursors)
      (fun _ _ _ _ hs hok => (resolveLeftover_resolves hok).cursors.trans hs) rfl htx
  change tx.db.cursors.replace _ = db.cursors.replace _
  rw [hcursors, (recount_trace hmid).2.1]

/-- The rows that were read are still pending after the counting. -/
theorem lists_selected {mid : SweepTx} (undisturbed : ∀ t ∈ o.selected, db.transfers.get? t.key = some t)
    (hmid : o.recount db = some mid) :
    mid.db.transfers.Lists (Leftover o.chain.chainId) o.selected where
  nodup := o.distinct
  found t ht := by
    rcases count_rows (recount_trace hmid).2.2 t.key with ⟨-, ⟨m, hm, hlog⟩, -⟩ | ⟨-, hsame⟩
    · exact absurd hlog (o.apart m hm t ht)
    · exact hsame.trans (undisturbed t ht)
  sat := o.leftover

/-- **An undisturbed commit**: what was counted is counted, and what was read is
resolved. -/
theorem finish_trace (undisturbed : ∀ t ∈ o.selected, db.transfers.get? t.key = some t)
    (h : o.finish db = some db') :
    Trace Step db (o.counted.map (.count o.chain.chainId) ++
      o.selected.map (resolveAct o.canonical) ++ [.moveCursor]) db' := by
  obtain ⟨mid, tx, d, hmid, htx, hflush, rfl⟩ := finish_phases h
  obtain ⟨stats, rfl⟩ := flushStats_frame hflush
  have hresolve := (resolveAll_trace (lists_selected undisturbed hmid) htx).1
  have hmove : Step tx.db .moveCursor (setCursor { tx.db with stats } o.chain.chainId o.toBlock) :=
    .moveCursor rfl rfl rfl rfl
  exact ((recount_trace hmid).2.2.append hresolve).append (.single hmove)

/-- What a sweep that has read knows. -/
theorem read_eq_some {cache : WatchCache} {expectedCursor toBlock : Nat} {logs : List Log}
    (h : read db chain cache expectedCursor toBlock logs = some o) :
    db.CursorAt chain.chainId expectedCursor ∧ o.chain = chain ∧
      o.cache = (deltaLoad db chain cache).1 ∧ o.discovered = (deltaLoad db chain cache).2 ∧
      o.cursor = expectedCursor ∧ o.toBlock = toBlock ∧ o.logs = logs ∧
      ∃ mid, (sweepMatches chain (deltaLoad db chain cache).1 logs).foldlM (countConfirmed chain)
          { db, out := { discovered := (deltaLoad db chain cache).2 } } = .ok mid ∧
        o.counted = mid.out.confirmed ∧ o.selected = leftovers mid.db chain.chainId toBlock := by
  unfold read at h
  split at h
  · rename_i hat
    split at h
    · rename_i mid hmid
      cases h
      exact ⟨hat, rfl, rfl, rfl, rfl, rfl, rfl, mid, hmid, rfl, rfl⟩
    · contradiction
  · contradiction

/-- A sweep that cannot read changes nothing. -/
theorem exec_of_read_none {cache : WatchCache} {expectedCursor toBlock : Nat} {logs : List Log}
    (h : read db chain cache expectedCursor toBlock logs = none) :
    exec db (.applySweep chain cache expectedCursor toBlock logs) = db := by
  rcases applySweep_cases db chain cache expectedCursor toBlock logs with
    ⟨tx, d, hcur, htx, -, -⟩ | ⟨actual, -, he⟩ | he | ⟨e, -, he⟩
  · obtain ⟨mid, hmid, -⟩ := sweepTx_phases htx
    have hat : db.CursorAt chain.chainId expectedCursor := hcur
    unfold read at h
    rw [if_pos hat] at h
    split at h
    · contradiction
    · rename_i e he
      rw [hmid] at he
      contradiction
  all_goals simp only [exec, he, committed]

/-- Finishing at once is the sweep. -/
theorem finish_read {cache : WatchCache} {expectedCursor toBlock : Nat} {logs : List Log}
    (h : read db chain cache expectedCursor toBlock logs = some o) :
    (o.finish db).getD db = exec db (.applySweep chain cache expectedCursor toBlock logs) := by
  obtain ⟨hat, rfl, hcache, hdiscovered, rfl, rfl, rfl, mid, hmid, hcounted, hselected⟩ :=
    read_eq_some h
  have hrecount : o.recount db = some mid := by
    obtain ⟨cs, hout, hcs⟩ := countAll_again hmid
    rw [List.nil_append] at hout
    unfold recount
    rw [hdiscovered, hcounted, hout, hcs]
    exact if_pos hout
  have hsweep : sweepTx db o.chain (deltaLoad db o.chain cache).1 (deltaLoad db o.chain cache).2
      o.toBlock o.logs = o.selected.foldlM (resolveLeftover o.chain o.canonical) mid := by
    rw [sweepTx, hmid, hselected, canonical, hcache]
    rfl
  unfold finish
  simp only [hrecount]
  cases htx : o.selected.foldlM (resolveLeftover o.chain o.canonical) mid with
  | error e =>
      simp only [Option.getD_none, exec, applySweep, show db.cursors.get? o.chain.chainId = _ from hat,
        ne_eq, not_true_eq_false, if_false, sweepRest, hsweep, htx, bind, Except.bind, committed]
  | ok tx =>
      cases hflush : flushStats o.chain tx with
      | error e =>
          simp only [hflush, exec, applySweep_of_flush_error hat (hsweep.trans htx) hflush, committed,
            Option.getD_none]
      | ok d =>
          simp only [hflush, exec, applySweep_of_ok hat (hsweep.trans htx) hflush, committed,
            Option.getD_some]

end OpenSweep

/-- **A sweep in two halves with nothing in between is `apply_sweep`.** -/
theorem select_commit {s : Server} {cache : WatchCache} {expectedCursor toBlock : Nat} {logs : List Log}
    (free : s.txs chain.chainId = none) :
    run Server.step s [.select chain cache expectedCursor toBlock logs, .commit chain.chainId] =
      s.step (.op (.applySweep chain cache expectedCursor toBlock logs)) := by
  have hrun : s.step (.op (.applySweep chain cache expectedCursor toBlock logs)) =
      { s with db := exec s.db (.applySweep chain cache expectedCursor toBlock logs) } := by
    rw [Server.step, Server.runOp, Op.cursorOf, Option.bind_some, free]
    rfl
  rw [hrun, run_cons, run_cons, run_nil, Server.step, Server.select, free]
  cases hread : OpenSweep.read s.db chain cache expectedCursor toBlock logs with
  | none =>
      simp only [Server.step, Server.commit, free]
      rw [OpenSweep.exec_of_read_none hread]
  | some o =>
      simp only [Server.step, Server.commit, Function.update_self, CursorTx.finish]
      rw [OpenSweep.finish_read hread, Function.update_idem, ← free, Function.update_eq_self]

/-! ## Traces -/

/-- The steps of the store that a step of the server may be made of. -/
def ServerStep.Allows (s : Server) : ServerStep → Act → Prop
  | .op o, a => o.Allows s.db a
  | .commit c, .count chainId m =>
      ∃ o, s.txs c = some (.sweep o) ∧ chainId = o.chain.chainId ∧ m ∈ o.counted
  | .commit c, .ignore t => ∃ o, s.txs c = some (.sweep o) ∧ t ∈ o.selected
  | .commit c, .orphan t => ∃ o, s.txs c = some (.sweep o) ∧ t ∈ o.selected ∧
      (t.blockHash, t.logIndex) ∉ o.canonical
  | .commit _, .moveCursor => True
  | _, _ => False

namespace Server

variable {s : Server} {i : ServerStep}

/-- What a step may do to the database. -/
inductive Yields (s : Server) : ServerStep → Db → Prop
  | idle {i : ServerStep} : Yields s i s.db
  | runs {op : Op} (free : ∀ c ∈ op.cursorOf, s.txs c = none) : Yields s (.op op) (exec s.db op)
  | sweeps {c : Nat} {o : OpenSweep} {db : Db} (tx : s.txs c = some (.sweep o))
      (finish : o.finish s.db = some db) : Yields s (.commit c) db
  | forwards {c cursor newCursor : Nat} (tx : s.txs c = some (.forward cursor newCursor)) :
      Yields s (.commit c) (setCursor s.db c newCursor)

/-- **What one step of the server can do to the database.** -/
theorem step_yields (s : Server) (i : ServerStep) : Yields s i (s.step i).db := by
  cases i with
  | op o =>
      rw [step, runOp]
      split
      · exact .idle
      · rename_i hfree
        refine .runs fun c hc => ?_
        rw [Option.mem_def.mp hc, Option.bind_some] at hfree
        simpa using hfree
  | select chain cache expectedCursor toBlock logs =>
      rw [step, select]
      split <;> exact .idle
  | forward c target =>
      rw [step, forward]
      split <;> exact .idle
  | commit c =>
      rw [step, commit]
      cases htx : s.txs c with
      | none => exact .idle
      | some tx =>
          cases tx with
          | sweep o =>
              change Yields s (.commit c) ((o.finish s.db).getD s.db)
              cases hfinish : o.finish s.db with
              | none => exact .idle
              | some db => exact .sweeps htx hfinish
          | forward cursor newCursor => exact .forwards htx
  | abort c => exact .idle

/-- **A step of the server is a trace of steps of the store**, unless the rows a
sweep has read have changed. -/
theorem step_trace (undisturbed : i.Undisturbed s) :
    ∃ acts, Trace Step s.db acts (s.step i).db ∧ ∀ a ∈ acts, i.Allows s a := by
  have hyields := step_yields s i
  generalize (s.step i).db = db at hyields ⊢
  cases hyields with
  | idle => exact ⟨[], .nil _, fun _ ha => by contradiction⟩
  | @runs op _ =>
      obtain ⟨acts, htr, -, hallow⟩ := exec_trace s.db op
      exact ⟨acts, htr, hallow⟩
  | @sweeps c o _ tx finish =>
      have hrows : ∀ t ∈ o.selected, s.db.transfers.get? t.key = some t := by
        simpa only [ServerStep.Undisturbed, tx] using undisturbed
      refine ⟨_, OpenSweep.finish_trace hrows finish, fun a ha => ?_⟩
      rcases List.mem_append.mp ha with ha | ha
      · rcases List.mem_append.mp ha with ha | ha
        · obtain ⟨m, hm, rfl⟩ := List.mem_map.mp ha
          exact ⟨o, tx, rfl, hm⟩
        · obtain ⟨t, ht, rfl⟩ := List.mem_map.mp ha
          unfold resolveAct
          split
          · exact ⟨o, tx, ht⟩
          · exact ⟨o, tx, ht, ‹_›⟩
      · rw [List.mem_singleton.mp ha]
        trivial
  | @forwards c cursor newCursor tx =>
      have hmove : Step s.db .moveCursor (setCursor s.db c newCursor) := .moveCursor rfl rfl rfl rfl
      refine ⟨[.moveCursor], .single hmove, fun a ha => ?_⟩
      rw [List.mem_singleton.mp ha]
      trivial

/-- So is a run without disturbed commits. -/
theorem run_trace {steps : List ServerStep}
    (undisturbed : Along Server.step (fun s i => i.Undisturbed s) s steps) :
    ∃ acts, Trace Step s.db acts (run Server.step s steps).db := by
  induction steps generalizing s with
  | nil => exact ⟨[], .nil _⟩
  | cons i steps ih =>
      obtain ⟨acts, htr, -⟩ := step_trace undisturbed.1
      obtain ⟨acts', htr'⟩ := ih undisturbed.2
      exact ⟨acts ++ acts', htr.append htr'⟩

/-- What every step of the store keeps holds after such a run. -/
theorem run_invariant (P : Db → Prop) (hstep : ∀ db a db', Step db a db' → P db → P db')
    (h0 : P s.db) {steps : List ServerStep}
    (undisturbed : Along Server.step (fun s i => i.Undisturbed s) s steps) :
    P (run Server.step s steps).db := by
  obtain ⟨acts, htr⟩ := run_trace undisturbed
  exact htr.invariant P hstep h0

end Server

/-! ## Cursors -/

/-- An operation that does not lock the row of a cursor does not move it. -/
theorem exec_cursorAt_of_ne {op : Op} {c k : Nat} (h : op.cursorOf ≠ some c) (hat : db.CursorAt c k) :
    (exec db op).CursorAt c k := by
  have hkeep : ¬ op.Allows db .moveCursor → (exec db op).CursorAt c k := fun hno => by
    rw [Db.CursorAt, exec_cursors hno]
    exact hat
  cases op with
  | ensureCursor c' head =>
      have hforward : (Op.ensureCursor c' head).Forward := trivial
      obtain ⟨k', hat', htiles⟩ := exec_moves hforward hat
      obtain rfl : k = k' := htiles
      exact hat'
  | applySweep chain cache expectedCursor toBlock logs =>
      have hne : chain.chainId ≠ c := fun heq => h (congrArg some heq)
      simp only [exec]
      rcases applySweep_cases db chain cache expectedCursor toBlock logs with
        ⟨tx, d, -, htx, hflush, he⟩ | ⟨actual, -, he⟩ | he | ⟨e, -, he⟩
      · simp only [he, committed]
        exact Db.cursorAt_setCursor_of_ne (sweepTx_cursorAt htx hflush hat) hne toBlock
      all_goals
        simp only [he, committed]
        exact hat
  | fastForwardCursor c' target =>
      have hne : c' ≠ c := fun heq => h (congrArg some heq)
      simp only [exec, fastForwardCursor]
      split
      · exact hat
      · simp only [committed]
        split
        · exact Db.cursorAt_setCursor_of_ne hat hne _
        · exact hat
  | createWatch _ _ => exact hkeep id
  | commitWatch _ _ _ => exact hkeep id
  | cancelWatch _ => exact hkeep id
  | expireWatches _ _ _ => exact hkeep id
  | recordPending _ _ => exact hkeep id
  | applyBackfill _ _ _ _ => exact hkeep id
  | tick _ => exact hkeep id
  | draw _ => exact hkeep id

/-- What an open transaction relies on: the cursor stays where it is. -/
def CursorTx.Holds (c : Nat) (db : Db) : CursorTx → Prop
  | .sweep o => o.chain.chainId = c ∧ db.CursorAt c o.cursor
  | .forward cursor newCursor => db.CursorAt c cursor ∧ cursor ≤ newCursor

namespace CursorTx.Holds

variable {c : Nat} {tx : CursorTx}

/-- It is about the cursors of the database only. -/
theorem congr (h : tx.Holds c db) (hat : ∀ k, db.CursorAt c k → db'.CursorAt c k) : tx.Holds c db' := by
  cases tx with
  | sweep o => exact ⟨h.1, hat _ h.2⟩
  | forward cursor newCursor => exact ⟨hat _ h.1, h.2⟩

/-- A commit leaves the cursors of other chains alone. -/
theorem finish_of_ne {c' k : Nat} (h : tx.Holds c db) (hne : c ≠ c') (hat : db.CursorAt c' k) :
    (tx.finish c db).CursorAt c' k := by
  cases tx with
  | sweep o =>
      change ((o.finish db).getD db).CursorAt c' k
      cases hfinish : o.finish db with
      | none => exact hat
      | some d =>
          rw [Option.getD_some, Db.CursorAt, OpenSweep.finish_cursors hfinish, h.1]
          exact Db.cursorAt_setCursor_of_ne hat hne o.toBlock
  | forward cursor newCursor => exact Db.cursorAt_setCursor_of_ne hat hne newCursor

/-- A commit takes its cursor where it said, or changes nothing. -/
theorem finish_self (h : tx.Holds c db) :
    (tx.finish c db).CursorAt c tx.reach ∨ tx.finish c db = db := by
  cases tx with
  | sweep o =>
      change ((o.finish db).getD db).CursorAt c o.toBlock ∨ (o.finish db).getD db = db
      cases hfinish : o.finish db with
      | none => exact .inr rfl
      | some d =>
          refine .inl ?_
          rw [Option.getD_some, Db.CursorAt, OpenSweep.finish_cursors hfinish, h.1]
          exact Db.cursorAt_setCursor h.2 o.toBlock
  | forward cursor newCursor => exact .inl (Db.cursorAt_setCursor h.1 newCursor)

end CursorTx.Holds

namespace Server

variable {s : Server} {i : ServerStep}

/-- Every open transaction has its cursor. -/
def Holds (s : Server) : Prop := ∀ c tx, s.txs c = some tx → tx.Holds c s.db

/-- **No step moves a cursor under an open transaction.** -/
theorem Holds.step (inv : s.Holds) (i : ServerStep) : (s.step i).Holds := by
  -- a transaction begins, or all go on
  have hbegin : ∀ c' tx', tx'.Holds c' s.db →
      Holds { s with txs := Function.update s.txs c' (some tx') } := by
    intro c' tx' hnew c tx htx
    change Function.update s.txs c' (some tx') c = some tx at htx
    by_cases hc : c = c'
    · subst hc
      rw [Function.update_self] at htx
      exact Option.some.inj htx ▸ hnew
    · rw [Function.update_of_ne hc] at htx
      exact inv c tx htx
  have hend : ∀ c' c tx, Function.update s.txs c' none c = some tx → c ≠ c' ∧ s.txs c = some tx := by
    intro c' c tx htx
    by_cases hc : c = c'
    · subst hc
      rw [Function.update_self] at htx
      contradiction
    · rw [Function.update_of_ne hc] at htx
      exact ⟨hc, htx⟩
  cases i with
  | op o =>
      rw [Server.step, runOp]
      split
      · exact inv
      · rename_i hfree
        intro c tx htx
        refine (inv c tx htx).congr fun k hat => exec_cursorAt_of_ne (fun heq => hfree ?_) hat
        rw [heq, Option.bind_some, show s.txs c = some tx from htx]
        rfl
  | select chain cache expectedCursor toBlock logs =>
      rw [Server.step, select]
      split
      · rename_i o _ hread
        obtain ⟨hat, hchain, -, -, hcursor, -⟩ := OpenSweep.read_eq_some hread
        exact hbegin chain.chainId (.sweep o) ⟨by rw [hchain], by rw [hcursor]; exact hat⟩
      · exact inv
  | forward c target =>
      rw [Server.step, forward]
      split
      · rename_i cur _ hcur
        have hkey : cur.chainId = c := Table.key_of_get? hcur
        refine hbegin c _ ⟨?_, le_forwarded _ _ _ _⟩
        rw [Db.CursorAt, hcur, ← hkey]
      · exact inv
  | commit c' =>
      rw [Server.step, commit]
      split
      · rename_i tx' htx'
        intro c tx htx
        obtain ⟨hne, htx⟩ := hend c' c tx htx
        exact (inv c tx htx).congr fun k hat => (inv c' tx' htx').finish_of_ne (Ne.symm hne) hat
      · exact inv
  | abort c' => exact fun c tx htx => inv c tx (hend c' c tx htx).2

/-- So it is in every run. -/
theorem holds_run (steps : List ServerStep) : (run Server.step {} steps).Holds :=
  invariant_run Holds (fun _ i inv => inv.step i) (fun _ _ htx => by contradiction) steps

/-- The sweeps that are open are sweeps that were begun. -/
theorem opened_step {P : OpenSweep → Prop} {c : Nat} {o : OpenSweep}
    (inv : ∀ c o, s.txs c = some (.sweep o) → P o)
    (hread : ∀ chain cache expectedCursor toBlock logs,
      i = .select chain cache expectedCursor toBlock logs → ∀ o,
        OpenSweep.read s.db chain cache expectedCursor toBlock logs = some o → P o)
    (ho : (s.step i).txs c = some (.sweep o)) : P o := by
  have hupdate : ∀ c' tx', (∀ o, tx' = some (.sweep o) → P o) →
      Function.update s.txs c' tx' c = some (.sweep o) → P o := by
    intro c' tx' hnew htx
    by_cases hc : c = c'
    · subst hc
      rw [Function.update_self] at htx
      exact hnew o htx
    · rw [Function.update_of_ne hc] at htx
      exact inv c o htx
  cases i with
  | op _ =>
      rw [step, runOp] at ho
      split at ho <;> exact inv c o ho
  | select chain cache expectedCursor toBlock logs =>
      rw [step, select] at ho
      split at ho
      · rename_i o' _ ho'
        refine hupdate _ _ (fun o'' heq => ?_) ho
        cases heq
        exact hread _ _ _ _ _ rfl o' ho'
      · exact inv c o ho
  | forward c' target =>
      rw [step, forward] at ho
      split at ho
      · exact hupdate _ _ (fun _ heq => by cases heq) ho
      · exact inv c o ho
  | commit c' =>
      rw [step, commit] at ho
      split at ho
      · exact hupdate _ _ (fun _ heq => by contradiction) ho
      · exact inv c o ho
  | abort c' => exact hupdate _ _ (fun _ heq => by contradiction) ho

/-- The sweeps that are open have been promised `P`. -/
def Opens (P : Op → Prop) (s : Server) : Prop := ∀ c o, s.txs c = some (.sweep o) → P o.op

/-- What is promised of the sweeps that are begun holds of those that are open,
if it is not about the cache. -/
theorem Opens.step {P : Op → Prop}
    (hcache : ∀ chain cache cache' expectedCursor toBlock logs,
      P (.applySweep chain cache expectedCursor toBlock logs) →
        P (.applySweep chain cache' expectedCursor toBlock logs))
    (h : ∀ op ∈ i.op?, P op) (inv : s.Opens P) : (s.step i).Opens P := by
  intro c o ho
  refine opened_step inv (fun chain cache expectedCursor toBlock logs heq o ho => ?_) ho
  obtain ⟨-, rfl, -, -, rfl, rfl, rfl, -⟩ := OpenSweep.read_eq_some ho
  exact hcache _ _ _ _ _ _ (h _ (by rw [heq]; rfl))

theorem opens_empty (P : Op → Prop) : ({} : Server).Opens P := fun _ _ ho => by contradiction

/-- What is promised of all sweeps of a run holds of those that are open. -/
theorem opens_run {P : Op → Prop} {steps : List ServerStep}
    (hcache : ∀ chain cache cache' expectedCursor toBlock logs,
      P (.applySweep chain cache expectedCursor toBlock logs) →
        P (.applySweep chain cache' expectedCursor toBlock logs))
    (h : ∀ i ∈ steps, ∀ op ∈ i.op?, P op) : (run Server.step {} steps).Opens P :=
  invariant_mem (Opens P) (fun _ i hi inv => inv.step hcache (h i hi)) (opens_empty P)

/-- Sweeps cover at least one block: what the cursor has passed it has passed
for good. -/
theorem passed_step {c b : Nat} (holds : s.Holds) (forward : ∀ op ∈ i.op?, op.Forward)
    (opens : s.Opens Op.Forward) (inv : s.db.Passed c b) :
    (s.step i).db.Passed c b := by
  have hyields := step_yields s i
  generalize (s.step i).db = db at hyields ⊢
  cases hyields with
  | idle => exact inv
  | runs _ => exact inv.exec (forward _ rfl)
  | @sweeps c' o _ tx finish =>
      obtain ⟨k, hat, hle⟩ := inv
      have hholds := holds c' _ tx
      have hdb : CursorTx.finish c' s.db (.sweep o) = db := by rw [CursorTx.finish, finish]; rfl
      by_cases hc : c' = c
      · subst hc
        obtain rfl := hat.unique hholds.2
        refine ⟨o.toBlock, ?_, hle.trans (Nat.le_of_lt (opens c' o tx))⟩
        rw [Db.CursorAt, OpenSweep.finish_cursors finish, hholds.1]
        exact Db.cursorAt_setCursor hat o.toBlock
      · exact ⟨k, hdb ▸ hholds.finish_of_ne hc hat, hle⟩
  | @forwards c' cursor newCursor tx =>
      obtain ⟨k, hat, hle⟩ := inv
      have hholds := holds c' _ tx
      by_cases hc : c' = c
      · subst hc
        obtain rfl := hat.unique hholds.1
        exact ⟨newCursor, Db.cursorAt_setCursor hat newCursor, hle.trans hholds.2⟩
      · exact ⟨k, Db.cursorAt_setCursor_of_ne hat hc newCursor, hle⟩

/-- What the cursor has passed is passed for the rest of the run. -/
theorem passed_run {c b : Nat} {pre later : List ServerStep}
    (forward : ∀ i ∈ pre ++ later, ∀ op ∈ i.op?, op.Forward)
    (inv : (run Server.step {} pre).db.Passed c b) : (run Server.step {} (pre ++ later)).db.Passed c b := by
  induction later using List.reverseRecOn with
  | nil => rwa [List.append_nil]
  | append_singleton later i ih =>
      rw [← List.append_assoc, run_append, run_cons, run_nil]
      have hbefore : ∀ i ∈ pre ++ later, ∀ op ∈ i.op?, op.Forward := fun i hi =>
        forward i (by rw [← List.append_assoc]; exact List.mem_append_left _ hi)
      exact passed_step (holds_run _) (forward i (by simp))
        (opens_run (fun _ _ _ _ _ _ h => h) hbefore) (ih hbefore)

end Server

end GumIndexer
