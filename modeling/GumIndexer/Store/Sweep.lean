import GumIndexer.Store

/-!
# GumIndexer.Store.Sweep

The accounting transactions: `recordPending` (head path, best effort),
`applySweep` (authoritative; the place where amounts are counted and the
durable cursor advances), `applyBackfill` (the same counting for blocks swept
before a watch existed) and `fastForwardCursor`.

The two counting transactions share the loop over `countConfirmed`, run on a
`SweepTx`: the uncommitted database together with the statistics and the
outcome accumulated so far.  An error anywhere drops the whole `SweepTx`.  The
cache is shared memory, not part of the transaction: what the delta load
inserted stays there when the transaction fails.
-/

namespace GumIndexer

open Base

/-! ## Statements -/

/-- `UPDATE watches SET … WHERE id = $1`. -/
def setWatch (db : Db) (id : Uuid) (set : Watch → Watch) : Db :=
  match db.watches.get? id with
  | some w => db.putWatch (set w)
  | none => db

/-- `UPDATE transfers SET status = … WHERE id = $1`, whatever its status is by
now.  The row of a log is never deleted, so the log stands for the id. -/
def setTransfer (db : Db) (log : LogId) (status : TransferStatus) : Db :=
  match db.transfers.get? log with
  | some t => db.putTransfer (t.withStatus status)
  | none => db

/-- `UPDATE watches SET … WHERE id = $1 RETURNING *`, read with `fetch_one`. -/
def updateWatch (db : Db) (id : Uuid) (set : Watch → Watch) : Except StoreError (WatchRow × Db) :=
  match db.watches.get? id with
  | some w => do
      let watch ← WatchRow.fromRow (set w)
      return (watch, db.putWatch (set w))
  | none => .error (.db .rowNotFound)

/-- `lock_active_watch`: lock the watch, bump its event sequence and return
it, or `none` if it is no longer active. -/
def lockActiveWatch (db : Db) (id : Uuid) : Except StoreError (Option WatchRow × Db) :=
  match db.watches.get? id with
  | some w =>
      if w.status = .active then do
        let watch ← WatchRow.fromRow w.bump
        return (some watch, db.putWatch w.bump)
      else return (none, db)
  | none => return (none, db)

/-- `transfer_view`. -/
def transferView (m : MatchedTransfer) (status : TransferStatus) : TransferView where
  txHash := m.txHash
  logIndex := m.logIndex
  blockNumber := m.blockNumber
  blockHash := m.blockHash
  src := m.src
  amount := m.amount
  status := status

/-- The `transfers` row of a match. -/
def MatchedTransfer.row (m : MatchedTransfer) (chainId : Nat) (watchId : Uuid)
    (status : TransferStatus) : Transfer where
  chainId := chainId
  blockHash := m.blockHash
  logIndex := m.logIndex
  blockNumber := m.blockNumber
  txHash := m.txHash
  watchId := watchId
  fromAddress := m.src
  amount := m.amount.toNat
  status := status

/-! ## The head path -/

/-- `record_pending`; false when the transfer was already known or the watch
is no longer active. -/
def recordPending (db : Db) (chain : ChainSpec) (m : MatchedTransfer) :
    Except StoreError (Bool × Db) := do
  match ← lockActiveWatch db m.watch.id with
  | (none, _) => return (false, db)
  | (some watch, locked) =>
      match locked.transfers.insertNew (m.row chain.chainId watch.id .pending) with
      | none => return (false, db) -- dropping the transaction rolls the sequence bump back
      | some transfers =>
          let db' ← insertEvent (locked.withTransfers transfers) chain watch .paymentPending
            (some (transferView m .pending))
          return (true, db')

/-! ## Counting -/

structure SweepOutcome where
  /-- Transfers newly counted. -/
  confirmed : List MatchedTransfer := []
  /-- Of `confirmed`, how many had never been announced as pending. -/
  confirmedWithoutPending : Nat := 0
  orphaned : Nat := 0
  ignored : Nat := 0
  /-- Watches retired because the threshold was reached. -/
  completed : List (WatchKey × Uuid) := []
  /-- Watches discovered by the in-transaction delta load. -/
  discovered : List WatchKey := []
  events : Nat := 0
deriving DecidableEq, Repr

inductive SweepResult
  | applied (out : SweepOutcome)
  /-- The cursor is not where the caller read it; nothing was written. -/
  | cursorMoved (expected actual : Nat)
deriving DecidableEq, Repr

/-- An accounting transaction in progress. -/
structure SweepTx where
  db : Db
  stats : Table (Address × StatsDelta) Prod.fst := .empty
  out : SweepOutcome := {}

/-- `stats.entry(token).or_default()`, updated in place. -/
def bumpStats (stats : Table (Address × StatsDelta) Prod.fst) (token : Address)
    (bump : StatsDelta → StatsDelta) : Table (Address × StatsDelta) Prod.fst :=
  stats.upsert (token, bump (((stats.get? token).map Prod.snd).getD {}))

/-- The upsert of `count_confirmed`: insert the row as confirmed, or confirm a
pending one; a row in any other status is left alone and nothing is returned.
The flag is `xmax = 0`, a fresh row.  A confirmed pending row keeps its
`watch_id`. -/
def upsertConfirmed (db : Db) (row : Transfer) : Option (Bool × Db) :=
  match db.transfers.insertNew row with
  | some transfers => some (true, db.withTransfers transfers)
  | none =>
      match db.transfers.get? row.key with
      | some t =>
          if t.status = .pending then some (false, db.putTransfer (t.withStatus .confirmed)) else none
      | none => none

/-- Note a counted transfer: the statistics and the counters of the outcome. -/
def SweepTx.noteCredit (tx : SweepTx) (db : Db) (watch : WatchRow) (m : MatchedTransfer)
    (inserted : Bool) : SweepTx where
  db := db
  stats := bumpStats tx.stats watch.tokenAddress fun d =>
    { d with confirmed := d.confirmed + 1, volume := d.volume + m.amount }
  out := { tx.out with
    confirmedWithoutPending := tx.out.confirmedWithoutPending + if inserted then 1 else 0
    events := tx.out.events + 1 }

/-- Note a watch that reached its threshold. -/
def SweepTx.noteCompleted (tx : SweepTx) (db : Db) (watch : WatchRow) (m : MatchedTransfer) :
    SweepTx where
  db := db
  stats := bumpStats tx.stats watch.tokenAddress fun d => { d with thresholds := d.thresholds + 1 }
  out := { tx.out with
    events := tx.out.events + 1
    completed := tx.out.completed ++ [(⟨m.tokenIdx, m.dst⟩, watch.id)] }

/-- `out.confirmed.push(m)`. -/
def SweepTx.pushConfirmed (tx : SweepTx) (m : MatchedTransfer) : SweepTx :=
  { tx with out := { tx.out with confirmed := tx.out.confirmed ++ [m] } }

/-- The middle part of `count_confirmed`, for a transfer whose row was just
confirmed: add it to the total and queue `payment.confirmed`. -/
def creditWatch (chain : ChainSpec) (tx : SweepTx) (m : MatchedTransfer) (id : Uuid)
    (inserted : Bool) : Except StoreError (WatchRow × SweepTx) := do
  let (watch, db) ← updateWatch tx.db id fun w => w.add m.amount.toNat
  let db ← insertEvent db chain watch .paymentConfirmed (some (transferView m .confirmed))
  return (watch, tx.noteCredit db watch m inserted)

/-- The last part of `count_confirmed`: retire a watch whose total reached its
threshold. -/
def completeWatch (chain : ChainSpec) (tx : SweepTx) (m : MatchedTransfer) (id : Uuid) :
    Except StoreError SweepTx := do
  let (watch, db) ← updateWatch tx.db id fun w => w.bump.withStatus .completed tx.db.now
  let db ← insertEvent db chain watch .thresholdReached none
  return tx.noteCompleted db watch m

/-- Retire the watch if it has reached its threshold, and report the match. -/
def finishCredit (chain : ChainSpec) (m : MatchedTransfer) (watch : WatchRow) (tx : SweepTx) :
    Except StoreError SweepTx := do
  let tx ← if watch.threshold ≤ watch.confirmedAmount then completeWatch chain tx m watch.id
    else pure tx
  return tx.pushConfirmed m

/-- `count_confirmed`: count one canonical transfer against its watch.  A
no-op if the watch is no longer active or the upsert returns no row. -/
def countConfirmed (chain : ChainSpec) (tx : SweepTx) (m : MatchedTransfer) :
    Except StoreError SweepTx := do
  match ← lockActiveWatch tx.db m.watch.id with
  | (none, _) => return tx
  | (some watch, db) =>
      match upsertConfirmed db (m.row chain.chainId watch.id .confirmed) with
      | none => return { tx with db := setWatch db watch.id Watch.unbump }
      | some (inserted, db) =>
          let (watch, tx) ← creditWatch chain { tx with db } m watch.id inserted
          finishCredit chain m watch tx

/-- The matches of the logs a node has not retracted. -/
def matchedOf (chain : ChainSpec) (cache : WatchCache) (logs : List Log) : List MatchedTransfer :=
  (logs.filter fun l => l.removed = false).filterMap fun l => (matchLog chain cache l).toOption

/-- The payments of the logs a node has not retracted. -/
def paymentsOf (chain : ChainSpec) (logs : List Log) : List Payment :=
  (logs.filter fun l => l.removed = false).filterMap (payment? chain)

theorem matchedOf_eq (chain : ChainSpec) (cache : WatchCache) (logs : List Log) :
    matchedOf chain cache logs =
      (paymentsOf chain logs).filterMap (Payment.match? cache false) := by
  rw [matchedOf, paymentsOf, List.filterMap_filterMap]
  apply List.filterMap_congr
  intro l hl
  have hr : l.removed = false := by simpa using (List.mem_filter.mp hl).2
  rw [matchLog_toOption, hr]

theorem mem_matchedOf {chain : ChainSpec} {cache : WatchCache} {logs : List Log}
    {m : MatchedTransfer} :
    m ∈ matchedOf chain cache logs ↔
      ∃ p ∈ paymentsOf chain logs, ∃ watch, cache.get p.key = some watch ∧
        watch.startBlock ≤ p.blockNumber ∧ m = p.toWatch watch false := by
  rw [matchedOf_eq, List.mem_filterMap]
  simp only [Payment.match?_eq_some_iff]

/-- The key of `sort_by_key`, as a lexicographic order. -/
def Before (a b : MatchedTransfer) : Prop :=
  a.blockNumber < b.blockNumber ∨ a.blockNumber = b.blockNumber ∧ a.logIndex ≤ b.logIndex

instance : DecidableRel Before := fun a b =>
  inferInstanceAs (Decidable (a.blockNumber < b.blockNumber ∨
    a.blockNumber = b.blockNumber ∧ a.logIndex ≤ b.logIndex))

/-- Write the accumulated statistics, in the order of the token addresses. -/
def flushStats (chain : ChainSpec) (tx : SweepTx) : Except StoreError Db :=
  (tx.stats.rows.insertionSort fun a b => a.1.toNat ≤ b.1.toNat).foldlM
    (fun db e => applyStats db chain.chainId e.1 e.2) tx.db

/-- Evict the completed watches, after the commit. -/
def evictCompleted (cache : WatchCache) (out : SweepOutcome) : WatchCache :=
  out.completed.foldl (fun cache e => (cache.remove e.1 e.2).1) cache

/-! ## Backfills -/

structure PendingBackfill where
  id : Uuid
  seq : Nat
  tokenAddress : Address
  paymentAddress : Address
  startBlock : Nat
  backfillTo : Nat
deriving DecidableEq, Repr

/-- `pending_backfills`: up to `limit` watches awaiting a backfill, oldest
first; whatever their status. -/
def pendingBackfills (db : Db) (chainId limit : Nat) : List PendingBackfill :=
  ((db.watches.rows.filter fun w => w.chainId = chainId ∧ w.backfillTo.isSome).insertionSort
    (fun a b => a.seq ≤ b.seq) |>.take limit).filterMap fun w =>
      w.backfillTo.map fun b =>
        ⟨w.id, w.seq, w.tokenAddress, w.paymentAddress, w.startBlock, b⟩

/-- The cache and the upper ends that `apply_backfill` matches against. -/
structure BackfillScope where
  cache : WatchCache := .new
  upTo : Table (Uuid × Nat) Prod.fst := .empty

def BackfillScope.add (chain : ChainSpec) (s : BackfillScope) (b : PendingBackfill) : BackfillScope :=
  match chain.tokenByAddress b.tokenAddress with
  | some token =>
      { cache := (s.cache.insert ⟨token.idx, b.paymentAddress⟩ ⟨b.id, b.seq, b.startBlock⟩).1
        upTo := s.upTo.upsert (b.id, b.backfillTo) }
  | none => s

def backfillScope (chain : ChainSpec) (backfills : List PendingBackfill) : BackfillScope :=
  backfills.foldl (BackfillScope.add chain) {}

/-- The transfers a backfill counts, in order. -/
def backfillMatches (chain : ChainSpec) (backfills : List PendingBackfill) (logs : List Log) :
    List MatchedTransfer :=
  let scope := backfillScope chain backfills
  ((matchedOf chain scope.cache logs).filter fun m =>
    (scope.upTo.get? m.watch.id).any fun b => m.blockNumber ≤ b.2).insertionSort Before

theorem mem_backfillMatches {chain : ChainSpec} {backfills : List PendingBackfill}
    {logs : List Log} {m : MatchedTransfer} :
    m ∈ backfillMatches chain backfills logs ↔
      m ∈ matchedOf chain (backfillScope chain backfills).cache logs ∧
        ∃ b, (backfillScope chain backfills).upTo.get? m.watch.id = some b ∧ m.blockNumber ≤ b.2 := by
  rw [backfillMatches, List.mem_insertionSort, List.mem_filter, Option.any_eq_true]
  simp

/-- `UPDATE watches SET backfill_to = NULL WHERE id = ANY($1)`. -/
def clearBackfills (db : Db) (ids : List Uuid) : Db :=
  ids.foldl (fun db id => setWatch db id Watch.backfilled) db

/-- The transaction of `apply_backfill`. -/
def backfillTx (db : Db) (chain : ChainSpec) (backfills : List PendingBackfill) (logs : List Log) :
    Except StoreError SweepTx := do
  let tx ← (backfillMatches chain backfills logs).foldlM (countConfirmed chain) { db }
  return { tx with db := clearBackfills tx.db (backfills.map PendingBackfill.id) }

/-- `apply_backfill`. -/
def applyBackfill (db : Db) (chain : ChainSpec) (cache : WatchCache)
    (backfills : List PendingBackfill) (logs : List Log) :
    WatchCache × Except StoreError (SweepOutcome × Db) :=
  let done : Except StoreError (SweepOutcome × Db) := do
    let tx ← backfillTx db chain backfills logs
    let db ← flushStats chain tx
    return (tx.out, db)
  match done with
  | .ok (out, db) => (evictCompleted cache out, .ok (out, db))
  | .error e => (cache, .error e)

/-! ## The sweep -/

/-- One row of the delta load; a key that was not present is discovered. -/
def loadEntry (acc : WatchCache × List WatchKey) (e : WatchKey × WatchRef) :
    WatchCache × List WatchKey :=
  let (cache, new) := acc.1.insert e.1 e.2
  (cache, if new then acc.2 ++ [e.1] else acc.2)

/-- The delta load: the active rows above `last_seq`, in order. -/
def deltaLoad (db : Db) (chain : ChainSpec) (cache : WatchCache) : WatchCache × List WatchKey :=
  ((activeRows db chain cache.lastSeq).filterMap (slimEntry chain)).foldl loadEntry (cache, [])

/-- The transfers a sweep counts, in order. -/
def sweepMatches (chain : ChainSpec) (cache : WatchCache) (logs : List Log) : List MatchedTransfer :=
  (matchedOf chain cache logs).insertionSort Before

theorem mem_sweepMatches {chain : ChainSpec} {cache : WatchCache} {logs : List Log} {m : MatchedTransfer} :
    m ∈ sweepMatches chain cache logs ↔ m ∈ matchedOf chain cache logs :=
  List.mem_insertionSort _

/-- A log is looked up by its block hash and index. -/
instance instLawfulBEqPlace : LawfulBEq (B256 × Nat) := inferInstance

/-- `all_canonical`: the identities of the logs a node has not retracted. -/
def allCanonical (logs : List Log) : List (B256 × Nat) :=
  (logs.filter fun l => l.removed = false).filterMap fun l =>
    match l.blockHash, l.logIndex with
    | some blockHash, some logIndex => some (blockHash, logIndex)
    | _, _ => none

/-- The identities a leftover is looked up in: those of the matches and those
of all logs. -/
def canonicalOf (chain : ChainSpec) (cache : WatchCache) (logs : List Log) : List (B256 × Nat) :=
  (sweepMatches chain cache logs).map (fun m => (m.blockHash, m.logIndex)) ++ allCanonical logs

/-- Every transfer still pending at or below `toBlock`, `ORDER BY block_number,
log_index`. -/
def leftovers (db : Db) (chainId toBlock : Nat) : List Transfer :=
  (db.transfers.rows.filter fun t =>
      t.chainId = chainId ∧ t.status = .pending ∧ t.blockNumber ≤ toBlock).insertionSort
    fun a b => a.blockNumber < b.blockNumber ∨
      a.blockNumber = b.blockNumber ∧ a.logIndex ≤ b.logIndex

/-- The view an orphaned row is reported with. -/
def Transfer.orphanedView (t : Transfer) (amount : U256) : TransferView where
  txHash := t.txHash
  logIndex := t.logIndex
  blockNumber := t.blockNumber
  blockHash := t.blockHash
  src := t.fromAddress
  amount := amount
  status := .orphaned

def SweepTx.noteIgnored (tx : SweepTx) (db : Db) : SweepTx :=
  { tx with db, out := { tx.out with ignored := tx.out.ignored + 1 } }

def SweepTx.noteOrphaned (tx : SweepTx) (db : Db) : SweepTx :=
  { tx with db, out := { tx.out with orphaned := tx.out.orphaned + 1 } }

/-- Note that an orphaned transfer was reported. -/
def SweepTx.noteOrphanEvent (tx : SweepTx) (db : Db) (watch : WatchRow) : SweepTx where
  db := db
  stats := bumpStats tx.stats watch.tokenAddress fun d => { d with orphaned := d.orphaned + 1 }
  out := { tx.out with events := tx.out.events + 1 }

/-- Resolve one transfer that the SELECT of the leftovers returned.  Canonical
but not counted must not be reported as orphaned. -/
def resolveLeftover (chain : ChainSpec) (canonical : List (B256 × Nat)) (tx : SweepTx)
    (t : Transfer) : Except StoreError SweepTx :=
  if (t.blockHash, t.logIndex) ∈ canonical then
    return tx.noteIgnored (setTransfer tx.db t.key .ignored)
  else do
    match ← lockActiveWatch (setTransfer tx.db t.key .orphaned) t.watchId with
    | (none, db) => return tx.noteOrphaned db
    | (some watch, db) =>
        let amount ← numericColumn t.amount
        let db' ← insertEvent db chain watch .paymentOrphaned (some (t.orphanedView amount))
        return (tx.noteOrphaned db).noteOrphanEvent db' watch

/-- The part of the sweep's transaction after the delta load: count, then
resolve what is still pending. -/
def sweepTx (db : Db) (chain : ChainSpec) (cache : WatchCache) (discovered : List WatchKey)
    (toBlock : Nat) (logs : List Log) : Except StoreError SweepTx := do
  let tx ← (sweepMatches chain cache logs).foldlM (countConfirmed chain) { db, out := { discovered } }
  (leftovers tx.db chain.chainId toBlock).foldlM
    (resolveLeftover chain (canonicalOf chain cache logs)) tx

/-- `UPDATE chain_cursors SET confirmed_block = $2`. -/
def setCursor (db : Db) (chainId toBlock : Nat) : Db :=
  { db with cursors := db.cursors.replace ⟨chainId, toBlock⟩ }

/-- The rest of the transaction of `apply_sweep` after the delta load, up to its
commit. -/
def sweepRest (db : Db) (chain : ChainSpec) (cache : WatchCache) (discovered : List WatchKey)
    (toBlock : Nat) (logs : List Log) : Except StoreError (SweepOutcome × Db) := do
  let tx ← sweepTx db chain cache discovered toBlock logs
  let db ← flushStats chain tx
  return (tx.out, setCursor db chain.chainId toBlock)

/-- `apply_sweep`. -/
def applySweep (db : Db) (chain : ChainSpec) (cache : WatchCache) (expectedCursor toBlock : Nat)
    (logs : List Log) : WatchCache × Except StoreError (SweepResult × Db) :=
  match db.cursors.get? chain.chainId with
  | none => (cache, .error (.missingCursor chain.chainId))
  | some cur =>
      if cur.confirmedBlock ≠ expectedCursor then
        (cache, .ok (.cursorMoved expectedCursor cur.confirmedBlock, db))
      else
        let (cache, discovered) := deltaLoad db chain cache
        match sweepRest db chain cache discovered toBlock logs with
        | .ok (out, db) => (evictCompleted cache out, .ok (.applied out, db))
        | .error e => (cache, .error e)

/-! ## Fast-forward -/

/-- `min_active_start_block`. -/
def minActiveStartBlock (db : Db) (chainId : Nat) : Option Nat :=
  ((db.watches.rows.filter fun w => w.chainId = chainId ∧ w.status = .active).map
    Watch.startBlock).min?

/-- Whether a transfer of the chain awaits confirmation. -/
def hasPending (db : Db) (chainId : Nat) : Bool :=
  db.transfers.rows.any fun t => t.chainId = chainId ∧ t.status = .pending

/-- Where the cursor may move without scanning: blocks below every active
watch's start block hold nothing that is counted. -/
def forwarded (db : Db) (chainId cursor target : Nat) : Nat :=
  let ceiling := match minActiveStartBlock db chainId with
    | some start => start - 1
    | none => target
  if hasPending db chainId then cursor else max cursor (min ceiling target)

/-- `fast_forward_cursor`; returns the cursor after the call. -/
def fastForwardCursor (db : Db) (chainId target : Nat) : Except StoreError (Nat × Db) :=
  match db.cursors.get? chainId with
  | none => .error (.missingCursor chainId)
  | some cur =>
      let newCursor := forwarded db chainId cur.confirmedBlock target
      .ok (newCursor, if newCursor ≠ cur.confirmedBlock then setCursor db chainId newCursor else db)

end GumIndexer
