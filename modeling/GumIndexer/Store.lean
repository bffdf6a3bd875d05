import GumIndexer.Events
import GumIndexer.Matcher
import Mathlib.Data.List.Sort

/-!
# GumIndexer.Store

The database of the indexer and the operations on watches.

Every table is a `Base.Table` under its primary key or unique constraint, a
statement is a function on the tables it names, and an operation is the
composition of its statements in one transaction: it returns the committed
database, or the error with which it was rolled back.

`now` is the database clock that `now()` reads, `watchesSeq` the sequence
behind `watches.seq`.
-/

namespace GumIndexer

open Base

/-! ## Tables -/

/-- The identity of a log: `UNIQUE (chain_id, block_hash, log_index)`. -/
structure LogId where
  chainId : Nat
  blockHash : B256
  logIndex : Nat
deriving DecidableEq, Repr

/-- A row of `chain_cursors`. -/
structure Cursor where
  chainId : Nat
  confirmedBlock : Nat
deriving DecidableEq, Repr

/-- A row of `watches`; the amounts are `NUMERIC(78, 0)`. -/
structure Watch where
  id : Uuid
  seq : Nat
  chainId : Nat
  tokenAddress : Address
  paymentAddress : Address
  threshold : Nat
  confirmedAmount : Nat := 0
  webhookUrl : String
  status : WatchStatus := .active
  /-- Transfers in blocks below it never count toward this watch. -/
  startBlock : Nat
  nextEventSeq : Nat := 0
  createdAt : Nat
  completedAt : Option Nat := none
  expiresAt : Option Nat
  /-- Set while blocks `[startBlock, backfillTo]`, swept before this watch
  existed, await a scan. -/
  backfillTo : Option Nat
deriving DecidableEq, Repr

namespace Watch

/-- `SET next_event_seq = next_event_seq + 1`. -/
def bump (w : Watch) : Watch := { w with nextEventSeq := w.nextEventSeq + 1 }

/-- `SET next_event_seq = next_event_seq - 1`. -/
def unbump (w : Watch) : Watch := { w with nextEventSeq := w.nextEventSeq - 1 }

/-- `SET confirmed_amount = confirmed_amount + …`. -/
def add (w : Watch) (amount : Nat) : Watch := { w with confirmedAmount := w.confirmedAmount + amount }

/-- `SET status = …, completed_at = now()`. -/
def withStatus (w : Watch) (status : WatchStatus) (now : Nat) : Watch :=
  { w with status, completedAt := some now }

/-- `SET backfill_to = NULL`. -/
def backfilled (w : Watch) : Watch := { w with backfillTo := none }

end Watch

/-- A row of `transfers`. -/
structure Transfer where
  chainId : Nat
  blockHash : B256
  logIndex : Nat
  blockNumber : Nat
  txHash : B256
  watchId : Uuid
  fromAddress : Address
  amount : Nat
  status : TransferStatus
deriving DecidableEq, Repr

namespace Transfer

def key (t : Transfer) : LogId := ⟨t.chainId, t.blockHash, t.logIndex⟩

/-- `SET status = …`. -/
def withStatus (t : Transfer) (status : TransferStatus) : Transfer := { t with status }

end Transfer

inductive OutboxStatus
  | pending
  | delivered
  | dead
deriving DecidableEq, Repr

/-- A row of `webhook_outbox`. -/
structure OutboxRow where
  id : Uuid
  watchId : Uuid
  /-- Per-watch order. -/
  seq : Nat
  eventType : EventType
  url : String
  payload : EventPayload
  status : OutboxStatus := .pending
  attempts : Nat := 0
  nextAttemptAt : Nat
deriving DecidableEq, Repr

/-- `UNIQUE (watch_id, seq)`. -/
def OutboxRow.key (e : OutboxRow) : Uuid × Nat := (e.watchId, e.seq)

/-- A row of `stats_rollup`. -/
structure StatsRollup where
  chainId : Nat
  tokenAddress : Address
  confirmedCount : Nat := 0
  orphanedCount : Nat := 0
  confirmedVolume : Nat := 0
  thresholdsReached : Nat := 0
deriving DecidableEq, Repr

def StatsRollup.key (r : StatsRollup) : Nat × Address := (r.chainId, r.tokenAddress)

structure Db where
  cursors : Table Cursor Cursor.chainId
  watches : Table Watch Watch.id
  transfers : Table Transfer Transfer.key
  outbox : Table OutboxRow OutboxRow.key
  stats : Table StatsRollup StatsRollup.key
  watchesSeq : Nat
  now : Nat

namespace Db

/-- A freshly migrated database. -/
def empty : Db := ⟨.empty, .empty, .empty, .empty, .empty, 0, 0⟩

/-- Store an updated watch in place. -/
def putWatch (db : Db) (w : Watch) : Db := { db with watches := db.watches.replace w }

/-- Store an updated transfer in place. -/
def putTransfer (db : Db) (t : Transfer) : Db := { db with transfers := db.transfers.replace t }

def withTransfers (db : Db) (transfers : Table Transfer Transfer.key) : Db := { db with transfers }

def withOutbox (db : Db) (outbox : Table OutboxRow OutboxRow.key) : Db := { db with outbox }

section Fields

variable (db : Db) (w : Watch) (t : Transfer) (ts : Table Transfer Transfer.key)
  (ob : Table OutboxRow OutboxRow.key)

@[simp] theorem watches_putWatch : (db.putWatch w).watches = db.watches.replace w := rfl
@[simp] theorem transfers_putWatch : (db.putWatch w).transfers = db.transfers := rfl
@[simp] theorem outbox_putWatch : (db.putWatch w).outbox = db.outbox := rfl
@[simp] theorem cursors_putWatch : (db.putWatch w).cursors = db.cursors := rfl
@[simp] theorem watches_putTransfer : (db.putTransfer t).watches = db.watches := rfl
@[simp] theorem transfers_putTransfer : (db.putTransfer t).transfers = db.transfers.replace t := rfl
@[simp] theorem outbox_putTransfer : (db.putTransfer t).outbox = db.outbox := rfl
@[simp] theorem cursors_putTransfer : (db.putTransfer t).cursors = db.cursors := rfl
@[simp] theorem watches_withTransfers : (db.withTransfers ts).watches = db.watches := rfl
@[simp] theorem transfers_withTransfers : (db.withTransfers ts).transfers = ts := rfl
@[simp] theorem outbox_withTransfers : (db.withTransfers ts).outbox = db.outbox := rfl
@[simp] theorem cursors_withTransfers : (db.withTransfers ts).cursors = db.cursors := rfl
@[simp] theorem watches_withOutbox : (db.withOutbox ob).watches = db.watches := rfl
@[simp] theorem transfers_withOutbox : (db.withOutbox ob).transfers = db.transfers := rfl
@[simp] theorem outbox_withOutbox : (db.withOutbox ob).outbox = ob := rfl
@[simp] theorem cursors_withOutbox : (db.withOutbox ob).cursors = db.cursors := rfl

theorem putWatch_putWatch (w w' : Watch) (h : w.id = w'.id) :
    (db.putWatch w).putWatch w' = db.putWatch w' := by
  simp only [putWatch, Table.replace_replace h]

theorem putWatch_self (h : db.watches.get? w.id = some w) : db.putWatch w = db := by
  simp only [putWatch, Table.replace_self h]

theorem putWatch_withTransfers :
    (db.withTransfers ts).putWatch w = (db.putWatch w).withTransfers ts := rfl

end Fields

end Db

/-! ## Watches as the code reads them -/

structure WatchRow where
  id : Uuid
  seq : Nat
  chainId : Nat
  tokenAddress : Address
  paymentAddress : Address
  threshold : U256
  confirmedAmount : U256
  webhookUrl : String
  status : WatchStatus
  startBlock : Nat
  backfillTo : Option Nat
  nextEventSeq : Nat
  createdAt : Nat
  completedAt : Option Nat
  expiresAt : Option Nat
deriving DecidableEq, Repr

/-- `WatchRow::from_row`. -/
def WatchRow.fromRow (row : Watch) : Except StoreError WatchRow := do
  let threshold ← numericColumn row.threshold
  let confirmedAmount ← numericColumn row.confirmedAmount
  return {
    id := row.id
    seq := row.seq
    chainId := row.chainId
    tokenAddress := row.tokenAddress
    paymentAddress := row.paymentAddress
    threshold
    confirmedAmount
    webhookUrl := row.webhookUrl
    status := row.status
    startBlock := row.startBlock
    backfillTo := row.backfillTo
    nextEventSeq := row.nextEventSeq
    createdAt := row.createdAt
    completedAt := row.completedAt
    expiresAt := row.expiresAt }

/-- The row as it reads back when its amounts fit. -/
def WatchRow.ofWatch (row : Watch) : WatchRow where
  id := row.id
  seq := row.seq
  chainId := row.chainId
  tokenAddress := row.tokenAddress
  paymentAddress := row.paymentAddress
  threshold := BitVec.ofNat 256 row.threshold
  confirmedAmount := BitVec.ofNat 256 row.confirmedAmount
  webhookUrl := row.webhookUrl
  status := row.status
  startBlock := row.startBlock
  backfillTo := row.backfillTo
  nextEventSeq := row.nextEventSeq
  createdAt := row.createdAt
  completedAt := row.completedAt
  expiresAt := row.expiresAt

@[simp] theorem WatchRow.id_ofWatch (w : Watch) : (WatchRow.ofWatch w).id = w.id := rfl

/-- Both amounts are `uint256` values. -/
def Watch.Fits (w : Watch) : Prop := w.threshold < 2 ^ 256 ∧ w.confirmedAmount < 2 ^ 256

instance (w : Watch) : Decidable w.Fits := inferInstanceAs (Decidable (_ ∧ _))

theorem WatchRow.threshold_le_iff {w : Watch} (h : w.Fits) :
    (WatchRow.ofWatch w).threshold ≤ (WatchRow.ofWatch w).confirmedAmount ↔
      w.threshold ≤ w.confirmedAmount := by
  rw [BitVec.le_def, ofWatch, BitVec.toNat_ofNat, BitVec.toNat_ofNat, Nat.mod_eq_of_lt h.1,
    Nat.mod_eq_of_lt h.2]

theorem WatchRow.fromRow_of_fits {w : Watch} (h : w.Fits) :
    WatchRow.fromRow w = .ok (.ofWatch w) := by
  rw [fromRow, numericColumn_of_lt h.1, numericColumn_of_lt h.2]
  rfl

/-- A row reads back as itself, or is refused as corrupt. -/
theorem WatchRow.fromRow_cases (w : Watch) :
    (w.Fits ∧ WatchRow.fromRow w = .ok (.ofWatch w)) ∨
      (¬ w.Fits ∧ ∃ v, WatchRow.fromRow w = .error (.corrupt v)) := by
  by_cases h : w.Fits
  · exact .inl ⟨h, fromRow_of_fits h⟩
  · refine .inr ⟨h, ?_⟩
    rw [fromRow, numericColumn_eq, numericColumn_eq]
    by_cases ht : w.threshold < 2 ^ 256
    · have hc : ¬ w.confirmedAmount < 2 ^ 256 := fun hc => h ⟨ht, hc⟩
      rw [if_pos ht, if_neg hc]
      exact ⟨_, rfl⟩
    · rw [if_neg ht]
      exact ⟨_, rfl⟩

/-- `WatchRow::view`. -/
def WatchRow.view (w : WatchRow) (chain : ChainSpec) : WatchView where
  id := w.id
  chain := chain.name
  chainId := chain.chainId
  token := ((chain.tokenByAddress w.tokenAddress).map TokenSpec.symbol).getD "UNKNOWN"
  tokenAddress := w.tokenAddress
  paymentAddress := w.paymentAddress
  balanceThreshold := w.threshold
  confirmedAmount := w.confirmedAmount
  status := w.status

/-- `slim_entry`: a token removed from the configuration leaves its watches
dormant. -/
def slimEntry (chain : ChainSpec) (row : Watch) : Option (WatchKey × WatchRef) :=
  (chain.tokenByAddress row.tokenAddress).map fun token =>
    (⟨token.idx, row.paymentAddress⟩, ⟨row.id, row.seq, row.startBlock⟩)

/-- `WatchRow::cache_entry`. -/
def WatchRow.cacheEntry (w : WatchRow) (chain : ChainSpec) : Option (WatchKey × WatchRef) :=
  (chain.tokenByAddress w.tokenAddress).map fun token =>
    (⟨token.idx, w.paymentAddress⟩, ⟨w.id, w.seq, w.startBlock⟩)

/-! ## Outbox insert -/

/-- The row `insert_event` writes.  Its position in the outbox stands for the
fresh `Uuid::now_v7()`. -/
def eventRow (db : Db) (chain : ChainSpec) (watch : WatchRow) (eventType : EventType)
    (transfer : Option TransferView) : OutboxRow :=
  let id := db.outbox.rows.length
  let payload : EventPayload :=
    { id, eventType, sequence := watch.nextEventSeq, watch := watch.view chain, transfer }
  { id, watchId := watch.id, seq := watch.nextEventSeq, eventType, url := watch.webhookUrl
    payload, nextAttemptAt := db.now }

/-- `insert_event`. -/
def insertEvent (db : Db) (chain : ChainSpec) (watch : WatchRow) (eventType : EventType)
    (transfer : Option TransferView) : Except StoreError Db :=
  match db.outbox.insertNew (eventRow db chain watch eventType transfer) with
  | some outbox => .ok (db.withOutbox outbox)
  | none => .error (.db (.uniqueViolation .outboxWatchSeq))

/-! ## Cursor -/

/-- `ensure_cursor`: never moves an existing cursor. -/
def ensureCursor (db : Db) (chainId head : Nat) : Nat × Db :=
  match db.cursors.get? chainId with
  | some cur => (cur.confirmedBlock, db)
  | none => (head, { db with cursors := db.cursors.upsert ⟨chainId, head⟩ })

/-! ## Registration -/

structure NewWatch where
  chainId : Nat
  tokenAddress : Address
  paymentAddress : Address
  threshold : U256
  webhookUrl : String
  expiresAt : Option Nat
  /-- Latest chain head known to this process. -/
  headEstimate : Nat
  /-- How many blocks before the head payments may already have arrived. -/
  lookbackBlocks : Nat
deriving DecidableEq, Repr

/-- A watch for 100 base units of USDC at address 9. -/
def watchOrder : NewWatch where
  chainId := baseChain.chainId
  tokenAddress := usdc.address
  paymentAddress := 9
  threshold := 100
  webhookUrl := "hook"
  expiresAt := none
  headEstimate := 100
  lookbackBlocks := 0

inductive CreateOutcome
  | created (w : WatchRow)
  | existing (w : WatchRow)
  | conflict (w : WatchRow)
deriving DecidableEq, Repr

/-- `start_block`: the block after both the cursor and the head, or `lookback`
blocks before the head when payments may already have arrived. -/
def startBlock (cursor headEstimate lookback : Nat) : Nat :=
  let base := max cursor headEstimate
  if lookback = 0 then base + 1 else min (base + 1) (max (base - lookback) 1)

/-- The active watch on a target, which the partial unique index
`watches_active_target` makes unique. -/
def Db.activeOn (db : Db) (chainId : Nat) (tokenAddress paymentAddress : Address) : Option Watch :=
  db.watches.rows.find? fun w =>
    w.chainId = chainId ∧ w.tokenAddress = tokenAddress ∧ w.paymentAddress = paymentAddress ∧
      w.status = .active

/-- The row `create_watch` inserts, holding the cursor row. -/
def NewWatch.row (new : NewWatch) (id : Uuid) (seq cursor now : Nat) : Watch :=
  let start := startBlock cursor new.headEstimate new.lookbackBlocks
  { id, seq, chainId := new.chainId, tokenAddress := new.tokenAddress
    paymentAddress := new.paymentAddress, threshold := new.threshold.toNat
    webhookUrl := new.webhookUrl, startBlock := start, createdAt := now
    expiresAt := new.expiresAt, backfillTo := if start ≤ cursor then some cursor else none }

/-- The transaction of `create_watch`, with the `Uuid::now_v7()` it binds and
the number that its INSERT drew from the sequence of `watches.seq`. -/
def commitWatch (db : Db) (seq : Nat) (id : Uuid) (new : NewWatch) :
    Except StoreError (CreateOutcome × Db) :=
  match db.cursors.get? new.chainId with
  | none => .error (.missingCursor new.chainId)
  | some cur =>
      let row := new.row id seq cur.confirmedBlock db.now
      -- `CHECK (threshold > 0)` comes before the conflict target is looked at
      if row.threshold = 0 then .error (.db (.checkViolation .watchesThreshold))
      else match db.activeOn new.chainId new.tokenAddress new.paymentAddress with
      | none =>
          match db.watches.insertNew row with
          | none => .error (.db (.uniqueViolation .watchesPkey))
          | some watches => do
              let w ← WatchRow.fromRow row
              return (.created w, { db with watches })
      | some row => do
          let existing ← WatchRow.fromRow row
          if existing.threshold = new.threshold ∧ existing.webhookUrl = new.webhookUrl then
            return (.existing existing, db)
          else
            return (.conflict existing, db)

/-- `create_watch`, when no other registration draws a number before it
commits. -/
def createWatch (db : Db) (id : Uuid) (new : NewWatch) : Except StoreError (CreateOutcome × Db) :=
  commitWatch { db with watchesSeq := db.watchesSeq + 1 } (db.watchesSeq + 1) id new

/-- The number has been drawn, and no watch has it. -/
def Db.Drawn (db : Db) (seq : Nat) : Prop :=
  0 < seq ∧ seq ≤ db.watchesSeq ∧ ∀ w ∈ db.watches.rows, w.seq ≠ seq

instance (db : Db) (seq : Nat) : Decidable (db.Drawn seq) :=
  inferInstanceAs (Decidable (_ ∧ _ ∧ _))

/-! ## Retirement -/

/-- `cancel_watch`: one autocommitted statement, so the row is cancelled even
if it cannot be read back. -/
def cancelWatch (db : Db) (id : Uuid) : Except StoreError (Option WatchRow) × Db :=
  match db.watches.get? id with
  | some w =>
      if w.status = .active then
        let w := w.withStatus .cancelled db.now
        ((WatchRow.fromRow w).map some, db.putWatch w)
      else (.ok none, db)
  | none => (.ok none, db)

/-- The rows `expire_watches` selects: `ORDER BY expires_at LIMIT`, skipping
the rows other transactions hold locked. -/
def overdueWatches (db : Db) (chain : ChainSpec) (limit : Nat) (locked : Uuid → Bool) : List Watch :=
  ((db.watches.rows.filter fun w =>
      w.chainId = chain.chainId ∧ w.status = .active ∧ w.expiresAt.any (· ≤ db.now) ∧
        locked w.id = false).insertionSort
    (fun a b => a.expiresAt.getD 0 ≤ b.expiresAt.getD 0)).take limit

/-- Retire one selected row and queue its `watch.expired`. -/
def expireOne (chain : ChainSpec) (acc : List WatchRow × Db) (w : Watch) :
    Except StoreError (List WatchRow × Db) := do
  let w := w.bump.withStatus .expired acc.2.now
  let watch ← WatchRow.fromRow w
  let db ← insertEvent (acc.2.putWatch w) chain watch .watchExpired none
  return (acc.1 ++ [watch], db)

/-- `expire_watches`. -/
def expireWatches (db : Db) (chain : ChainSpec) (limit : Nat) (locked : Uuid → Bool) :
    Except StoreError (List WatchRow × Db) :=
  (overdueWatches db chain limit locked).foldlM (expireOne chain) ([], db)

/-! ## Loading the cache -/

/-- The active watches of a chain above `lastSeq`, `ORDER BY seq`. -/
def activeRows (db : Db) (chain : ChainSpec) (lastSeq : Nat) : List Watch :=
  (db.watches.rows.filter fun w =>
      w.chainId = chain.chainId ∧ w.status = .active ∧ lastSeq < w.seq).insertionSort
    (fun a b => a.seq ≤ b.seq)

/-- `hydrate`: the rows a boot streams into the cache; `seq` starts at 1. -/
def hydrate (db : Db) (chain : ChainSpec) : List (WatchKey × WatchRef) :=
  (activeRows db chain 0).filterMap (slimEntry chain)

/-- `load_watch_entry`. -/
def loadWatchEntry (db : Db) (chain : ChainSpec) (id : Uuid) : Option (WatchKey × WatchRef) :=
  match db.watches.get? id with
  | some w => if w.chainId = chain.chainId ∧ w.status = .active then slimEntry chain w else none
  | none => none

/-! ## Stats -/

structure StatsDelta where
  confirmed : Nat := 0
  orphaned : Nat := 0
  thresholds : Nat := 0
  volume : U256 := 0
deriving DecidableEq, Repr

/-- `apply_stats`: the volume is added up in a `NUMERIC(78, 0)`. -/
def applyStats (db : Db) (chainId : Nat) (token : Address) (d : StatsDelta) : Except StoreError Db :=
  let old := (db.stats.get? (chainId, token)).getD { chainId, tokenAddress := token }
  let row := { old with
    confirmedCount := old.confirmedCount + d.confirmed
    orphanedCount := old.orphanedCount + d.orphaned
    thresholdsReached := old.thresholdsReached + d.thresholds
    confirmedVolume := old.confirmedVolume + d.volume.toNat }
  if row.confirmedVolume < 10 ^ 78 then .ok { db with stats := db.stats.upsert row }
  else .error (.db .numericOverflow)

end GumIndexer
