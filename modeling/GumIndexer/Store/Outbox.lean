import GumIndexer.Store

/-!
# GumIndexer.Store.Outbox

The outbox as the queue of the webhook dispatcher.

A lease is nothing but `next_attempt_at` pushed into the future: it has no
owner, and an event whose lease ran out is due again while its first worker is
still at it.  A worker reports by the event's id; `markRetry` and `release`
apply to a pending event only, `markDelivered` and `markDead` to an event in
any status.
-/

namespace GumIndexer

open Base

/-- `UPDATE webhook_outbox SET … WHERE …`.  No statement sets the columns of
the key. -/
def updateOutbox (db : Db) (cond : OutboxRow → Bool) (set : OutboxRow → OutboxRow)
    (keys : ∀ e, (set e).key = e.key) : Db :=
  db.withOutbox (db.outbox.mapRows (fun e => if cond e then set e else e) fun e => by
    split
    · exact keys e
    · rfl)

structure OutboxItem where
  id : Uuid
  watchId : Uuid
  seq : Nat
  eventType : EventType
  url : String
  payload : EventPayload
  /-- Attempt number of the delivery being made now (1-based). -/
  attempts : Nat
deriving DecidableEq, Repr

namespace OutboxRow

def item (e : OutboxRow) : OutboxItem :=
  ⟨e.id, e.watchId, e.seq, e.eventType, e.url, e.payload, e.attempts⟩

/-- `SET attempts = attempts + 1, next_attempt_at = …`. -/
def leased (e : OutboxRow) (dueAgain : Nat) : OutboxRow :=
  { e with attempts := e.attempts + 1, nextAttemptAt := dueAgain }

/-- `SET attempts = GREATEST(attempts - 1, 0), next_attempt_at = …`. -/
def released (e : OutboxRow) (dueAgain : Nat) : OutboxRow :=
  { e with attempts := e.attempts - 1, nextAttemptAt := dueAgain }

/-- `SET next_attempt_at = …`. -/
def delayed (e : OutboxRow) (dueAgain : Nat) : OutboxRow := { e with nextAttemptAt := dueAgain }

/-- `SET status = …`. -/
def withStatus (e : OutboxRow) (status : OutboxStatus) : OutboxRow := { e with status }

end OutboxRow

/-! ## Leasing -/

/-- `NOT EXISTS`: no earlier event of the same watch is pending. -/
def Db.Unblocked (db : Db) (c : OutboxRow) : Prop :=
  ∀ e ∈ db.outbox.rows, ¬ (e.watchId = c.watchId ∧ e.status = .pending ∧ e.seq < c.seq)

instance (db : Db) (c : OutboxRow) : Decidable (db.Unblocked c) := List.decidableBAll _ _

/-- The events a lease selects: `ORDER BY next_attempt_at LIMIT`, skipping the
rows other transactions hold locked. -/
def dueEvents (db : Db) (limit : Nat) (locked : Uuid → Bool) : List OutboxRow :=
  ((db.outbox.rows.filter fun c =>
      c.status = .pending ∧ c.nextAttemptAt ≤ db.now ∧ db.Unblocked c ∧
        locked c.id = false).insertionSort
    (fun a b => a.nextAttemptAt ≤ b.nextAttemptAt)).take limit

/-- `o.id IN (SELECT c.id …)`. -/
def Selected (due : List OutboxRow) (o : OutboxRow) : Prop := o.id ∈ due.map OutboxRow.id

instance (due : List OutboxRow) (o : OutboxRow) : Decidable (Selected due o) :=
  inferInstanceAs (Decidable (_ ∈ _))

/-- `lease_due`: the events handed out, as they are after the update. -/
def leaseDue (db : Db) (limit lease : Nat) (locked : Uuid → Bool) : List OutboxItem × Db :=
  let due := dueEvents db limit locked
  ((db.outbox.rows.filter fun o => Selected due o).map fun o => (o.leased (db.now + lease)).item,
    updateOutbox db (fun o => Selected due o) (·.leased (db.now + lease)) fun _ => rfl)

/-! ## Reporting -/

/-- `mark_delivered`. -/
def markDelivered (db : Db) (id : Uuid) : Db :=
  updateOutbox db (fun e => e.id = id) (·.withStatus .delivered) fun _ => rfl

/-- `mark_retry`. -/
def markRetry (db : Db) (id : Uuid) (delay : Nat) : Db :=
  updateOutbox db (fun e => e.id = id ∧ e.status = .pending) (·.delayed (db.now + delay)) fun _ => rfl

/-- `mark_dead`. -/
def markDead (db : Db) (id : Uuid) : Db :=
  updateOutbox db (fun e => e.id = id) (·.withStatus .dead) fun _ => rfl

/-- `release`. -/
def release (db : Db) (id : Uuid) (delay : Nat) : Db :=
  updateOutbox db (fun e => e.id = id ∧ e.status = .pending) (·.released (db.now + delay)) fun _ => rfl

end GumIndexer
