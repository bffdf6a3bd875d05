import GumIndexer.EventLog
import GumIndexer.Store.Outbox

/-!
# GumIndexer.Delivery

The order and the finality of webhook deliveries.

`call` is the store as the dispatchers see it: the transactions that write
events, leases, and reports on any event by anyone, in any interleaving.  A
call of the dispatcher touches nothing but the delivery columns of the outbox
and never makes an event pending again (`Db.Handled`); together with the event
logs, whose numbers have no gaps, this gives the order of the deliveries of a
watch (`leased_in_order`).

`Dispatch` adds the workers: an event that was handed out is delivered by a
worker that reports its own outcome at some later time, with the lease still
running or not.
-/

namespace GumIndexer

open Base

/-! ## What a dispatcher can do to an event -/

/-- Given up or handed over. -/
def OutboxRow.Done (e : OutboxRow) : Prop := e.status = .delivered ∨ e.status = .dead

instance (e : OutboxRow) : Decidable e.Done := inferInstanceAs (Decidable (_ ∨ _))

/-- An event is done exactly if it is not pending. -/
theorem OutboxRow.done_iff (e : OutboxRow) : e.Done ↔ e.status ≠ .pending := by
  unfold Done
  cases e.status <;> simp

/-- The event keeps what was queued, and is not made pending again. -/
structure OutboxRow.Handled (e e' : OutboxRow) : Prop where
  id : e'.id = e.id
  key : e'.key = e.key
  eventType : e'.eventType = e.eventType
  payload : e'.payload = e.payload
  done : e.Done → e'.Done

namespace OutboxRow

theorem Handled.refl (e : OutboxRow) : e.Handled e := ⟨rfl, rfl, rfl, rfl, fun h => h⟩

/-- A lease keeps what was queued. -/
theorem handled_leased (n : Nat) (e : OutboxRow) : e.Handled (e.leased n) :=
  ⟨rfl, rfl, rfl, rfl, fun h => h⟩

/-- So does a release. -/
theorem handled_released (n : Nat) (e : OutboxRow) : e.Handled (e.released n) :=
  ⟨rfl, rfl, rfl, rfl, fun h => h⟩

theorem handled_delayed (n : Nat) (e : OutboxRow) : e.Handled (e.delayed n) :=
  ⟨rfl, rfl, rfl, rfl, fun h => h⟩

/-- So does a verdict, which does not make an event pending again. -/
theorem handled_withStatus {s : OutboxStatus} (hs : s ≠ .pending) (e : OutboxRow) :
    e.Handled (e.withStatus s) :=
  ⟨rfl, rfl, rfl, rfl, fun _ => (done_iff _).mpr hs⟩

end OutboxRow

/-- The database with its events handled one way or the other. -/
def Db.Handled (db db' : Db) : Prop :=
  ∃ f : OutboxRow → OutboxRow, (∀ e : OutboxRow, e.Handled (f e)) ∧ db'.outbox.rows = db.outbox.rows.map f ∧
    db'.watches = db.watches

/-- An update of some rows by such a change handles the events. -/
theorem handled_updateOutbox (db : Db) (cond : OutboxRow → Bool) {set : OutboxRow → OutboxRow}
    (hset : ∀ e : OutboxRow, e.Handled (set e)) :
    db.Handled (updateOutbox db cond set fun e => (hset e).key) := by
  refine ⟨fun e => if cond e then set e else e, fun e => ?_, rfl, rfl⟩
  dsimp only
  split
  · exact hset e
  · exact .refl e

/-! ## The calls -/

inductive Call
  | store (op : Op)
  | leaseDue (limit lease : Nat) (locked : Uuid → Bool)
  | markDelivered (id : Uuid)
  | markRetry (id : Uuid) (delay : Nat)
  | markDead (id : Uuid)
  | release (id : Uuid) (delay : Nat)

/-- The database after a call. -/
def call (db : Db) : Call → Db
  | .store op => exec db op
  | .leaseDue limit lease locked => (leaseDue db limit lease locked).2
  | .markDelivered id => markDelivered db id
  | .markRetry id delay => markRetry db id delay
  | .markDead id => markDead db id
  | .release id delay => release db id delay

/-- The events a call hands out. -/
def handedOut (db : Db) : Call → List OutboxItem
  | .leaseDue limit lease locked => (leaseDue db limit lease locked).1
  | _ => []

/-- A call is an operation of the store, or handles the events that are there.
-/
theorem call_cases (db : Db) (c : Call) : (∃ op, c = .store op) ∨ db.Handled (call db c) := by
  cases c with
  | store op => exact .inl ⟨op, rfl⟩
  | leaseDue limit lease locked => exact .inr (handled_updateOutbox db _ (OutboxRow.handled_leased _))
  | markDelivered id =>
      exact .inr (handled_updateOutbox db _ (OutboxRow.handled_withStatus (by decide)))
  | markRetry id delay => exact .inr (handled_updateOutbox db _ (OutboxRow.handled_delayed _))
  | markDead id => exact .inr (handled_updateOutbox db _ (OutboxRow.handled_withStatus (by decide)))
  | release id delay => exact .inr (handled_updateOutbox db _ (OutboxRow.handled_released _))

/-- What every step of the store and every handling preserves, every call
preserves. -/
theorem call_invariant (Inv : Db → Prop) (hstep : ∀ db a db', Step db a db' → Inv db → Inv db')
    (hhandled : ∀ db db', db.Handled db' → Inv db → Inv db') {db : Db} (h : Inv db) (c : Call) :
    Inv (call db c) := by
  rcases call_cases db c with ⟨op, rfl⟩ | hc
  · exact exec_invariant Inv hstep h op
  · exact hhandled _ _ hc h

variable {db db' : Db} {a : Act}

/-! ## Invariants -/

/-- The events of a watch are handled one by one, in their places. -/
theorem Db.Handled.events {f : OutboxRow → OutboxRow} (hf : ∀ e : OutboxRow, e.Handled (f e))
    (hrows : db'.outbox.rows = db.outbox.rows.map f) (id : Uuid) :
    db'.events id = (db.events id).map f := by
  rw [Db.events, hrows, List.filter_map, Db.events]
  congr 1
  apply List.filter_congr
  intro e _
  have hid : (f e).watchId = e.watchId := congrArg Prod.fst (hf e).key
  simp [hid]

/-- Handling an event does not change what it says was counted. -/
theorem OutboxRow.Handled.counted {e e' : OutboxRow} (h : e.Handled e') : e'.counted = e.counted := by
  have hid : e'.watchId = e.watchId := congrArg Prod.fst h.key
  unfold OutboxRow.counted OutboxRow.credit?
  rw [h.eventType, h.payload, hid]

/-- Handling keeps the event logs. -/
theorem EventLogs.handled (h : db.Handled db') (inv : EventLogs db) : EventLogs db' := by
  obtain ⟨f, hf, hrows, hwatches⟩ := h
  have hcounted : ∀ es : List OutboxRow,
      total OutboxRow.counted (es.map f) = total OutboxRow.counted es := by
    intro es
    rw [total, total, List.map_map]
    exact congrArg List.sum (List.map_congr_left fun e _ => (hf e).counted)
  refine ⟨fun id w hw => ?_, fun e he => ?_⟩
  · rw [hwatches] at hw
    have log := inv.log id w hw
    refine ⟨?_, ?_, ?_, ?_⟩
    · rw [Db.Handled.events hf hrows, List.map_map, ← log.seqs]
      exact List.map_congr_left fun e _ => congrArg Prod.snd (hf e).key
    · rw [Db.Handled.events hf hrows, List.map_map, ← log.payloads]
      exact List.map_congr_left fun e _ => congrArg EventPayload.sequence (hf e).payload
    · intro es e hpre
      rw [Db.Handled.events hf hrows, List.prefix_map_iff] at hpre
      obtain ⟨l, hl, heq⟩ := hpre
      -- the prefix is the image of a prefix of the old events
      obtain ⟨es₀, l', rfl, hes, hl'⟩ := List.map_eq_append_iff.mp heq.symm
      obtain ⟨e₀, rfl, he⟩ := List.map_eq_singleton_iff.mp hl'
      have hold := log.reports es₀ e₀ hl
      rw [heq, hcounted, ← hold, ← he, (hf e₀).payload]
    · rw [Db.Handled.events hf hrows, hcounted]
      exact log.final
  · rw [hrows] at he
    obtain ⟨e₀, he₀, rfl⟩ := List.mem_map.mp he
    have hid : (f e₀).watchId = e₀.watchId := congrArg Prod.fst (hf e₀).key
    rw [hid, hwatches]
    exact inv.known e₀ he₀

/-- The events are numbered by their position. -/
def Db.Numbered (db : Db) : Prop :=
  db.outbox.rows.map OutboxRow.id = List.range db.outbox.rows.length

/-- A new event gets the number of its position. -/
theorem Post.numbered {chain : ChainSpec} {w w' : Watch} {type : EventType}
    {view : Option TransferView} {transfers : Table Transfer Transfer.key}
    (h : Post chain db w w' type view transfers db') (inv : db.Numbered) : db'.Numbered := by
  unfold Db.Numbered at inv ⊢
  rw [h.outbox_rows, List.map_append, inv, List.length_append, List.length_singleton,
    List.range_succ]
  rfl

/-- No step of the store gives two events one number. -/
theorem Db.Numbered.step (h : Step db a db') (inv : db.Numbered) : db'.Numbered := by
  cases h with
  | expire _ post => exact post.numbered inv
  | announce _ _ _ post => exact post.numbered inv
  | count counts _ =>
      obtain ⟨transfers, -, post⟩ := counts.step
      exact post.numbered inv
  | complete counts _ post =>
      obtain ⟨transfers, -, post₁⟩ := counts.step
      exact post.numbered (post₁.numbered inv)
  | orphan _ _ _ _ _ _ post => exact post.numbered inv
  | moveCursor _ _ outbox _ => rw [Db.Numbered, outbox]; exact inv
  | other _ _ outbox _ _ => rw [Db.Numbered, outbox]; exact inv
  | _ => exact inv

theorem Db.Numbered.handled (h : db.Handled db') (inv : db.Numbered) : db'.Numbered := by
  obtain ⟨f, hf, hrows, -⟩ := h
  unfold Db.Numbered at inv ⊢
  rw [hrows, List.map_map, List.length_map, ← inv]
  exact List.map_congr_left fun e _ => (hf e).id

/-- Events are told apart by their numbers. -/
theorem Db.Numbered.eq_of_id_eq (inv : db.Numbered) {e e' : OutboxRow}
    (he : e ∈ db.outbox.rows) (he' : e' ∈ db.outbox.rows) (h : e.id = e'.id) : e = e' := by
  have hnodup : (db.outbox.rows.map OutboxRow.id).Nodup := by
    rw [inv]
    exact List.nodup_range
  exact List.inj_on_of_nodup_map hnodup he he' h

/-- The event `id` with this key is there and done. -/
def Db.DoneAt (db : Db) (key : Uuid × Nat) (id : Uuid) : Prop :=
  ∃ e, db.outbox.get? key = some e ∧ e.id = id ∧ e.Done

/-- A step of the store adds events and leaves those that are there alone. -/
theorem Step.outbox_kept {key : Uuid × Nat} {e : OutboxRow} (h : Step db a db')
    (he : db.outbox.get? key = some e) : db'.outbox.get? key = some e := by
  obtain ⟨hmem, hkey⟩ := Table.get?_eq_some_iff.mp he
  exact Table.get?_eq_some_iff.mpr ⟨h.appends.subset hmem, hkey⟩

/-- The store never makes a done event pending again. -/
theorem Db.DoneAt.step {key : Uuid × Nat} {id : Uuid} (h : Step db a db') (inv : db.DoneAt key id) :
    db'.DoneAt key id := by
  obtain ⟨e, he, hid, hdone⟩ := inv
  exact ⟨e, h.outbox_kept he, hid, hdone⟩

/-- Nor does a call of a dispatcher. -/
theorem Db.DoneAt.handled {key : Uuid × Nat} {id : Uuid} (h : db.Handled db')
    (inv : db.DoneAt key id) : db'.DoneAt key id := by
  obtain ⟨f, hf, hrows, -⟩ := h
  obtain ⟨e, he, hid, hdone⟩ := inv
  obtain ⟨hmem, hkey⟩ := Table.get?_eq_some_iff.mp he
  refine ⟨f e, Table.get?_eq_some_iff.mpr ⟨?_, (hf e).key.trans hkey⟩, (hf e).id.trans hid,
    (hf e).done hdone⟩
  rw [hrows]
  exact List.mem_map_of_mem hmem

/-- **What is done stays done**, in every run. -/
theorem Db.DoneAt.run {key : Uuid × Nat} {id : Uuid} (inv : db.DoneAt key id) (calls : List Call) :
    (Base.run call db calls).DoneAt key id :=
  invariant_run (Db.DoneAt · key id)
    (fun _ c h => call_invariant (Db.DoneAt · key id) (fun _ _ _ => DoneAt.step)
      (fun _ _ => DoneAt.handled) h c) inv calls

/-- The event logs of the watches survive whatever the dispatchers do. -/
theorem eventLogs_calls (calls : List Call) : EventLogs (run call Db.empty calls) :=
  invariant_run EventLogs
    (fun _ c h => call_invariant EventLogs (fun _ _ _ => EventLogs.step)
      (fun _ _ => EventLogs.handled) h c) .empty calls

/-- In every run of calls the events are numbered by their positions. -/
theorem numbered_calls (calls : List Call) : (run call Db.empty calls).Numbered :=
  invariant_run Db.Numbered
    (fun _ c h => call_invariant Db.Numbered (fun _ _ _ => Db.Numbered.step)
      (fun _ _ => Db.Numbered.handled) h c) (by rfl) calls

/-! ## Order -/

/-- What is handed out is a pending event that no earlier one blocks. -/
theorem mem_handedOut {c : Call} {item : OutboxItem} (inv : db.Numbered)
    (h : item ∈ handedOut db c) :
    ∃ e ∈ db.outbox.rows, db.Unblocked e ∧ e.watchId = item.watchId ∧ e.seq = item.seq := by
  cases c with
  | leaseDue limit lease locked =>
      obtain ⟨o, ho, rfl⟩ := List.mem_map.mp h
      obtain ⟨hrow, hsel⟩ := List.mem_filter.mp ho
      obtain ⟨e, he, hid⟩ := List.mem_map.mp (of_decide_eq_true hsel)
      have hdue := (List.mem_insertionSort _).mp (List.mem_of_mem_take he)
      obtain ⟨hmem, helig⟩ := List.mem_filter.mp hdue
      obtain rfl := inv.eq_of_id_eq hmem hrow hid
      exact ⟨e, hmem, (of_decide_eq_true helig).2.2.1, rfl, rfl⟩
  | _ => simp [handedOut] at h

/-- An event has one of the sequence numbers that its watch has given out. -/
theorem EventLogs.seq_mem (inv : EventLogs db) {e : OutboxRow} (he : e ∈ db.outbox.rows) :
    ∃ w, w.id = e.watchId ∧ EventLog db w ∧ e.seq ∈ List.range' 1 w.nextEventSeq := by
  obtain ⟨w, hw⟩ := inv.known e he
  have hid : w.id = e.watchId := Table.key_of_get? hw
  have log := inv.log e.watchId w hw
  refine ⟨w, hid, log, ?_⟩
  rw [← log.seqs]
  exact List.mem_map_of_mem (List.mem_filter.mpr ⟨he, by simp [hid]⟩)

/-- The numbers below that of an event are taken by events of its watch. -/
theorem EventLogs.earlier (inv : EventLogs db) {e : OutboxRow} (he : e ∈ db.outbox.rows) {k : Nat}
    (h1 : 1 ≤ k) (hk : k ≤ e.seq) : ∃ e₀ ∈ db.outbox.rows, e₀.watchId = e.watchId ∧ e₀.seq = k := by
  obtain ⟨w, hid, log, hseq⟩ := inv.seq_mem he
  rw [List.mem_range'_1] at hseq
  have hmem : k ∈ (db.events w.id).map OutboxRow.seq := by
    rw [log.seqs, List.mem_range'_1]
    omega
  obtain ⟨e₀, he₀, hk₀⟩ := List.mem_map.mp hmem
  obtain ⟨hrow, howner⟩ := List.mem_filter.mp he₀
  exact ⟨e₀, hrow, by simpa [hid] using howner, hk₀⟩

theorem EventLogs.seq_pos (inv : EventLogs db) {e : OutboxRow} (he : e ∈ db.outbox.rows) :
    1 ≤ e.seq := by
  obtain ⟨w, -, -, hseq⟩ := inv.seq_mem he
  exact (List.mem_range'_1.mp hseq).1

/-- **The deliveries of a watch are in order.**  Whatever calls were made
before, when an event is handed out every smaller number of its watch belongs
to an event that is there and done; and whatever calls follow, an event of the
watch with a smaller number is one of those, and still done. -/
theorem leased_in_order (calls : List Call) (c : Call) (item : OutboxItem)
    (h : item ∈ handedOut (run call Db.empty calls) c) :
    (∀ k, 1 ≤ k → k < item.seq → ∃ e ∈ (run call Db.empty calls).outbox.rows,
        e.watchId = item.watchId ∧ e.seq = k ∧ (e.status = .delivered ∨ e.status = .dead)) ∧
      ∀ later, ∀ e ∈ (run call Db.empty (calls ++ c :: later)).outbox.rows,
        e.watchId = item.watchId → e.seq < item.seq →
          (e.status = .delivered ∨ e.status = .dead) ∧
            ∃ e₀ ∈ (run call Db.empty calls).outbox.rows, e₀.id = e.id ∧
              e₀.watchId = e.watchId ∧ e₀.seq = e.seq ∧
              (e₀.status = .delivered ∨ e₀.status = .dead) := by
  have logs := eventLogs_calls calls
  obtain ⟨o, ho, hfirst, howner, hseq⟩ := mem_handedOut (numbered_calls calls) h
  have hearlier : ∀ k, 1 ≤ k → k < item.seq → ∃ e ∈ (run call Db.empty calls).outbox.rows,
      e.watchId = item.watchId ∧ e.seq = k ∧ e.Done := by
    intro k h1 hk
    obtain ⟨e, he, hw, hk'⟩ := logs.earlier ho h1 (by omega)
    refine ⟨e, he, hw.trans howner, hk', (OutboxRow.done_iff e).mpr fun hp => ?_⟩
    exact hfirst e he ⟨hw, hp, by omega⟩
  refine ⟨hearlier, fun later e he hw hlt => ?_⟩
  obtain ⟨e₀, he₀, hw₀, hk₀, hdone⟩ := hearlier e.seq ((eventLogs_calls _).seq_pos he) hlt
  have hkey : e.key = e₀.key := Prod.ext (hw.trans hw₀.symm) hk₀.symm
  have hkept : (run call Db.empty (calls ++ c :: later)).DoneAt e₀.key e₀.id := by
    rw [run_append]
    exact Db.DoneAt.run ⟨e₀, Table.get?_of_mem he₀, rfl, hdone⟩ (c :: later)
  obtain ⟨e₁, he₁, hid, hdone₁⟩ := hkept
  rw [← hkey, Table.get?_of_mem he] at he₁
  cases he₁
  exact ⟨hdone₁, e₀, he₀, hid.symm, hw₀.trans hw.symm, hk₀, hdone⟩

/-- The first event is delivered, and then the second one is handed out. -/
theorem leased_in_order_second :
    ∃ item ∈ handedOut (run call Db.empty (completedWatch.map .store ++ [.leaseDue 10 20 fun _ => false,
        .markDelivered 0])) (.leaseDue 10 20 fun _ => false), item.seq = 2 ∧
      ∃ e ∈ (run call Db.empty (completedWatch.map .store ++ [.leaseDue 10 20 fun _ => false,
        .markDelivered 0])).outbox.rows, e.watchId = item.watchId ∧ e.seq = 1 ∧
          (e.status = .delivered ∨ e.status = .dead) := by
  have hitems : (handedOut (run call Db.empty (completedWatch.map .store ++
      [.leaseDue 10 20 fun _ => false, .markDelivered 0])) (.leaseDue 10 20 fun _ => false)).map
        OutboxItem.seq = [2] := by decide +kernel
  obtain ⟨item, hlist, hseq⟩ := List.map_eq_singleton_iff.mp hitems
  have hitem : item ∈ [item] := List.mem_singleton_self item
  rw [← hlist] at hitem
  exact ⟨item, hitem, hseq, (leased_in_order _ _ item hitem).1 1 (Nat.le_refl 1) (by omega)⟩

/-! ## Workers -/

structure WebhookConfig where
  retryBaseMs : Nat
  retryCapMs : Nat
  /-- How long an event is retried. -/
  maxAgeSecs : Nat
deriving DecidableEq, Repr

/-- `HOST_BUSY_REQUEUE`, in milliseconds. -/
def hostBusyRequeue : Nat := 250

/-- `backoff`, with the number `fastrand` draws. -/
def backoff (baseMs capMs attempt draw : Nat) : Nat :=
  let top := max (min (min (baseMs * 2 ^ min attempt 30) (2 ^ 64 - 1)) capMs) baseMs
  baseMs + draw % (top - baseMs + 1)

/-- How a delivery went. -/
inductive Attempt
  /-- The host is parked for this long. -/
  | parked (wait : Nat)
  /-- No slot of the host came free. -/
  | busy
  | unserialisable
  /-- The request was made, `age` milliseconds after the event was created;
  `status` is that of the response, if there was one. -/
  | sent (status : Option Nat) (age draw : Nat)
deriving DecidableEq, Repr

/-- `StatusCode::is_success`. -/
def isSuccess (status : Nat) : Bool := 200 ≤ status ∧ status < 300

/-- The worker gives the event up. -/
def Attempt.GivesUp (cfg : WebhookConfig) : Attempt → Prop
  | .unserialisable => True
  | .sent status age _ => status.any isSuccess = false ∧ cfg.maxAgeSecs * 1000 ≤ age
  | _ => False

instance (cfg : WebhookConfig) : (a : Attempt) → Decidable (a.GivesUp cfg)
  | .parked _ => isFalse id
  | .busy => isFalse id
  | .unserialisable => isTrue trivial
  | .sent _ _ _ => inferInstanceAs (Decidable (_ ∧ _))

/-- `Dispatcher::deliver`: the report a delivery ends with. -/
def deliver (cfg : WebhookConfig) (item : OutboxItem) : Attempt → Call
  | .parked wait => .release item.id wait
  | .busy => .release item.id hostBusyRequeue
  | .unserialisable => .markDead item.id
  | .sent status age draw =>
      if status.any isSuccess then .markDelivered item.id
      else if cfg.maxAgeSecs * 1000 ≤ age then .markDead item.id
      else .markRetry item.id (backoff cfg.retryBaseMs cfg.retryCapMs item.attempts draw)

/-- The database and the deliveries under way. -/
structure Dispatch where
  db : Db
  inFlight : List OutboxItem

namespace Dispatch

def new : Dispatch := ⟨.empty, []⟩

inductive Event
  | store (op : Op)
  /-- A dispatcher leases events and starts a worker for each. -/
  | lease (limit lease : Nat) (locked : Uuid → Bool)
  /-- The worker is done and its report is committed. -/
  | report (worker : Nat) (attempt : Attempt)
  /-- The worker dies, or its report cannot be written. -/
  | lost (worker : Nat)

def step (cfg : WebhookConfig) (s : Dispatch) : Event → Dispatch
  | .store op => { s with db := exec s.db op }
  | .lease limit lease locked =>
      let (items, db) := leaseDue s.db limit lease locked
      { db, inFlight := s.inFlight ++ items }
  | .report worker attempt =>
      match s.inFlight[worker]? with
      | some item =>
          { db := call s.db (deliver cfg item attempt), inFlight := s.inFlight.eraseIdx worker }
      | none => s
  | .lost worker => { s with inFlight := s.inFlight.eraseIdx worker }

/-- A worker gives up the event `id`. -/
def Abandons (cfg : WebhookConfig) (s : Dispatch) (id : Uuid) : Event → Prop
  | .report worker attempt =>
      ∃ item, s.inFlight[worker]? = some item ∧ item.id = id ∧ attempt.GivesUp cfg
  | _ => False

end Dispatch

/-- The event `id` is delivered. -/
def Db.Delivered (db : Db) (id : Uuid) : Prop :=
  ∃ e ∈ db.outbox.rows, e.id = id ∧ e.status = .delivered

instance (db : Db) (id : Uuid) : Decidable (db.Delivered id) :=
  inferInstanceAs (Decidable (∃ e ∈ _, _))

/-- Nobody gives up an event that is delivered. -/
def Dispatch.Unraced (cfg : WebhookConfig) (s : Dispatch) (ev : Event) : Prop :=
  ∀ id, s.db.Delivered id → ¬ s.Abandons cfg id ev

/-! ## Finality -/

/-- No step of the store takes a delivery back. -/
theorem Db.Delivered.step {id : Uuid} (h : Step db a db') (inv : db.Delivered id) :
    db'.Delivered id := by
  obtain ⟨e, he, hid, hs⟩ := inv
  exact ⟨e, Table.mem_of_get? (h.outbox_kept (Table.get?_of_mem he)), hid, hs⟩

/-- An update that sets no delivered event to another status. -/
theorem Db.Delivered.update {id : Uuid} {cond : OutboxRow → Bool} {set : OutboxRow → OutboxRow}
    (inv : db.Delivered id) (hset : ∀ e : OutboxRow, e.Handled (set e))
    (hkeep : ∀ e, e.id = id → e.status = .delivered → cond e = true → (set e).status = .delivered) :
    (updateOutbox db cond set fun e => (hset e).key).Delivered id := by
  obtain ⟨e, he, rfl, hs⟩ := inv
  refine ⟨if cond e then set e else e, List.mem_map_of_mem he, ?_⟩
  split
  · next hc => exact ⟨(hset e).id, hkeep e rfl hs hc⟩
  · exact ⟨rfl, hs⟩

/-- An event that was just given up is not delivered. -/
theorem not_delivered_markDead (db : Db) (id : Uuid) : ¬ (markDead db id).Delivered id := by
  rintro ⟨e', he', hid, hs⟩
  obtain ⟨e, -, rfl⟩ := List.mem_map.mp he'
  dsimp only at hid hs
  split at hs
  · contradiction
  · next hc =>
      rw [if_neg hc] at hid
      exact hc (decide_eq_true hid)

/-- **Only giving an event up undoes its delivery.** -/
theorem delivered_call_iff {id : Uuid} (h : db.Delivered id) (c : Call) :
    (call db c).Delivered id ↔ c ≠ .markDead id := by
  cases c with
  | store op =>
      exact iff_of_true (exec_invariant (Db.Delivered · id) (fun _ _ _ => Db.Delivered.step) h op)
        (by simp)
  | leaseDue limit lease locked =>
      exact iff_of_true (h.update (OutboxRow.handled_leased _) fun _ _ hs _ => hs) (by simp)
  | markDelivered id' =>
      exact iff_of_true (h.update (OutboxRow.handled_withStatus (by decide)) fun _ _ _ _ => rfl)
        (by simp)
  | markRetry id' delay =>
      exact iff_of_true (h.update (OutboxRow.handled_delayed _) fun _ _ hs _ => hs) (by simp)
  | release id' delay =>
      exact iff_of_true (h.update (OutboxRow.handled_released _) fun _ _ hs _ => hs) (by simp)
  | markDead id' =>
      by_cases heq : id' = id
      · subst heq
        exact iff_of_false (not_delivered_markDead db id') (by simp)
      · refine iff_of_true (h.update (OutboxRow.handled_withStatus (by decide)) fun e he _ hc => ?_)
          (by simpa using heq)
        exact absurd ((of_decide_eq_true hc).symm.trans he) heq

/-- A worker reports `mark_dead` exactly when it gives the event up. -/
theorem deliver_eq_markDead_iff (cfg : WebhookConfig) (item : OutboxItem) (attempt : Attempt)
    (id : Uuid) : deliver cfg item attempt = .markDead id ↔ item.id = id ∧ attempt.GivesUp cfg := by
  cases attempt with
  | parked wait => simp [deliver, Attempt.GivesUp]
  | busy => simp [deliver, Attempt.GivesUp]
  | unserialisable => simp [deliver, Attempt.GivesUp]
  | sent status age draw =>
      simp only [deliver, Attempt.GivesUp]
      by_cases hok : status.any isSuccess = true
      · simp [hok]
      · rw [if_neg hok]
        by_cases hold : cfg.maxAgeSecs * 1000 ≤ age
        · simp [hok, hold]
        · simp [hold]

namespace Dispatch

/-- **The one way to lose a delivery** is a worker that gives the event up. -/
theorem delivered_step_iff {cfg : WebhookConfig} {s : Dispatch} {id : Uuid}
    (h : s.db.Delivered id) (ev : Event) :
    (step cfg s ev).db.Delivered id ↔ ¬ s.Abandons cfg id ev := by
  cases ev with
  | store op => exact iff_of_true ((delivered_call_iff h (.store op)).mpr (by simp)) fun h => h
  | lease limit lease locked =>
      exact iff_of_true ((delivered_call_iff h (.leaseDue limit lease locked)).mpr (by simp)) fun h => h
  | lost worker => exact iff_of_true h fun h => h
  | report worker attempt =>
      simp only [step, Abandons]
      cases hw : s.inFlight[worker]? with
      | none => simpa using h
      | some item =>
          rw [delivered_call_iff h, Ne, deliver_eq_markDead_iff]
          simp

/-- **Delivered is final, unless somebody gives up a delivered event.**  For
any number of workers, leases that run out at any time and reports in any
order: an event once delivered is delivered in every later state of the run
exactly if no worker gives it up then. -/
theorem delivered_final_iff (cfg : WebhookConfig) (events : List Event) :
    (∀ pre mid post, events = pre ++ mid ++ post → ∀ id,
        (run (step cfg) new pre).db.Delivered id →
          (run (step cfg) new (pre ++ mid)).db.Delivered id) ↔
      Along (step cfg) (Unraced cfg) new events := by
  have hsteps : ∀ s ev, (∀ id, s.db.Delivered id → (step cfg s ev).db.Delivered id) ↔
      s.Unraced cfg ev := by
    intro s ev
    exact forall_congr' fun id => imp_congr_right fun h => delivered_step_iff h ev
  exact (along_keeps_iff (P := fun id (s : Dispatch) => s.db.Delivered id)).symm.trans
    (along_congr hsteps)

/-- The event is a minute old.  Its first worker is slow, the lease runs out,
and a second worker delivers it; then the first one gives it up. -/
def lateGiveUp : List Event :=
  completedWatch.map .store ++
    [.store (.tick 60000), .lease 1 20000 fun _ => false, .store (.tick 20001),
      .lease 1 20000 fun _ => false, .report 1 (.sent (some 200) 80001 0),
      .report 0 (.sent none 60000 0)]

/-- The slow worker buries the event that the other has delivered. -/
theorem delivered_then_dead :
    (run (step ⟨1000, 60000, 60⟩) new lateGiveUp.dropLast).db.Delivered 0 ∧
      (run (step ⟨1000, 60000, 60⟩) new lateGiveUp).db.outbox.rows.map
        (fun e => (e.id, e.status)) = [(0, .dead), (1, .pending)] := by
  decide +kernel

end Dispatch

end GumIndexer
