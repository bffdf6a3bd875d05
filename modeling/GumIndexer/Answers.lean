import GumIndexer.Dispatcher

/-!
# GumIndexer.Answers

What the outbox says about the deliveries, against what the webhooks answered.

The log of `Dispatchers` keeps every answer.  A verdict is written by a task
that got its answer earlier, possibly on a lease that has run out, while others
lease, deliver and report the same event; the log backs every verdict all the
same (`delivered_answered`), and the attempts a row counts are never fewer than
the requests that were made for it (`attempts_bound`).
-/

namespace GumIndexer

open Base

/-! ## Rows and calls -/

/-- The item hands out the event of the row. -/
structure OutboxItem.Names (item : OutboxItem) (e : OutboxRow) : Prop where
  id : item.id = e.id
  watchId : item.watchId = e.watchId
  seq : item.seq = e.seq
  eventType : item.eventType = e.eventType
  url : item.url = e.url
  payload : item.payload = e.payload

/-- The row is of the same event, whatever became of its delivery. -/
structure OutboxRow.Twin (e e' : OutboxRow) : Prop where
  id : e'.id = e.id
  watchId : e'.watchId = e.watchId
  seq : e'.seq = e.seq
  eventType : e'.eventType = e.eventType
  url : e'.url = e.url
  payload : e'.payload = e.payload

/-- What an item says holds whatever became of the delivery. -/
theorem OutboxItem.Names.twin {item : OutboxItem} {e e' : OutboxRow} (h : item.Names e)
    (twin : e.Twin e') : item.Names e' :=
  ⟨h.id.trans twin.id.symm, h.watchId.trans twin.watchId.symm, h.seq.trans twin.seq.symm,
    h.eventType.trans twin.eventType.symm, h.url.trans twin.url.symm, h.payload.trans twin.payload.symm⟩

theorem OutboxRow.Twin.refl (e : OutboxRow) : e.Twin e := ⟨rfl, rfl, rfl, rfl, rfl, rfl⟩

/-- What a call of a dispatcher does to a row. -/
def Call.row (db : Db) (e : OutboxRow) : Call → OutboxRow
  | .store _ => e
  | .leaseDue limit lease locked =>
      if Selected (dueEvents db limit locked) e then e.leased (db.now + lease) else e
  | .markDelivered id => if e.id = id then e.withStatus .delivered else e
  | .markRetry id delay => if e.id = id ∧ e.status = .pending then e.delayed (db.now + delay) else e
  | .markDead id => if e.id = id then e.withStatus .dead else e
  | .release id delay => if e.id = id ∧ e.status = .pending then e.released (db.now + delay) else e

section Rows

variable {db : Db} {c : Call} {e : OutboxRow}

/-- A call of a dispatcher changes rows in place. -/
theorem call_rows (hc : ∀ op, c ≠ .store op) :
    (call db c).outbox.rows = db.outbox.rows.map fun e => c.row db e := by
  cases c with
  | store op => exact absurd rfl (hc op)
  | _ => exact List.map_congr_left fun e _ => by simp only [Call.row, decide_eq_true_eq]

/-- It leaves the event itself alone. -/
theorem Call.twin_row (db : Db) (c : Call) (e : OutboxRow) : e.Twin (c.row db e) := by
  cases c with
  | store _ => exact .refl e
  | leaseDue _ _ _ | markDelivered _ | markRetry _ _ | markDead _ | release _ _ =>
      simp only [Call.row]
      split
      · exact ⟨rfl, rfl, rfl, rfl, rfl, rfl⟩
      · exact .refl e

/-- Only its verdict changes the status of an event. -/
theorem Call.status_row (db : Db) (c : Call) (e : OutboxRow) :
    (c.row db e).status = e.status ∨ c = .markDelivered e.id ∧ (c.row db e).status = .delivered ∨
      c = .markDead e.id ∧ (c.row db e).status = .dead := by
  cases c with
  | store _ => exact .inl rfl
  | markDelivered id =>
      simp only [Call.row]
      split
      · next h => exact .inr (.inl ⟨by rw [h], rfl⟩)
      · exact .inl rfl
  | markDead id =>
      simp only [Call.row]
      split
      · next h => exact .inr (.inr ⟨by rw [h], rfl⟩)
      · exact .inl rfl
  | leaseDue _ _ _ | markRetry _ _ | release _ _ =>
      simp only [Call.row]
      split
      · exact .inl rfl
      · exact .inl rfl

/-- A transaction queues events and leaves those that are there alone. -/
theorem Step.outbox_new {db' : Db} {a : Act} (h : Step db a db') (he : e ∈ db'.outbox.rows) :
    e ∈ db.outbox.rows ∨ e.status = .pending := by
  have hpost : ∀ {chain : ChainSpec} {d d' : Db} {w w' : Watch} {type : EventType}
      {view : Option TransferView} {transfers : Table Transfer Transfer.key},
      Post chain d w w' type view transfers d' → e ∈ d'.outbox.rows →
      e ∈ d.outbox.rows ∨ e.status = .pending := fun post he =>
    (post.new_event he).imp_right fun h => by rw [h]; rfl
  cases h with
  | expire _ post => exact hpost post he
  | announce _ _ _ post => exact hpost post he
  | count counts _ =>
      obtain ⟨transfers, -, post⟩ := counts.step
      exact hpost post he
  | complete counts _ post =>
      obtain ⟨transfers, -, post₁⟩ := counts.step
      exact (hpost post he).elim (hpost post₁) .inr
  | orphan _ _ _ _ _ _ post => exact hpost post he
  | moveCursor _ _ outbox _ => rw [outbox] at he; exact .inl he
  | other _ _ outbox _ _ => rw [outbox] at he; exact .inl he
  | _ => exact .inl he

/-- The store queues events as pending. -/
theorem exec_outbox_new {op : Op} (he : e ∈ (exec db op).outbox.rows) :
    e ∈ db.outbox.rows ∨ e.status = .pending :=
  exec_invariant (fun d => ∀ e ∈ d.outbox.rows, e ∈ db.outbox.rows ∨ e.status = .pending)
    (fun _ _ _ h inv e he => (h.outbox_new he).elim (inv e) .inr) (fun _ he => .inl he) op e he

/-- And it takes none back. -/
theorem exec_outbox_kept (op : Op) (he : e ∈ db.outbox.rows) : e ∈ (exec db op).outbox.rows :=
  exec_invariant (fun d => e ∈ d.outbox.rows) (fun _ _ _ h inv => h.appends.subset inv) he op

/-- A call keeps every event. -/
theorem call_keeps (c : Call) (he : e ∈ db.outbox.rows) :
    ∃ e' ∈ (call db c).outbox.rows, e.Twin e' := by
  by_cases hc : ∃ op, c = .store op
  · obtain ⟨op, rfl⟩ := hc
    exact ⟨e, exec_outbox_kept op he, .refl e⟩
  · refine ⟨c.row db e, ?_, c.twin_row db e⟩
    rw [call_rows fun op hop => hc ⟨op, hop⟩]
    exact List.mem_map_of_mem he

/-- **Where a row after a call comes from**: a transaction queued it, or it is
a row from before, with its status unless the call is its verdict. -/
theorem call_row {e' : OutboxRow} (he' : e' ∈ (call db c).outbox.rows) :
    e'.status = .pending ∨
      ∃ e ∈ db.outbox.rows, e.Twin e' ∧ (e'.status = e.status ∨
        c = .markDelivered e.id ∧ e'.status = .delivered ∨ c = .markDead e.id ∧ e'.status = .dead) := by
  by_cases hc : ∃ op, c = .store op
  · obtain ⟨op, rfl⟩ := hc
    exact (exec_outbox_new he').symm.imp_right fun he => ⟨e', he, .refl e', .inl rfl⟩
  · rw [call_rows fun op hop => hc ⟨op, hop⟩] at he'
    obtain ⟨e, he, rfl⟩ := List.mem_map.mp he'
    exact .inr ⟨e, he, c.twin_row db e, c.status_row db e⟩

/-- What a lease hands out are events that were queued. -/
theorem names_of_leaseDue {limit lease : Nat} {locked : Uuid → Bool} {item : OutboxItem}
    (h : item ∈ (leaseDue db limit lease locked).1) : ∃ e ∈ db.outbox.rows, item.Names e := by
  obtain ⟨e, he, rfl⟩ := List.mem_map.mp h
  exact ⟨e, (List.mem_filter.mp he).1, rfl, rfl, rfl, rfl, rfl, rfl⟩

end Rows

/-! ## Verdicts -/

/-- What is known of the event of a row: it was delivered. -/
def Entry.Delivers (e : OutboxRow) : Entry → Prop
  | .answered _ _ item status _ _ => item.Names e ∧ status.any isSuccess = true
  | _ => False

/-- It was given up: it could not be sent, or it failed and is too old. -/
def Entry.GivesUp (cfg : WebhookConfig) (e : OutboxRow) : Entry → Prop
  | .answered _ _ item status age _ =>
      item.Names e ∧ status.any isSuccess = false ∧ cfg.maxAgeSecs * 1000 ≤ age
  | .unserialisable item => item.Names e
  | .restarted _ => False

/-- The event an entry is about. -/
def Entry.item? : Entry → Option OutboxItem
  | .answered _ _ item _ _ _ => some item
  | .unserialisable item => some item
  | .restarted _ => none

/-- An answer is about the event, not about the state of its row. -/
theorem Entry.Delivers.twin {entry : Entry} {e e' : OutboxRow} (h : entry.Delivers e)
    (twin : e.Twin e') : entry.Delivers e' := by
  cases entry with
  | answered => exact ⟨h.1.twin twin, h.2⟩
  | _ => exact h.elim

theorem Entry.GivesUp.twin {cfg : WebhookConfig} {entry : Entry} {e e' : OutboxRow}
    (h : entry.GivesUp cfg e) (twin : e.Twin e') : entry.GivesUp cfg e' := by
  cases entry with
  | answered => exact ⟨h.1.twin twin, h.2⟩
  | unserialisable item => exact OutboxItem.Names.twin h twin
  | restarted _ => exact h.elim

namespace Dispatchers

variable {cfg : DispatcherConfig} {hostOf : String → String} {s : Dispatchers}

/-- The log backs every verdict, given or about to be given. -/
structure Told (cfg : DispatcherConfig) (s : Dispatchers) : Prop where
  items : ∀ w ∈ s.workers, ∃ e ∈ s.db.outbox.rows, w.item.Names e
  entries : ∀ entry ∈ s.log, ∀ item, entry.item? = some item → ∃ e ∈ s.db.outbox.rows, item.Names e
  sent : ∀ w ∈ s.workers, ∀ status age draw slot, w.stage = .reporting (.sent status age draw) slot →
    ∃ proc host clock, .answered proc host w.item status age clock ∈ s.log
  unserialisable : ∀ w ∈ s.workers, ∀ slot, w.stage = .reporting .unserialisable slot →
    .unserialisable w.item ∈ s.log
  delivered : ∀ e ∈ s.db.outbox.rows, e.status = .delivered → ∃ entry ∈ s.log, entry.Delivers e
  dead : ∀ e ∈ s.db.outbox.rows, e.status = .dead →
    ∃ entry ∈ s.log, entry.GivesUp cfg.toWebhookConfig e

/-- At the start nothing was reported. -/
theorem told_new (cfg : DispatcherConfig) : (new cfg).Told cfg := by
  constructor <;> intro x hx <;> cases hx

theorem Told.frame {s' : Dispatchers} (inv : s.Told cfg) (db : s'.db = s.db) (log : s'.log = s.log)
    (workers : ∀ w ∈ s'.workers, w ∈ s.workers) : s'.Told cfg where
  items w hw := by rw [db]; exact inv.items w (workers w hw)
  entries := by rw [db, log]; exact inv.entries
  sent w hw := by rw [log]; exact inv.sent w (workers w hw)
  unserialisable w hw := by rw [log]; exact inv.unserialisable w (workers w hw)
  delivered := by rw [db, log]; exact inv.delivered
  dead := by rw [db, log]; exact inv.dead

/-- A call whose verdict, if it is one, the log backs. -/
theorem Told.call (inv : s.Told cfg) (c : Call)
    (hdelivered : ∀ e ∈ s.db.outbox.rows, c = .markDelivered e.id → ∃ entry ∈ s.log, entry.Delivers e)
    (hdead : ∀ e ∈ s.db.outbox.rows, c = .markDead e.id →
      ∃ entry ∈ s.log, entry.GivesUp cfg.toWebhookConfig e) :
    Told cfg { s with db := GumIndexer.call s.db c } := by
  have hkeeps : ∀ item : OutboxItem, (∃ e ∈ s.db.outbox.rows, item.Names e) →
      ∃ e ∈ (GumIndexer.call s.db c).outbox.rows, item.Names e := by
    rintro item ⟨e, he, hnames⟩
    obtain ⟨e', he', twin⟩ := call_keeps c he
    exact ⟨e', he', hnames.twin twin⟩
  refine ⟨fun w hw => hkeeps _ (inv.items w hw),
    fun entry hentry item hitem => hkeeps _ (inv.entries entry hentry item hitem), inv.sent,
    inv.unserialisable, fun e' he' hstatus => ?_, fun e' he' hstatus => ?_⟩
  · rcases call_row he' with hpending | ⟨e, he, twin, hsame | ⟨hc, -⟩ | ⟨-, hother⟩⟩
    · rw [hpending] at hstatus
      contradiction
    · obtain ⟨entry, hentry, h⟩ := inv.delivered e he (hsame.symm.trans hstatus)
      exact ⟨entry, hentry, h.twin twin⟩
    · obtain ⟨entry, hentry, h⟩ := hdelivered e he hc
      exact ⟨entry, hentry, h.twin twin⟩
    · rw [hother] at hstatus
      contradiction
  · rcases call_row he' with hpending | ⟨e, he, twin, hsame | ⟨-, hother⟩ | ⟨hc, -⟩⟩
    · rw [hpending] at hstatus
      contradiction
    · obtain ⟨entry, hentry, h⟩ := inv.dead e he (hsame.symm.trans hstatus)
      exact ⟨entry, hentry, h.twin twin⟩
    · rw [hother] at hstatus
      contradiction
    · obtain ⟨entry, hentry, h⟩ := hdead e he hc
      exact ⟨entry, hentry, h.twin twin⟩

/-- The verdict of a task that reports. -/
theorem deliver_eq_markDelivered {cfg : WebhookConfig} {item : OutboxItem} {attempt : Attempt}
    {id : Uuid} (h : deliver cfg item attempt = .markDelivered id) :
    item.id = id ∧ ∃ status age draw, attempt = .sent status age draw ∧ status.any isSuccess = true := by
  cases attempt with
  | sent status age draw =>
      simp only [deliver] at h
      split at h
      · next hok => exact ⟨by cases h; rfl, status, age, draw, rfl, hok⟩
      · split at h <;> contradiction
  | _ => contradiction

/-- **A verdict is backed by the log**: the task that reports it has logged what
came of its attempt. -/
theorem Told.reports (inv : s.Told cfg) (numbered : s.db.Numbered) {w : Worker} (hw : w ∈ s.workers)
    {attempt : Attempt} {slot : Bool} (at_ : w.stage = .reporting attempt slot) :
    Told cfg { s with db := GumIndexer.call s.db (deliver cfg.toWebhookConfig w.item attempt) } := by
  -- the row the report is about is the one the item names
  have hnames : ∀ e ∈ s.db.outbox.rows, w.item.id = e.id → w.item.Names e := by
    intro e he hid
    obtain ⟨e₀, he₀, h⟩ := inv.items w hw
    exact numbered.eq_of_id_eq he₀ he (h.id.symm.trans hid) ▸ h
  refine inv.call _ (fun e he hc => ?_) fun e he hc => ?_
  · obtain ⟨hid, status, age, draw, rfl, hok⟩ := deliver_eq_markDelivered hc
    obtain ⟨proc, host, clock, hlog⟩ := inv.sent w hw status age draw slot at_
    exact ⟨_, hlog, hnames e he hid, hok⟩
  · obtain ⟨hid, hgives⟩ := (deliver_eq_markDead_iff ..).mp hc
    cases attempt with
    | unserialisable => exact ⟨_, inv.unserialisable w hw slot at_, hnames e he hid⟩
    | sent status age draw =>
        obtain ⟨proc, host, clock, hlog⟩ := inv.sent w hw status age draw slot at_
        exact ⟨_, hlog, hnames e he hid, hgives.1, hgives.2⟩
    | _ => exact hgives.elim

/-- A turn of a task logs what it finds out before it reports it. -/
theorem Told.advanced (inv : s.Told cfg) {i : Nat} {w : Worker} (hw : s.workers[i]? = some w)
    {p' : Process} {stage : TaskStage} {entries : List Entry}
    (h : Proceeds cfg (hostOf w.item.url) s.clock (s.procs w.proc) w p' stage entries) :
    (s.advanced i w p' stage entries).Told cfg := by
  have hmem : w ∈ s.workers := List.mem_of_getElem? hw
  have hlog : ∀ entry ∈ s.log, entry ∈ entries ++ s.log := fun _ => List.mem_append_right _
  refine ⟨fun w' hw' => ?_, fun entry hentry item hitem => ?_, fun w' hw' status age draw slot hat => ?_,
    fun w' hw' slot hat => ?_, fun e he hs => ?_, fun e he hs => ?_⟩
  · rcases List.mem_or_eq_of_mem_set hw' with hold | rfl
    · exact inv.items w' hold
    · exact inv.items w hmem
  · rcases List.mem_append.mp hentry with hnew | hold
    · cases h with
      | unserialisable _ | answer _ =>
          obtain rfl := List.mem_singleton.mp hnew
          obtain rfl := Option.some.inj hitem
          exact inv.items w hmem
      | _ => cases hnew
    · exact inv.entries entry hold item hitem
  · rcases List.mem_or_eq_of_mem_set hw' with hold | rfl
    · obtain ⟨proc, host, clock, hentry⟩ := inv.sent w' hold status age draw slot hat
      exact ⟨proc, host, clock, hlog _ hentry⟩
    · cases h with
      | answer _ =>
          cases hat
          exact ⟨_, _, _, List.mem_cons_self⟩
      | _ => cases hat
  · rcases List.mem_or_eq_of_mem_set hw' with hold | rfl
    · exact hlog _ (inv.unserialisable w' hold slot hat)
    · cases h with
      | unserialisable _ => exact List.mem_cons_self
      | _ => cases hat
  · obtain ⟨entry, hentry, h⟩ := inv.delivered e he hs
    exact ⟨entry, hlog _ hentry, h⟩
  · obtain ⟨entry, hentry, h⟩ := inv.dead e he hs
    exact ⟨entry, hlog _ hentry, h⟩

/-- **Every turn keeps the verdicts backed.** -/
theorem Told.turns {s' : Dispatchers} (inv : s.Told cfg) (numbered : s.db.Numbered)
    (h : Turns cfg hostOf s s') : s'.Told cfg := by
  cases h with
  | store op => exact inv.call (.store op) (fun _ _ => nofun) fun _ _ => nofun
  | @leases p free locked _ =>
      have hcall := inv.call (.leaseDue free cfg.lease locked) (fun _ _ => nofun) fun _ _ => nofun
      refine ⟨fun w hw => ?_, hcall.entries, fun w hw status age draw slot hat => ?_,
        fun w hw slot hat => ?_, hcall.delivered, hcall.dead⟩
      · rcases List.mem_append.mp hw with hold | hnew
        · exact hcall.items w hold
        · obtain ⟨item, hitem, rfl⟩ := List.mem_map.mp hnew
          obtain ⟨e, he, hnames⟩ := names_of_leaseDue hitem
          obtain ⟨e', he', twin⟩ := call_keeps (.leaseDue free cfg.lease locked) he
          exact ⟨e', he', hnames.twin twin⟩
      · rcases List.mem_append.mp hw with hold | hnew
        · exact inv.sent w hold status age draw slot hat
        · obtain ⟨item, -, rfl⟩ := List.mem_map.mp hnew
          cases hat
      · rcases List.mem_append.mp hw with hold | hnew
        · exact inv.unserialisable w hold slot hat
        · obtain ⟨item, -, rfl⟩ := List.mem_map.mp hnew
          cases hat
  | advances hw h => exact inv.advanced hw h
  | @reports i w attempt slot hw hat =>
      exact (inv.reports numbered (List.mem_of_getElem? hw) hat).frame rfl rfl fun w' hw' =>
        List.mem_of_mem_eraseIdx hw'
  | @leaves i w hw => exact inv.frame rfl rfl fun w' hw' => List.mem_of_mem_eraseIdx hw'
  | @restarts p _ =>
      have hlog : ∀ entry ∈ s.log, entry ∈ Entry.restarted p :: s.log := fun _ => List.mem_cons_of_mem _
      refine ⟨inv.items, fun entry hentry item hitem => ?_, fun w hw status age draw slot hat => ?_,
        fun w hw slot hat => hlog _ (inv.unserialisable w hw slot hat), fun e he hs => ?_,
        fun e he hs => ?_⟩
      · rcases List.mem_cons.mp hentry with rfl | hold
        · cases hitem
        · exact inv.entries entry hold item hitem
      · obtain ⟨proc, host, clock, hentry⟩ := inv.sent w hw status age draw slot hat
        exact ⟨proc, host, clock, hlog _ hentry⟩
      · obtain ⟨entry, hentry, h⟩ := inv.delivered e he hs
        exact ⟨entry, hlog _ hentry, h⟩
      · obtain ⟨entry, hentry, h⟩ := inv.dead e he hs
        exact ⟨entry, hlog _ hentry, h⟩
  | idle | polls _ | leaseFails _ | elapses _ => exact inv.frame rfl rfl fun _ h => h

end Dispatchers

/-- **What the outbox says happened.**  In every run of any number of
processes: an event that is marked delivered was sent, as it was queued and to
the URL it was queued for, and the answer was a success; an event that is dead
could not be sent, or failed when it was too old; and nothing but queued events
was ever sent. -/
theorem delivered_answered (cfg : DispatcherConfig) (hostOf : String → String)
    (events : List Dispatchers.Event) :
    let s := run (Dispatchers.step cfg hostOf) (.new cfg) events
    (∀ e ∈ s.db.outbox.rows, e.status = .delivered → ∃ entry ∈ s.log, entry.Delivers e) ∧
      (∀ e ∈ s.db.outbox.rows, e.status = .dead →
        ∃ entry ∈ s.log, entry.GivesUp cfg.toWebhookConfig e) ∧
      ∀ entry ∈ s.log, ∀ item, entry.item? = some item → ∃ e ∈ s.db.outbox.rows, item.Names e := by
  intro s
  have hinv : s.db.Numbered ∧ s.Told cfg :=
    invariant_run (fun s : Dispatchers => s.db.Numbered ∧ s.Told cfg)
      (fun s e inv => ⟨Dispatchers.numbered_turns inv.1 (Dispatchers.step_turns cfg hostOf s e),
        inv.2.turns inv.1 (Dispatchers.step_turns cfg hostOf s e)⟩)
      ⟨by rfl, Dispatchers.told_new cfg⟩ events
  exact ⟨hinv.2.delivered, hinv.2.dead, hinv.2.entries⟩

/-! ## Attempts -/

/-- The answer to a request for the event. -/
def Entry.isAnswer (id : Uuid) : Entry → Bool
  | .answered _ _ item _ _ _ => item.id = id
  | _ => false

def TaskStage.isSent : TaskStage → Bool
  | .reporting (.sent _ _ _) _ => true
  | _ => false

/-- The event was handed out to the task, which has no answer yet. -/
def Worker.isOpen (id : Uuid) (w : Worker) : Bool := w.item.id = id ∧ w.stage.isSent = false

/-- A lease counts an attempt, a release takes it back. -/
theorem Call.attempts_row (db : Db) (c : Call) (e : OutboxRow) :
    (c.row db e).attempts = e.attempts ∨
      (∃ limit lease locked, c = .leaseDue limit lease locked ∧
        Selected (dueEvents db limit locked) e ∧ (c.row db e).attempts = e.attempts + 1) ∨
      ∃ delay, c = .release e.id delay ∧ (c.row db e).attempts = e.attempts - 1 := by
  cases c with
  | leaseDue limit lease locked =>
      simp only [Call.row]
      split
      · next h => exact .inr (.inl ⟨limit, lease, locked, rfl, h, rfl⟩)
      · exact .inl rfl
  | release id delay =>
      simp only [Call.row]
      split
      · next h => exact .inr (.inr ⟨delay, by rw [h.1], rfl⟩)
      · exact .inl rfl
  | store _ => exact .inl rfl
  | markDelivered _ | markRetry _ _ | markDead _ =>
      simp only [Call.row]
      split <;> exact .inl rfl

namespace Dispatchers

variable {cfg : DispatcherConfig} {hostOf : String → String} {s : Dispatchers}

/-- The requests for an event that were answered. -/
def answered (s : Dispatchers) (id : Uuid) : Nat := s.log.countP (Entry.isAnswer id)

/-- The tasks that have an event and no answer. -/
def underWay (s : Dispatchers) (id : Uuid) : Nat := s.workers.countP (Worker.isOpen id)

/-- No attempt goes uncounted. -/
def Attempted (s : Dispatchers) : Prop :=
  ∀ e ∈ s.db.outbox.rows, s.answered e.id + s.underWay e.id ≤ e.attempts

/-- An event that was just queued has not been handed out. -/
theorem unknown_of_fresh (told : s.Told cfg) (id : Uuid) (fresh : ∀ e ∈ s.db.outbox.rows, e.id ≠ id) :
    s.answered id = 0 ∧ s.underWay id = 0 := by
  constructor
  · refine List.countP_eq_zero.mpr fun entry hentry h => ?_
    cases entry with
    | answered _ _ item _ _ _ =>
        obtain ⟨e, he, hnames⟩ := told.entries _ hentry item rfl
        exact fresh e he (hnames.id.symm.trans (of_decide_eq_true h))
    | _ => cases h
  · refine List.countP_eq_zero.mpr fun w hw h => ?_
    obtain ⟨e, he, hnames⟩ := told.items w hw
    exact fresh e he (hnames.id.symm.trans (of_decide_eq_true h).1)

/-- A new event has no attempts, and nobody has it. -/
theorem Attempted.store (inv : s.Attempted) (told : s.Told cfg) (numbered : s.db.Numbered) (op : Op) :
    Attempted { s with db := exec s.db op } := by
  intro e he
  by_cases hold : e ∈ s.db.outbox.rows
  · exact inv e hold
  · have hnumbered : (exec s.db op).Numbered :=
      exec_invariant Db.Numbered (fun _ _ _ => Db.Numbered.step) numbered op
    obtain ⟨hanswered, hunderWay⟩ := unknown_of_fresh told e.id fun e₀ he₀ hid =>
      hold (hnumbered.eq_of_id_eq (exec_outbox_kept op he₀) he hid ▸ he₀)
    change s.answered e.id + s.underWay e.id ≤ _
    omega

/-- The tasks a lease starts for an event: one, if it is selected. -/
theorem countP_handedOut {db : Db} (numbered : db.Numbered) {e : OutboxRow} (limit lease p : Nat)
    (locked : Uuid → Bool) :
    ((leaseDue db limit lease locked).1.map fun item => (⟨p, item, .leased⟩ : Worker)).countP
        (Worker.isOpen e.id) ≤ if Selected (dueEvents db limit locked) e then 1 else 0 := by
  have hids : (db.outbox.rows.map OutboxRow.id).Nodup := by
    rw [numbered]
    exact List.nodup_range
  have hone : db.outbox.rows.countP (fun o => o.id = e.id) ≤ 1 := by
    have h := List.nodup_iff_count_le_one.mp hids e.id
    rw [List.count, List.countP_map] at h
    refine le_trans (le_of_eq (List.countP_congr fun o _ => ?_)) h
    simp
  rw [leaseDue, List.map_map, List.countP_map, List.countP_filter]
  split
  · refine le_trans (List.countP_mono_left fun o _ ho => ?_) hone
    simp only [Bool.and_eq_true, Function.comp_apply, Worker.isOpen, decide_eq_true_eq] at ho
    exact decide_eq_true ho.1.1
  · next hsel =>
      refine le_of_eq (List.countP_eq_zero.mpr fun o _ ho => hsel ?_)
      simp only [Bool.and_eq_true, Function.comp_apply, Worker.isOpen, decide_eq_true_eq] at ho
      have hid : o.id = e.id := ho.1.1
      have hselected := ho.2
      rw [Selected] at hselected ⊢
      rwa [← hid]

/-- A lease counts an attempt for each task it starts. -/
theorem Attempted.lease (cfg : DispatcherConfig) (inv : s.Attempted) (numbered : s.db.Numbered) {p free : Nat}
    (locked : Uuid → Bool) {s' : Dispatchers}
    (db : s'.db = GumIndexer.call s.db (.leaseDue free cfg.lease locked)) (log : s'.log = s.log)
    (workers : s'.workers = s.workers ++
      (leaseDue s.db free cfg.lease locked).1.map fun item => ⟨p, item, .leased⟩) : s'.Attempted := by
  intro e' he'
  rw [db, call_rows (by simp)] at he'
  obtain ⟨e, he, rfl⟩ := List.mem_map.mp he'
  have hold := inv e he
  have hnew := countP_handedOut numbered (e := e) free cfg.lease p locked
  rw [(Call.twin_row s.db (.leaseDue free cfg.lease locked) e).id, answered, log, underWay, workers,
    List.countP_append]
  change s.answered e.id + (s.underWay e.id + _) ≤ _
  simp only [Call.row]
  split
  · next hsel =>
      rw [if_pos hsel] at hnew
      simp only [OutboxRow.leased]
      omega
  · next hsel =>
      rw [if_neg hsel] at hnew
      omega

/-- A task counts as under way until it is answered. -/
theorem isOpen_iff {id : Uuid} {w : Worker} :
    w.isOpen id = true ↔ w.item.id = id ∧ w.stage.isSent = false := by simp [Worker.isOpen]

/-- An answer takes its task from the one count to the other. -/
theorem Attempted.advanced (inv : s.Attempted) {i : Nat} {w : Worker} (hw : s.workers[i]? = some w)
    {p' : Process} {stage : TaskStage} {entries : List Entry}
    (h : Proceeds cfg (hostOf w.item.url) s.clock (s.procs w.proc) w p' stage entries) :
    (s.advanced i w p' stage entries).Attempted := by
  intro e he
  have hold := inv e he
  have hset := countP_set (Worker.isOpen e.id) hw { w with stage }
  have hlog : (s.advanced i w p' stage entries).answered e.id =
      entries.countP (Entry.isAnswer e.id) + s.answered e.id := List.countP_append
  change (s.advanced i w p' stage entries).underWay e.id + _ = s.underWay e.id + _ at hset
  -- an answer turns a task under way into an entry of the log
  have hmoves : entries.countP (Entry.isAnswer e.id) + (Worker.isOpen e.id { w with stage }).toNat ≤
      (w.isOpen e.id).toNat := by
    cases h with
    | answer at_ =>
        by_cases hid : w.item.id = e.id
        · simp [Entry.isAnswer, Worker.isOpen, TaskStage.isSent, hid, at_]
        · simp [Entry.isAnswer, Worker.isOpen, hid]
    | spawn at_ _ | parked at_ _ | clear at_ _ | slot at_ _ | busy at_ _ | unserialisable at_ =>
        simp [Entry.isAnswer, Worker.isOpen, TaskStage.isSent, at_]
  omega

/-- A task that ends no longer counts. -/
theorem Attempted.leave (inv : s.Attempted) {i : Nat} {w : Worker} (hw : s.workers[i]? = some w) :
    (s.leave hostOf i w).Attempted := by
  intro e he
  have hold := inv e he
  have herase := countP_eraseIdx (Worker.isOpen e.id) hw
  change s.answered e.id + (s.workers.eraseIdx i).countP _ ≤ _
  unfold underWay at hold
  omega

/-- A report is about the event of the task, and takes back the attempt only if
there was none. -/
theorem deliver_cases (cfg : WebhookConfig) (item : OutboxItem) (attempt : Attempt) (slot : Bool) :
    (∃ delay, deliver cfg item attempt = .release item.id delay ∧
        (TaskStage.reporting attempt slot).isSent = false) ∨
      deliver cfg item attempt = .markDelivered item.id ∨
      deliver cfg item attempt = .markDead item.id ∨
      ∃ delay, deliver cfg item attempt = .markRetry item.id delay := by
  cases attempt with
  | parked wait => exact .inl ⟨wait, rfl, rfl⟩
  | busy => exact .inl ⟨_, rfl, rfl⟩
  | unserialisable => exact .inr (.inr (.inl rfl))
  | sent status age draw =>
      simp only [deliver]
      split
      · exact .inr (.inl rfl)
      · split
        · exact .inr (.inr (.inl rfl))
        · exact .inr (.inr (.inr ⟨_, rfl⟩))

/-- A release takes an attempt back, and only a task that was not answered
releases. -/
theorem Attempted.reports (inv : s.Attempted) {i : Nat} {w : Worker} (hw : s.workers[i]? = some w)
    {attempt : Attempt} {slot : Bool} (at_ : w.stage = .reporting attempt slot) :
    Attempted { s.leave hostOf i w with
      db := GumIndexer.call s.db (deliver cfg.toWebhookConfig w.item attempt) } := by
  have hcases := deliver_cases cfg.toWebhookConfig w.item attempt slot
  generalize deliver cfg.toWebhookConfig w.item attempt = c at hcases
  have hcall : ∀ op, c ≠ .store op := by
    rcases hcases with ⟨delay, rfl, -⟩ | rfl | rfl | ⟨delay, rfl⟩ <;> simp
  intro e' he'
  simp only at he'
  rw [call_rows hcall] at he'
  obtain ⟨e, he, rfl⟩ := List.mem_map.mp he'
  have hold := inv e he
  have herase := countP_eraseIdx (Worker.isOpen e.id) hw
  rw [(c.twin_row s.db e).id]
  change s.answered e.id + (s.workers.eraseIdx i).countP _ ≤ _
  unfold underWay at hold
  rcases c.attempts_row s.db e with hsame | ⟨limit, lease, locked, rfl, -, -⟩ | ⟨delay, hrelease, hless⟩
  · omega
  · simp at hcases
  · -- the attempt that is taken back is that of the task itself
    have hcounted : w.isOpen e.id = true := by
      rcases hcases with ⟨delay', rfl, hunsent⟩ | rfl | rfl | ⟨delay', rfl⟩
      · exact isOpen_iff.mpr ⟨(Call.release.inj hrelease).1, by rw [at_]; exact hunsent⟩
      all_goals contradiction
    rw [hcounted, Bool.toNat_true] at herase
    omega

/-- **Every turn keeps the attempts counted.** -/
theorem Attempted.turns {s' : Dispatchers} (inv : s.Attempted) (told : s.Told cfg)
    (numbered : s.db.Numbered) (h : Turns cfg hostOf s s') : s'.Attempted := by
  cases h with
  | store op => exact inv.store told numbered op
  | leases locked _ => exact inv.lease cfg numbered locked rfl rfl rfl
  | advances hw h => exact inv.advanced hw h
  | reports hw hat => exact inv.reports hw hat
  | leaves hw => exact inv.leave hw
  | @restarts p _ =>
      intro e he
      change (Entry.restarted p :: s.log).countP _ + _ ≤ _
      rw [List.countP_cons_of_neg (by simp [Entry.isAnswer])]
      exact inv e he
  | idle | polls _ | leaseFails _ | elapses _ => exact inv

end Dispatchers

/-- **Attempts are not under-reported.**  In every run, the attempts a row
counts are at least the requests that were answered for its event and the tasks
that still have it; so an event that is handed out again carries an attempt
number above the number of requests answered so far. -/
theorem attempts_bound (cfg : DispatcherConfig) (hostOf : String → String)
    (events : List Dispatchers.Event) :
    let s := run (Dispatchers.step cfg hostOf) (.new cfg) events
    (∀ e ∈ s.db.outbox.rows, s.answered e.id + s.underWay e.id ≤ e.attempts) ∧
      ∀ limit lease locked, ∀ item ∈ (leaseDue s.db limit lease locked).1,
        s.answered item.id + s.underWay item.id < item.attempts := by
  intro s
  have hinv : s.db.Numbered ∧ s.Told cfg ∧ s.Attempted :=
    invariant_run (fun s : Dispatchers => s.db.Numbered ∧ s.Told cfg ∧ s.Attempted)
      (fun s e inv => ⟨Dispatchers.numbered_turns inv.1 (Dispatchers.step_turns cfg hostOf s e),
        inv.2.1.turns inv.1 (Dispatchers.step_turns cfg hostOf s e),
        inv.2.2.turns inv.2.1 inv.1 (Dispatchers.step_turns cfg hostOf s e)⟩)
      ⟨by rfl, Dispatchers.told_new cfg, fun e he => by cases he⟩ events
  refine ⟨hinv.2.2, fun limit lease locked item hitem => ?_⟩
  obtain ⟨e, he, rfl⟩ := List.mem_map.mp hitem
  exact Nat.lt_succ_of_le (hinv.2.2 e (List.mem_filter.mp he).1)

end GumIndexer
