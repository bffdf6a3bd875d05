import GumIndexer.Answers
import GumIndexer.Base.Firsts

/-!
# GumIndexer.Receiver

What arrives at a webhook.

The README promises deliveries "at least once and ordered per watch", and asks
receivers to dedupe on `id`.  `Exchange` puts a receiver beside the dispatchers
of `GumIndexer.Dispatcher`: it records the payloads of requests, and answers
with a success only to a payload it has recorded.  A request may be recorded
long after it timed out or its process was gone, or recorded and its answer
lost, so the receiver may well get events again, late and on leases that have
run out.

* `received_in_order` — when an event is recorded, every earlier event of its
  watch was recorded before, or given up;
* `consumer_exact` — a receiver that dedupes on `id` never adds up more than was
  counted, and has the events of the watch as they were written unless one of
  them was given up.
-/

namespace GumIndexer

open Base

/-! ## The payload of a row -/

/-- The payload says about the event what the row does. -/
structure OutboxRow.Worded (e : OutboxRow) : Prop where
  id : e.payload.id = e.id
  eventType : e.payload.eventType = e.eventType
  sequence : e.payload.sequence = e.seq
  watchId : e.payload.watch.id = e.watchId

/-- A new event has the payload of its columns. -/
theorem worded_eventRow (db : Db) (chain : ChainSpec) (watch : WatchRow) (type : EventType)
    (view : Option TransferView) : (eventRow db chain watch type view).Worded := ⟨rfl, rfl, rfl, rfl⟩

def Db.Worded (db : Db) : Prop := ∀ e ∈ db.outbox.rows, e.Worded

section Rows

variable {db db' : Db} {a : Act} {e e' : OutboxRow}

/-- A post queues one, so the payloads stay in step with the columns. -/
theorem Post.worded {chain : ChainSpec} {w w' : Watch} {type : EventType} {view : Option TransferView}
    {transfers : Table Transfer Transfer.key} (h : Post chain db w w' type view transfers db')
    (inv : db.Worded) : db'.Worded := by
  intro e he
  rcases h.new_event he with hold | rfl
  · exact inv e hold
  · exact worded_eventRow ..

/-- So they do over every step. -/
theorem Db.Worded.step (h : Step db a db') (inv : db.Worded) : db'.Worded := by
  cases h with
  | expire _ post => exact post.worded inv
  | announce _ _ _ post => exact post.worded inv
  | count counts _ =>
      obtain ⟨transfers, -, post⟩ := counts.step
      exact post.worded inv
  | complete counts _ post =>
      obtain ⟨transfers, -, post₁⟩ := counts.step
      exact post.worded (post₁.worded inv)
  | orphan _ _ _ _ _ _ post => exact post.worded inv
  | moveCursor _ _ outbox _ => rw [Db.Worded, outbox]; exact inv
  | other _ _ outbox _ _ => rw [Db.Worded, outbox]; exact inv
  | _ => exact inv

/-- And so they do whatever a dispatcher does. -/
theorem Db.Worded.handled (h : db.Handled db') (inv : db.Worded) : db'.Worded := by
  obtain ⟨f, hf, hrows, -⟩ := h
  intro e' he'
  rw [hrows] at he'
  obtain ⟨e, he, rfl⟩ := List.mem_map.mp he'
  have hkey := (hf e).key
  have hold := inv e he
  exact ⟨by rw [(hf e).payload, (hf e).id, hold.id],
    by rw [(hf e).payload, (hf e).eventType, hold.eventType],
    by rw [(hf e).payload, hold.sequence]; exact (congrArg Prod.snd hkey).symm,
    by rw [(hf e).payload, hold.watchId]; exact (congrArg Prod.fst hkey).symm⟩

/-- Events that are queued later have greater numbers. -/
theorem EventLogs.seq_lt_of_append (inv : EventLogs db') {old new : List OutboxRow}
    (rows : db'.outbox.rows = old ++ new) (he : e ∈ old) (he' : e' ∈ new)
    (same : e.watchId = e'.watchId) : e.seq < e'.seq := by
  obtain ⟨w, hw⟩ := inv.known e' (by rw [rows]; exact List.mem_append_right _ he')
  have hid : w.id = e'.watchId := Table.key_of_get? hw
  have hseqs := (inv.log _ w hw).seqs
  have hsorted : (List.range' 1 w.nextEventSeq).Pairwise (· < ·) := List.pairwise_lt_range'
  rw [← hseqs, Db.events, rows, List.filter_append, List.map_append, List.pairwise_append] at hsorted
  exact hsorted.2.2 _ (List.mem_map_of_mem (List.mem_filter.mpr ⟨he, by simp [same, hid]⟩))
    _ (List.mem_map_of_mem (List.mem_filter.mpr ⟨he', by simp [hid]⟩))

/-- What may become of the queue: the events stay what they are, and what comes
is later than what there is of its watch. -/
def Db.Extends (db db' : Db) : Prop :=
  ∀ e' ∈ db'.outbox.rows, (∃ e ∈ db.outbox.rows, e.Twin e') ∨
    ∀ e ∈ db.outbox.rows, e.watchId = e'.watchId → e.seq < e'.seq

/-- An unchanged queue is an extension. -/
theorem Db.Extends.refl (db : Db) : db.Extends db := fun e he => .inl ⟨e, he, .refl e⟩

/-- **A call only extends the queue.** -/
theorem extends_call (logs : EventLogs db) (c : Call) : db.Extends (call db c) := by
  intro e' he'
  by_cases hc : ∃ op, c = .store op
  · obtain ⟨op, rfl⟩ := hc
    have hlogs : EventLogs (exec db op) := exec_invariant EventLogs (fun _ _ _ => EventLogs.step) logs op
    obtain ⟨new, hrows⟩ : db.outbox.rows <+: (exec db op).outbox.rows :=
      exec_invariant (fun d => db.outbox.rows <+: d.outbox.rows)
        (fun _ _ _ h inv => inv.trans h.appends) (List.prefix_refl _) op
    change e' ∈ (exec db op).outbox.rows at he'
    rw [← hrows] at he'
    rcases List.mem_append.mp he' with hold | hnew
    · exact .inl ⟨e', hold, .refl e'⟩
    · exact .inr fun e he hsame => hlogs.seq_lt_of_append hrows.symm he hnew hsame
  · rw [call_rows fun op hop => hc ⟨op, hop⟩] at he'
    obtain ⟨e, he, rfl⟩ := List.mem_map.mp he'
    exact .inl ⟨e, he, c.twin_row db e⟩

end Rows

/-! ## The exchange -/

/-- A success was answered to a payload in the inbox. -/
def Entry.Recorded (inbox : List EventPayload) : Entry → Prop
  | .answered _ _ item status _ _ => status.any isSuccess = true → item.payload ∈ inbox
  | _ => True

instance (inbox : List EventPayload) (entry : Entry) : Decidable (entry.Recorded inbox) := by
  unfold Entry.Recorded
  split <;> infer_instance

/-- The dispatchers and a receiver. -/
structure Exchange where
  sys : Dispatchers
  /-- The payloads that were sent, by tasks that may be gone since. -/
  wire : List EventPayload
  /-- What the receiver has recorded, oldest first. -/
  inbox : List EventPayload

namespace Exchange

inductive Event
  /-- A turn of the dispatchers, unless it is a success the receiver would not
  have answered. -/
  | dispatch (e : Dispatchers.Event)
  /-- The receiver records a payload that was sent at some time. -/
  | record (request : Nat)

def new (cfg : DispatcherConfig) : Exchange := ⟨.new cfg, [], []⟩

/-- The payloads of the requests that are under way. -/
def requests (sys : Dispatchers) : List EventPayload :=
  (sys.workers.filter fun w => w.stage = .posting).map fun w => w.item.payload

def step (cfg : DispatcherConfig) (hostOf : String → String) (s : Exchange) : Event → Exchange
  | .dispatch e =>
      let sys := s.sys.step cfg hostOf e
      if ∀ entry ∈ sys.log, entry.Recorded s.inbox then
        { s with sys, wire := s.wire ++ requests sys }
      else s
  | .record i =>
      match s.wire[i]? with
      | some p => { s with inbox := s.inbox ++ [p] }
      | none => s

/-! ## The order of what is recorded -/

/-- The events of the watch before this one are in the inbox, or given up. -/
def Preceded (cfg : DispatcherConfig) (sys : Dispatchers) (inbox : List EventPayload)
    (p : EventPayload) : Prop :=
  ∀ e ∈ sys.db.outbox.rows, e.payload.watch.id = p.watch.id → e.payload.sequence < p.sequence →
    e.payload ∈ inbox ∨ ∃ entry ∈ sys.log, entry.GivesUp cfg.toWebhookConfig e

variable {cfg : DispatcherConfig} {hostOf : String → String} {s : Exchange} {sys' : Dispatchers}

/-- What is settled stays settled: no earlier event can come. -/
theorem Preceded.extend {sys : Dispatchers} {inbox : List EventPayload} {e₀ : OutboxRow}
    (h : Preceded cfg sys inbox e₀.payload) (he₀ : e₀ ∈ sys.db.outbox.rows) (worded : sys.db.Worded)
    (worded' : sys'.db.Worded) (rows : sys.db.Extends sys'.db) (log : sys.log ⊆ sys'.log) :
    Preceded cfg sys' inbox e₀.payload := by
  intro e' he' hsame hlt
  rcases rows e' he' with ⟨e, he, twin⟩ | hlater
  · rw [twin.payload] at hsame hlt ⊢
    rcases h e he hsame hlt with hin | ⟨entry, hentry, hgives⟩
    · exact .inl hin
    · exact .inr ⟨entry, log hentry, hgives.twin twin⟩
  · have hnot : e₀.seq < e'.seq := hlater e₀ he₀ (by
      rw [← (worded e₀ he₀).watchId, ← hsame, (worded' e' he').watchId])
    rw [(worded' e' he').sequence, (worded e₀ he₀).sequence] at hlt
    omega

structure Orderly (cfg : DispatcherConfig) (s : Exchange) : Prop where
  told : s.sys.Told cfg
  numbered : s.sys.db.Numbered
  logs : EventLogs s.sys.db
  worded : s.sys.db.Worded
  recorded : ∀ entry ∈ s.sys.log, entry.Recorded s.inbox
  queued : ∀ p ∈ s.inbox, ∃ e ∈ s.sys.db.outbox.rows, e.payload = p
  tasks : ∀ w ∈ s.sys.workers, Preceded cfg s.sys s.inbox w.item.payload
  sent : ∀ p ∈ s.wire, (∃ e ∈ s.sys.db.outbox.rows, e.payload = p) ∧ Preceded cfg s.sys s.inbox p
  order : ∀ older p newer, s.inbox = older ++ p :: newer → Preceded cfg s.sys older p

/-- At the start the receiver has nothing. -/
theorem orderly_new (cfg : DispatcherConfig) : Orderly cfg (new cfg) where
  told := Dispatchers.told_new cfg
  numbered := by rfl
  logs := .empty
  worded := by intro e he; cases he
  recorded := by intro entry hentry; cases hentry
  queued := by intro p hp; cases hp
  tasks := by intro w hw; cases hw
  sent := by intro p hp; cases hp
  order := by intro older p newer h; simp [new] at h

/-- The database is left alone, or called once. -/
theorem turns_db {sys : Dispatchers} (h : Dispatchers.Turns cfg hostOf sys sys') :
    sys'.db = sys.db ∨ ∃ c, sys'.db = call sys.db c := by
  cases h with
  | store op => exact .inr ⟨.store op, rfl⟩
  | leases locked _ => exact .inr ⟨.leaseDue _ cfg.lease locked, rfl⟩
  | reports _ _ => exact .inr ⟨_, rfl⟩
  | _ => exact .inl rfl

/-- What holds of the database after every call holds after a turn. -/
theorem turns_holds {sys : Dispatchers} (h : Dispatchers.Turns cfg hostOf sys sys') (P : Db → Prop)
    (hcall : ∀ c, P (call sys.db c)) (hdb : P sys.db) : P sys'.db := by
  rcases turns_db h with heq | ⟨c, heq⟩
  · rwa [heq]
  · rw [heq]
    exact hcall c

/-- An event that is queued stays queued. -/
theorem turns_queued {sys : Dispatchers} (h : Dispatchers.Turns cfg hostOf sys sys') {p : EventPayload}
    (hp : ∃ e ∈ sys.db.outbox.rows, e.payload = p) : ∃ e ∈ sys'.db.outbox.rows, e.payload = p := by
  refine turns_holds h (fun db => ∃ e ∈ db.outbox.rows, e.payload = p) (fun c => ?_) hp
  obtain ⟨e, he, rfl⟩ := hp
  obtain ⟨e', he', twin⟩ := call_keeps c he
  exact ⟨e', he', twin.payload⟩

/-- What is logged stays logged. -/
theorem turns_log {sys : Dispatchers} (h : Dispatchers.Turns cfg hostOf sys sys') :
    sys.log ⊆ sys'.log := by
  cases h with
  | advances _ _ => exact List.subset_append_right _ _
  | restarts _ => exact List.subset_cons_self _ _
  | _ => exact List.Subset.refl _

/-- A task has an event that was leased to it before, or is leased to it now. -/
theorem turns_tasks {sys : Dispatchers} (h : Dispatchers.Turns cfg hostOf sys sys') {w : Worker}
    (hw : w ∈ sys'.workers) : (∃ w₀ ∈ sys.workers, w₀.item = w.item) ∨
      ∃ c, w.item ∈ handedOut sys.db c := by
  cases h with
  | leases locked _ =>
      rcases List.mem_append.mp hw with hold | hnew
      · exact .inl ⟨w, hold, rfl⟩
      · obtain ⟨item, hitem, rfl⟩ := List.mem_map.mp hnew
        exact .inr ⟨.leaseDue _ cfg.lease locked, hitem⟩
  | advances hget _ =>
      rcases List.mem_or_eq_of_mem_set hw with hold | rfl
      · exact .inl ⟨w, hold, rfl⟩
      · exact .inl ⟨_, List.mem_of_getElem? hget, rfl⟩
  | reports _ _ | leaves _ => exact .inl ⟨w, List.mem_of_mem_eraseIdx hw, rfl⟩
  | idle | store _ | polls _ | leaseFails _ | restarts _ | elapses _ => exact .inl ⟨w, hw, rfl⟩

/-- An event that is marked delivered was recorded. -/
theorem Orderly.delivered (inv : Orderly cfg s) {e : OutboxRow} (he : e ∈ s.sys.db.outbox.rows)
    (h : e.status = .delivered) : e.payload ∈ s.inbox := by
  obtain ⟨entry, hentry, hdelivers⟩ := inv.told.delivered e he h
  have hrecorded := inv.recorded entry hentry
  cases entry with
  | answered =>
      rw [← hdelivers.1.payload]
      exact hrecorded hdelivers.2
  | _ => exact hdelivers.elim

/-- **What is leased has nothing before it**: the earlier events have a verdict,
and the log backs it. -/
theorem Orderly.leased (inv : Orderly cfg s) {c : Call} {item : OutboxItem}
    (h : item ∈ handedOut s.sys.db c) : Preceded cfg s.sys s.inbox item.payload := by
  obtain ⟨o, ho, hfirst, howner, hseq⟩ := mem_handedOut inv.numbered h
  obtain ⟨e₀, he₀, hnames⟩ : ∃ e₀ ∈ s.sys.db.outbox.rows, item.Names e₀ := by
    cases c with
    | leaseDue limit lease locked => exact names_of_leaseDue h
    | _ => cases h
  have hword := inv.worded e₀ he₀
  rw [hnames.payload]
  intro e he hsame hlt
  rw [(inv.worded e he).watchId, hword.watchId, ← hnames.watchId, ← howner] at hsame
  rw [(inv.worded e he).sequence, hword.sequence, ← hnames.seq, ← hseq] at hlt
  have hdone : e.Done := (OutboxRow.done_iff e).mpr fun hpending => hfirst e he ⟨hsame, hpending, hlt⟩
  rcases hdone with hdelivered | hdead
  · exact .inl (inv.delivered he hdelivered)
  · exact .inr (inv.told.dead e he hdead)

/-- **Every turn of the dispatchers keeps the order.** -/
theorem Orderly.turns (inv : Orderly cfg s) (h : Dispatchers.Turns cfg hostOf s.sys sys')
    (recorded : ∀ entry ∈ sys'.log, entry.Recorded s.inbox) :
    Orderly cfg { s with sys := sys', wire := s.wire ++ requests sys' } := by
  have hlogs : EventLogs sys'.db := turns_holds h EventLogs (call_invariant EventLogs
    (fun _ _ _ => EventLogs.step) (fun _ _ => EventLogs.handled) inv.logs) inv.logs
  have hworded : sys'.db.Worded := turns_holds h Db.Worded (call_invariant Db.Worded
    (fun _ _ _ => Db.Worded.step) (fun _ _ => Db.Worded.handled) inv.worded) inv.worded
  have hrows : s.sys.db.Extends sys'.db :=
    turns_holds h (Db.Extends s.sys.db) (extends_call inv.logs) (.refl _)
  have htold := inv.told.turns inv.numbered h
  -- an event that is known stays known, and what was settled before it is
  have hextend : ∀ (inbox : List EventPayload) (p : EventPayload),
      (∃ e ∈ s.sys.db.outbox.rows, e.payload = p) → Preceded cfg s.sys inbox p →
        Preceded cfg sys' inbox p := by
    rintro inbox p ⟨e₀, he₀, rfl⟩ hsettles
    exact hsettles.extend he₀ inv.worded hworded hrows (turns_log h)
  have htasks : ∀ w ∈ sys'.workers, Preceded cfg sys' s.inbox w.item.payload := by
    intro w hw
    rcases turns_tasks h hw with ⟨w₀, hw₀, hitem⟩ | ⟨c, hitem⟩
    · obtain ⟨e, he, hnames⟩ := inv.told.items w₀ hw₀
      rw [← hitem]
      exact hextend _ _ ⟨e, he, hnames.payload.symm⟩ (inv.tasks w₀ hw₀)
    · cases c with
      | leaseDue limit lease locked =>
          obtain ⟨e, he, hnames⟩ := names_of_leaseDue hitem
          exact hextend _ _ ⟨e, he, hnames.payload.symm⟩ (inv.leased hitem)
      | _ => cases hitem
  refine ⟨htold, Dispatchers.numbered_turns inv.numbered h, hlogs, hworded, recorded,
    fun p hp => turns_queued h (inv.queued p hp), htasks, fun p hp => ?_, fun older p newer hsplit => ?_⟩
  · rcases List.mem_append.mp hp with hold | hnew
    · obtain ⟨hknown, hbefore⟩ := inv.sent p hold
      exact ⟨turns_queued h hknown, hextend _ _ hknown hbefore⟩
    · obtain ⟨w, hw, rfl⟩ := List.mem_map.mp hnew
      have hworker : w ∈ sys'.workers := (List.mem_filter.mp hw).1
      obtain ⟨e, he, hnames⟩ := htold.items w hworker
      exact ⟨⟨e, he, hnames.payload.symm⟩, htasks w hworker⟩
  · refine hextend _ _ (inv.queued p ?_) (inv.order older p newer hsplit)
    rw [hsplit]
    simp

/-- More deliveries do no harm. -/
theorem Preceded.mono {sys : Dispatchers} {inbox inbox' : List EventPayload} {p : EventPayload}
    (h : Preceded cfg sys inbox p) (more : inbox ⊆ inbox') : Preceded cfg sys inbox' p :=
  fun e he hsame hlt => (h e he hsame hlt).imp_left fun hin => more hin

/-- **Recording keeps the order**, however late it is. -/
theorem Orderly.record (inv : Orderly cfg s) {p₀ : EventPayload} (hp₀ : p₀ ∈ s.wire) :
    Orderly cfg { s with inbox := s.inbox ++ [p₀] } := by
  have hmore : s.inbox ⊆ s.inbox ++ [p₀] := List.subset_append_left _ _
  refine ⟨inv.told, inv.numbered, inv.logs, inv.worded, fun entry hentry => ?_, fun p hp => ?_,
    fun w hw => (inv.tasks w hw).mono hmore,
    fun p hp => ⟨(inv.sent p hp).1, (inv.sent p hp).2.mono hmore⟩, fun older p newer hsplit => ?_⟩
  · have hrecorded := inv.recorded entry hentry
    cases entry with
    | answered => exact fun hok => hmore (hrecorded hok)
    | _ => trivial
  · rcases List.mem_append.mp hp with hold | hnew
    · exact inv.queued p hold
    · rw [List.mem_singleton.mp hnew]
      exact (inv.sent p₀ hp₀).1
  · -- the payload is the new one, or it was there before
    rcases List.eq_nil_or_concat newer with rfl | ⟨newer, last, rfl⟩
    · obtain ⟨rfl, hlast⟩ := List.append_inj' hsplit rfl
      obtain rfl := List.singleton_inj.mp hlast
      exact (inv.sent _ hp₀).2
    · rw [List.concat_eq_append, ← List.cons_append, ← List.append_assoc] at hsplit
      exact inv.order older p newer (List.append_inj' hsplit rfl).1

/-- **Every step keeps the order.** -/
theorem orderly_step (inv : Orderly cfg s) (e : Event) : Orderly cfg (s.step cfg hostOf e) := by
  cases e with
  | dispatch e =>
      simp only [step]
      split
      · next hrecorded => exact inv.turns (Dispatchers.step_turns cfg hostOf s.sys e) hrecorded
      · exact inv
  | record i =>
      simp only [step]
      split
      · next hget => exact inv.record (List.mem_of_getElem? hget)
      · exact inv

/-- So it is kept in every run. -/
theorem orderly_run (cfg : DispatcherConfig) (hostOf : String → String) (events : List Event) :
    Orderly cfg (run (step cfg hostOf) (new cfg) events) :=
  invariant_run (Orderly cfg) (fun _ e inv => orderly_step inv e) (orderly_new cfg) events

end Exchange

/-- **At least once, and in order.**  In every run of any number of dispatchers
with a receiver: what the receiver recorded are payloads of queued events; an
event that is marked delivered was recorded; and when a payload was recorded,
every event of its watch with a smaller number had been recorded before it, or
was given up. -/
theorem received_in_order (cfg : DispatcherConfig) (hostOf : String → String)
    (events : List Exchange.Event) :
    let s := run (Exchange.step cfg hostOf) (.new cfg) events
    (∀ e ∈ s.sys.db.outbox.rows, e.status = .delivered → e.payload ∈ s.inbox) ∧
      ∀ older p newer, s.inbox = older ++ p :: newer →
        (∃ e ∈ s.sys.db.outbox.rows, e.payload = p) ∧
          ∀ e ∈ s.sys.db.outbox.rows, e.payload.watch.id = p.watch.id →
            e.payload.sequence < p.sequence →
              e.payload ∈ older ∨ ∃ entry ∈ s.sys.log, entry.GivesUp cfg.toWebhookConfig e := by
  intro s
  have inv : Exchange.Orderly cfg s := Exchange.orderly_run cfg hostOf events
  refine ⟨fun e he => inv.delivered he, fun older p newer hsplit => ⟨inv.queued p ?_, ?_⟩⟩
  · rw [hsplit]
    simp
  · exact inv.order older p newer hsplit

/-! ## A receiver that dedupes -/

/-- What the payload says was counted. -/
def EventPayload.counted (p : EventPayload) : Nat :=
  if p.eventType = .paymentConfirmed then (p.transfer.map fun v => v.amount.toNat).getD 0 else 0

/-- The payload tells what the event counts. -/
theorem OutboxRow.Worded.counted {e : OutboxRow} (h : e.Worded) : e.payload.counted = e.counted := by
  rw [EventPayload.counted, OutboxRow.counted, OutboxRow.credit?, h.eventType]
  split
  · cases e.payload.transfer <;> rfl
  · rfl

/-- The payloads of the events of a watch, as they were written. -/
def Db.payloads (db : Db) (id : Uuid) : List EventPayload := (db.events id).map OutboxRow.payload

/-- The payloads of a watch are those of its events. -/
theorem Db.mem_payloads_iff {db : Db} {id : Uuid} {p : EventPayload} :
    p ∈ db.payloads id ↔ ∃ e ∈ db.outbox.rows, e.watchId = id ∧ e.payload = p := by
  simp [Db.payloads, Db.events, and_assoc]

/-- So they add up to the same. -/
theorem Db.Worded.total_payloads {db : Db} (inv : db.Worded) {es : List OutboxRow}
    (h : ∀ e ∈ es, e ∈ db.outbox.rows) :
    total EventPayload.counted (es.map OutboxRow.payload) = total OutboxRow.counted es := by
  rw [total, total, List.map_map]
  exact congrArg List.sum (List.map_congr_left fun e he => (inv e (h e he)).counted)

namespace Exchange

/-- The events of a watch, to a receiver that dedupes on `id`. -/
def consumed (s : Exchange) (id : Uuid) : List EventPayload :=
  (firsts EventPayload.id s.inbox).filter fun p => p.watch.id = id

variable {cfg : DispatcherConfig} {s : Exchange} {id : Uuid} {w : Watch}

/-- The ids of payloads tell events apart. -/
theorem Orderly.nodup_payloads (inv : Orderly cfg s) (id : Uuid) :
    ((s.sys.db.payloads id).map EventPayload.id).Nodup := by
  have hids : (s.sys.db.payloads id).map EventPayload.id = (s.sys.db.events id).map OutboxRow.id := by
    rw [Db.payloads, List.map_map]
    exact List.map_congr_left fun e he => (inv.worded e (List.mem_filter.mp he).1).id
  have hnodup : (s.sys.db.outbox.rows.map OutboxRow.id).Nodup := by
    rw [inv.numbered]
    exact List.nodup_range
  rw [hids]
  exact hnodup.sublist (List.filter_sublist.map _)

/-- What the receiver gets under one id is always the same. -/
theorem Orderly.eq_of_id_eq (inv : Orderly cfg s) {p q : EventPayload} (hp : p ∈ s.inbox)
    (hq : q ∈ s.inbox) (h : p.id = q.id) : p = q := by
  obtain ⟨e, he, rfl⟩ := inv.queued p hp
  obtain ⟨e', he', rfl⟩ := inv.queued q hq
  rw [(inv.worded e he).id, (inv.worded e' he').id] at h
  rw [inv.numbered.eq_of_id_eq he he' h]

/-- What it gets of a watch is the payload of an event of that watch. -/
theorem Orderly.mem_payloads (inv : Orderly cfg s) {p : EventPayload} (hp : p ∈ s.inbox)
    (h : p.watch.id = id) : p ∈ s.sys.db.payloads id := by
  obtain ⟨e, he, rfl⟩ := inv.queued p hp
  exact Db.mem_payloads_iff.mpr ⟨e, he, (inv.worded e he).watchId.symm.trans h, rfl⟩

/-- So nothing is consumed that was not queued. -/
theorem Orderly.consumed_subset (inv : Orderly cfg s) : s.consumed id ⊆ s.sys.db.payloads id := by
  intro p hp
  obtain ⟨hfirst, hwatch⟩ := List.mem_filter.mp hp
  exact inv.mem_payloads (mem_of_mem_firsts hfirst) (of_decide_eq_true hwatch)

/-- Nothing is consumed twice. -/
theorem nodup_consumed (s : Exchange) (id : Uuid) : (s.consumed id).Nodup :=
  (List.Nodup.of_map _ (nodup_firsts s.inbox)).filter _

/-- What is recorded is consumed. -/
theorem Orderly.mem_consumed (inv : Orderly cfg s) {p : EventPayload} (hp : p ∈ s.inbox)
    (h : p.watch.id = id) : p ∈ s.consumed id := by
  obtain ⟨q, hq, heq⟩ := List.mem_map.mp (key_mem_firsts EventPayload.id hp)
  obtain rfl := inv.eq_of_id_eq (mem_of_mem_firsts hq) hp heq
  exact List.mem_filter.mpr ⟨hq, decide_eq_true h⟩

/-- **The receiver reads the events in order**, if none was given up. -/
theorem Orderly.consumed_isPrefix (inv : Orderly cfg s) (logs : EventLog s.sys.db w)
    (kept : ∀ e ∈ s.sys.db.events w.id, ∀ entry ∈ s.sys.log, ¬ entry.GivesUp cfg.toWebhookConfig e) :
    s.consumed w.id <+: s.sys.db.payloads w.id := by
  have hread : s.consumed w.id = firsts EventPayload.id (s.inbox.filter fun p => p.watch.id = w.id) :=
    filter_firsts _ fun p hp q hq h => by rw [inv.eq_of_id_eq hp hq h]
  rw [hread]
  refine firsts_isPrefix (inv.nodup_payloads w.id) (fun p hp => ?_)
    fun older p newer hsplit before after hys => ?_
  · obtain ⟨hin, hwatch⟩ := List.mem_filter.mp hp
    exact inv.mem_payloads hin (of_decide_eq_true hwatch)
  · intro q hq
    -- where the payload is in the whole inbox
    obtain ⟨older₁, rest, hinbox, holder, hrest⟩ := List.filter_eq_append_iff.mp hsplit
    obtain ⟨older₂, newer₂, rfl, hother, hp, -⟩ := List.filter_eq_cons_iff.mp hrest
    have hsorted : ((s.sys.db.payloads w.id).map EventPayload.sequence).Pairwise (· < ·) := by
      have hseqs := logs.payloads
      rw [Db.payloads, List.map_map]
      change ((s.sys.db.events w.id).map fun e => e.payload.sequence).Pairwise (· < ·)
      rw [hseqs]
      exact List.pairwise_lt_range'
    rw [hys, List.map_append, List.map_cons, List.pairwise_append] at hsorted
    have hlt : q.sequence < p.sequence :=
      hsorted.2.2 _ (List.mem_map_of_mem hq) _ List.mem_cons_self
    obtain ⟨e, he, howner, rfl⟩ := Db.mem_payloads_iff.mp (by
      rw [hys]; exact List.mem_append_left _ hq)
    have hwatch : e.payload.watch.id = w.id := (inv.worded e he).watchId.trans howner
    rcases inv.order (older₁ ++ older₂) p newer₂ (by rw [hinbox, List.append_assoc]) e he
      (hwatch.trans (of_decide_eq_true hp).symm) hlt with hin | ⟨entry, hentry, hgives⟩
    · have hfilter : (older₁ ++ older₂).filter (fun p => p.watch.id = w.id) = older := by
        rw [List.filter_append, holder, List.filter_eq_nil_iff.mpr hother, List.append_nil]
      rw [← hfilter]
      exact List.mem_filter.mpr ⟨hin, decide_eq_true hwatch⟩
    · exact absurd hgives (kept e (List.mem_filter.mpr ⟨he, decide_eq_true howner⟩) entry hentry)

end Exchange

/-- **Exactly once, to a receiver that dedupes on `id`.**  In every run, the
`payment.confirmed` amounts it has of a watch add up to no more than the watch's
total.  If no event of the watch was given up, what it has are the first events
of the watch, as they were written; their amounts add up to the total the last
of them reports; and if no event is pending either, it has all of them, and the
amounts add up to the watch's total. -/
theorem consumer_exact (cfg : DispatcherConfig) (hostOf : String → String)
    (events : List Exchange.Event) :
    let s := run (Exchange.step cfg hostOf) (.new cfg) events
    ∀ w ∈ s.sys.db.watches.rows,
      total EventPayload.counted (s.consumed w.id) ≤ w.confirmedAmount ∧
      ((∀ e ∈ s.sys.db.events w.id, ∀ entry ∈ s.sys.log, ¬ entry.GivesUp cfg.toWebhookConfig e) →
        s.consumed w.id <+: s.sys.db.payloads w.id ∧
        (∀ p ∈ (s.consumed w.id).getLast?,
          p.watch.confirmedAmount.toNat = total EventPayload.counted (s.consumed w.id)) ∧
        ((∀ e ∈ s.sys.db.events w.id, e.status ≠ .pending) →
          s.consumed w.id = s.sys.db.payloads w.id ∧
            total EventPayload.counted (s.consumed w.id) = w.confirmedAmount)) := by
  intro s w hw
  have inv : Exchange.Orderly cfg s := Exchange.orderly_run cfg hostOf events
  have log := inv.logs.log w.id w (Table.get?_of_mem hw)
  have hrows : ∀ e ∈ s.sys.db.events w.id, e ∈ s.sys.db.outbox.rows := fun e he =>
    (List.mem_filter.mp he).1
  have htotal : total EventPayload.counted (s.sys.db.payloads w.id) = w.confirmedAmount :=
    (inv.worded.total_payloads hrows).trans log.final
  refine ⟨?_, fun kept => ?_⟩
  · rw [← htotal]
    exact total_le_of_subset (Exchange.nodup_consumed s w.id) inv.consumed_subset
  · have hpre := inv.consumed_isPrefix log kept
    refine ⟨hpre, fun p hp => ?_, fun done => ?_⟩
    · -- the prefix is that of the events up to the one of `p`
      obtain ⟨es, hes, heq⟩ := List.prefix_map_iff.mp hpre
      rw [heq] at hp ⊢
      obtain ⟨es, e, rfl⟩ : ∃ es₀ e, es = es₀ ++ [e] := by
        rcases List.eq_nil_or_concat es with rfl | ⟨es₀, e, rfl⟩
        · simp at hp
        · exact ⟨es₀, e, List.concat_eq_append⟩
      obtain rfl : e.payload = p := by simpa using hp
      rw [inv.worded.total_payloads fun e he => hrows e (hes.subset he)]
      exact log.reports es e hes
    · have hall : s.sys.db.payloads w.id ⊆ s.consumed w.id := by
        intro p hp
        obtain ⟨e, he, rfl⟩ := List.mem_map.mp hp
        rcases (OutboxRow.done_iff e).mpr (done e he) with hdelivered | hdead
        · have howner : e.watchId = w.id := of_decide_eq_true (List.mem_filter.mp he).2
          exact inv.mem_consumed (inv.delivered (hrows e he) hdelivered)
            ((inv.worded e (hrows e he)).watchId.trans howner)
        · obtain ⟨entry, hentry, hgives⟩ := inv.told.dead e (hrows e he) hdead
          exact absurd hgives (kept e he entry hentry)
      have hsame : s.consumed w.id = s.sys.db.payloads w.id :=
        hpre.eq_of_length_le
          ((List.Nodup.of_map _ (inv.nodup_payloads w.id)).subperm hall).length_le
      exact ⟨hsame, by rw [hsame, htotal]⟩

/-- Both events of a completed watch, the first of them recorded again after the
second. -/
def recordedTwice : List Exchange.Event :=
  completedWatch.map (.dispatch <| .store ·) ++
    [.dispatch (.poll 0), .dispatch (.lease 0 fun _ => false), .dispatch (.move 0 .spawn),
      .dispatch (.move 0 .check), .dispatch (.move 0 .slot), .record 0,
      .dispatch (.move 0 (.answer (some 200) 0 0)), .dispatch (.report 0 true),
      .dispatch (.poll 0), .dispatch (.lease 0 fun _ => false), .dispatch (.move 0 .spawn),
      .dispatch (.move 0 .check), .dispatch (.move 0 .slot), .record 1, .record 0,
      .dispatch (.move 0 (.answer (some 200) 0 0)), .dispatch (.report 0 true)]

theorem consumer_exact_twice :
    let s := run (Exchange.step strictConfig id) (.new strictConfig) recordedTwice
    s.inbox.map EventPayload.sequence = [1, 2, 1] ∧ ∃ w ∈ s.sys.db.watches.rows,
      s.consumed w.id = s.sys.db.payloads w.id ∧
        total EventPayload.counted (s.consumed w.id) = w.confirmedAmount := by
  have hexact := consumer_exact strictConfig id recordedTwice
  have hrun : let s := run (Exchange.step strictConfig id) (.new strictConfig) recordedTwice
      s.inbox.map EventPayload.sequence = [1, 2, 1] ∧ 0 < s.sys.db.watches.rows.length ∧
        (∀ e ∈ s.sys.db.outbox.rows, e.status ≠ .pending) ∧
        ∀ entry ∈ s.sys.log, (match entry with
          | .answered _ _ _ status _ _ => status.any isSuccess
          | _ => false) = true := by decide +kernel
  generalize run (Exchange.step strictConfig id) (.new strictConfig) recordedTwice = s at *
  obtain ⟨hinbox, hwatch, hdone, hsuccess⟩ := hrun
  obtain ⟨w, hw⟩ := List.exists_mem_of_length_pos hwatch
  refine ⟨hinbox, w, hw, ((hexact w hw).2 fun e _ entry hentry hgives => ?_).2.2 fun e he =>
    hdone e (List.mem_filter.mp he).1⟩
  have hok := hsuccess entry hentry
  cases entry with
  | answered => exact Bool.false_ne_true (hgives.2.1.symm.trans hok)
  | _ => contradiction

end GumIndexer
