import GumIndexer.Base.Pool
import GumIndexer.Delivery
import Mathlib.Data.List.Induction
import Mathlib.Data.List.TakeWhile

/-!
# GumIndexer.Dispatcher

The webhook dispatchers, task by task.

A dispatcher reads how many of its permits are free, leases that many events
and spawns a task for each, which needs a permit.  The task first asks whether
the host of the webhook is parked, then waits for one of the host's slots,
makes the request, notes for the host how it went, and reports.  All of this
interleaves: with the other tasks, with the loop, with the dispatchers of other
instances, and with the transactions that queue events.

`Dispatchers` holds any number of processes over one database, `Dispatchers.step`
is one turn of one of them.  Forgetting everything but the database and the
events under way gives the `Dispatch` of `GumIndexer.Delivery`
(`dispatchers_refine`), so what is proved there holds of the processes.  Beyond
that:

* `dispatcher_bounds` — the limits of a process are kept, and a leased event
  never waits for a permit;
* `parked_iff` — when a host is parked, in terms of the answers it gave.
-/

namespace GumIndexer

open Base

/-! ## A process -/

structure DispatcherConfig extends WebhookConfig where
  maxConcurrency : Nat
  maxPerHost : Nat
  hostFailureThreshold : Nat
  hostParkMs : Nat
  requestTimeoutMs : Nat
  connectTimeoutMs : Nat

/-- The lease of `Dispatcher::run`, in milliseconds. -/
def DispatcherConfig.lease (cfg : DispatcherConfig) : Nat :=
  cfg.requestTimeoutMs + cfg.connectTimeoutMs + 5000

/-- `HOST_SLOT_WAIT`, in milliseconds. -/
def hostSlotWait : Nat := 2000

structure HostState where
  consecutiveFailures : Nat := 0
  parkedUntil : Option Nat := none
deriving DecidableEq, Repr

/-- `host_failed`. -/
def HostState.failed (cfg : DispatcherConfig) (clock : Nat) (h : HostState) : HostState where
  consecutiveFailures := h.consecutiveFailures + 1
  parkedUntil :=
    if cfg.hostFailureThreshold ≤ h.consecutiveFailures + 1 then some (clock + cfg.hostParkMs)
    else h.parkedUntil

/-- `parked_for`. -/
def HostState.parkedFor (clock : Nat) (h : HostState) : Option Nat :=
  h.parkedUntil.bind fun parkedUntil =>
    if clock ≤ parkedUntil then some (parkedUntil - clock) else none

/-- The shared state of a dispatcher.  A host without an entry in a map has
the value an entry starts with. -/
structure Process where
  permits : Nat
  /-- The number of free permits with which `lease_due` is under way. -/
  leasing : Option Nat := none
  hosts : String → HostState := fun _ => {}
  /-- The free slots of each host. -/
  slots : String → Nat

def Process.new (cfg : DispatcherConfig) : Process where
  permits := max cfg.maxConcurrency 1
  slots := fun _ => max cfg.maxPerHost 1

/-- `host_ok` or `host_failed`, by the answer. -/
def Process.note (cfg : DispatcherConfig) (host : String) (clock : Nat) (status : Option Nat)
    (p : Process) : Process :=
  let state := if status.any isSuccess then {} else (p.hosts host).failed cfg clock
  { p with hosts := Function.update p.hosts host state }

/-- An answer is noted for its host. -/
theorem Process.hosts_note_self (cfg : DispatcherConfig) (host : String) (clock : Nat)
    (status : Option Nat) (p : Process) : (p.note cfg host clock status).hosts host =
      if status.any isSuccess then {} else (p.hosts host).failed cfg clock := Function.update_self ..

/-- It is noted for no other host. -/
theorem Process.hosts_note_of_ne (cfg : DispatcherConfig) {host host' : String} (clock : Nat)
    (status : Option Nat) (p : Process) (h : host ≠ host') :
    (p.note cfg host clock status).hosts host' = p.hosts host' := Function.update_of_ne (Ne.symm h) ..

/-! ## A task -/

inductive TaskStage
  /-- Handed out, and not spawned yet. -/
  | leased
  /-- Before `parked_for`. -/
  | started
  /-- At `host_slot`, since then. -/
  | waiting (since : Nat)
  /-- The request is made or under way; the task has a slot. -/
  | posting
  /-- Before its report. -/
  | reporting (attempt : Attempt) (slot : Bool)
deriving DecidableEq, Repr

/-- A task lives with a permit. -/
def TaskStage.hasPermit : TaskStage → Bool
  | .leased => false
  | _ => true

def TaskStage.hasSlot : TaskStage → Bool
  | .posting => true
  | .reporting _ slot => slot
  | _ => false

structure Worker where
  proc : Nat
  item : OutboxItem
  stage : TaskStage
deriving DecidableEq, Repr

/-- The task of the process has not been spawned. -/
def Worker.isQueued (p : Nat) (w : Worker) : Bool := w.proc = p ∧ w.stage = .leased

def Worker.holdsPermit (p : Nat) (w : Worker) : Bool := w.proc = p ∧ w.stage.hasPermit

def Worker.holdsSlot (hostOf : String → String) (p : Nat) (host : String) (w : Worker) : Bool :=
  w.proc = p ∧ hostOf w.item.url = host ∧ w.stage.hasSlot

/-- What the outside and the processes went through. -/
inductive Entry
  /-- A request was answered with `status`, or failed. -/
  | answered (proc : Nat) (host : String) (item : OutboxItem) (status : Option Nat) (age clock : Nat)
  | unserialisable (item : OutboxItem)
  | restarted (proc : Nat)
deriving DecidableEq, Repr

/-- What a task does next. -/
inductive TaskMove
  | spawn
  | check
  | slot
  | slotTimeout
  | unserialisable
  | answer (status : Option Nat) (age draw : Nat)

/-- A turn of the task: the state of its process, its stage and what is
logged.  A move that is not enabled is none. -/
def advance (cfg : DispatcherConfig) (host : String) (clock : Nat) (p : Process) (w : Worker) :
    TaskMove → Option (Process × TaskStage × List Entry)
  | .spawn =>
      match w.stage with
      | .leased => if 0 < p.permits then some ({ p with permits := p.permits - 1 }, .started, []) else none
      | _ => none
  | .check =>
      match w.stage with
      | .started =>
          match (p.hosts host).parkedFor clock with
          | some wait => some (p, .reporting (.parked wait) false, [])
          | none => some (p, .waiting clock, [])
      | _ => none
  | .slot =>
      match w.stage with
      | .waiting _ =>
          if 0 < p.slots host then
            some ({ p with slots := Function.update p.slots host (p.slots host - 1) }, .posting, [])
          else none
      | _ => none
  | .slotTimeout =>
      match w.stage with
      | .waiting since => if since + hostSlotWait ≤ clock then some (p, .reporting .busy false, []) else none
      | _ => none
  | .unserialisable =>
      match w.stage with
      | .posting => some (p, .reporting .unserialisable true, [.unserialisable w.item])
      | _ => none
  | .answer status age draw =>
      match w.stage with
      | .posting =>
          some (p.note cfg host clock status, .reporting (.sent status age draw) true,
            [.answered w.proc host w.item status age clock])
      | _ => none

/-! ## The processes -/

structure Dispatchers where
  db : Db
  procs : Nat → Process
  workers : List Worker
  clock : Nat
  /-- Newest first. -/
  log : List Entry

namespace Dispatchers

inductive Event
  | store (op : Op)
  /-- The loop of a process reads its free permits. -/
  | poll (proc : Nat)
  /-- `lease_due` returns, or fails. -/
  | lease (proc : Nat) (locked : Uuid → Bool)
  | leaseFailed (proc : Nat)
  | move (worker : Nat) (m : TaskMove)
  /-- The report is committed, or could not be written. -/
  | report (worker : Nat) (committed : Bool)
  /-- The task dies. -/
  | lost (worker : Nat)
  /-- A process without tasks is replaced by a new one. -/
  | restart (proc : Nat)
  | elapse (ms : Nat)

def new (cfg : DispatcherConfig) : Dispatchers where
  db := .empty
  procs := fun _ => .new cfg
  workers := []
  clock := 0
  log := []

/-- The events a process has leased and not spawned. -/
def queued (s : Dispatchers) (p : Nat) : Nat := s.workers.countP (Worker.isQueued p)

def withProc (s : Dispatchers) (p : Nat) (process : Process) : Dispatchers :=
  { s with procs := Function.update s.procs p process }

/-- A task ends: its permit and its slot are free again. -/
def leave (hostOf : String → String) (s : Dispatchers) (i : Nat) (w : Worker) : Dispatchers :=
  let p := s.procs w.proc
  let host := hostOf w.item.url
  { s with
    procs := Function.update s.procs w.proc { p with
      permits := p.permits + w.stage.hasPermit.toNat
      slots := Function.update p.slots host (p.slots host + w.stage.hasSlot.toNat) }
    workers := s.workers.eraseIdx i }

/-- One turn; one that is not enabled changes nothing. -/
def step (cfg : DispatcherConfig) (hostOf : String → String) (s : Dispatchers) : Event → Dispatchers
  | .store op => { s with db := exec s.db op }
  | .poll p =>
      if (s.procs p).leasing = none ∧ s.queued p = 0 ∧ 0 < (s.procs p).permits then
        s.withProc p { s.procs p with leasing := some (s.procs p).permits }
      else s
  | .lease p locked =>
      match (s.procs p).leasing with
      | some free =>
          let (items, db) := leaseDue s.db free cfg.lease locked
          { s.withProc p { s.procs p with leasing := none } with
            db, workers := s.workers ++ items.map fun item => ⟨p, item, .leased⟩ }
      | none => s
  | .leaseFailed p => s.withProc p { s.procs p with leasing := none }
  | .move i m =>
      match s.workers[i]? with
      | some w =>
          match advance cfg (hostOf w.item.url) s.clock (s.procs w.proc) w m with
          | some (p, stage, entries) =>
              { s with
                procs := Function.update s.procs w.proc p
                workers := s.workers.set i { w with stage }
                log := entries ++ s.log }
          | none => s
      | none => s
  | .report i committed =>
      match s.workers[i]? with
      | some w =>
          match w.stage with
          | .reporting attempt _ =>
              let db := if committed then call s.db (deliver cfg.toWebhookConfig w.item attempt) else s.db
              { s.leave hostOf i w with db }
          | _ => s
      | none => s
  | .lost i =>
      match s.workers[i]? with
      | some w => s.leave hostOf i w
      | none => s
  | .restart p =>
      if s.workers.countP (fun w => w.proc = p) = 0 then
        { s.withProc p (.new cfg) with log := .restarted p :: s.log }
      else s
  | .elapse ms => { s with clock := s.clock + ms }

end Dispatchers

/-! ## The limits of a process -/

/-- What a turn of a task does. -/
inductive Proceeds (cfg : DispatcherConfig) (host : String) (clock : Nat) (p : Process) (w : Worker) :
    Process → TaskStage → List Entry → Prop
  | spawn (at_ : w.stage = .leased) (room : 0 < p.permits) :
      Proceeds cfg host clock p w { p with permits := p.permits - 1 } .started []
  | parked {wait : Nat} (at_ : w.stage = .started) (parked : (p.hosts host).parkedFor clock = some wait) :
      Proceeds cfg host clock p w p (.reporting (.parked wait) false) []
  | clear (at_ : w.stage = .started) (free : (p.hosts host).parkedFor clock = none) :
      Proceeds cfg host clock p w p (.waiting clock) []
  | slot {since : Nat} (at_ : w.stage = .waiting since) (room : 0 < p.slots host) :
      Proceeds cfg host clock p w { p with slots := Function.update p.slots host (p.slots host - 1) }
        .posting []
  | busy {since : Nat} (at_ : w.stage = .waiting since) (late : since + hostSlotWait ≤ clock) :
      Proceeds cfg host clock p w p (.reporting .busy false) []
  | unserialisable (at_ : w.stage = .posting) :
      Proceeds cfg host clock p w p (.reporting .unserialisable true) [.unserialisable w.item]
  | answer {status : Option Nat} {age draw : Nat} (at_ : w.stage = .posting) :
      Proceeds cfg host clock p w (p.note cfg host clock status) (.reporting (.sent status age draw) true)
        [.answered w.proc host w.item status age clock]

section Turns

variable {cfg : DispatcherConfig} {host : String} {clock : Nat} {p p' : Process} {w : Worker}
  {stage : TaskStage} {entries : List Entry}

/-- **What a turn of a task does**, for every move. -/
theorem advance_cases {m : TaskMove} (h : advance cfg host clock p w m = some (p', stage, entries)) :
    Proceeds cfg host clock p w p' stage entries := by
  cases m with
  | spawn =>
      simp only [advance] at h
      split at h
      · next hat =>
          split at h
          · next room => cases h; exact .spawn hat room
          · contradiction
      · contradiction
  | check =>
      simp only [advance] at h
      split at h
      · next hat =>
          split at h
          · next hparked => cases h; exact .parked hat hparked
          · next hclear => cases h; exact .clear hat hclear
      · contradiction
  | slot =>
      simp only [advance] at h
      split at h
      · next hat =>
          split at h
          · next room => cases h; exact .slot hat room
          · contradiction
      · contradiction
  | slotTimeout =>
      simp only [advance] at h
      split at h
      · next hat =>
          split at h
          · next late => cases h; exact .busy hat late
          · contradiction
      · contradiction
  | unserialisable =>
      simp only [advance] at h
      split at h
      · next hat => cases h; exact .unserialisable hat
      · contradiction
  | answer status age draw =>
      simp only [advance] at h
      split at h
      · next hat => cases h; exact .answer hat
      · contradiction

/-- A task does not lease. -/
theorem Proceeds.leasing (h : Proceeds cfg host clock p w p' stage entries) : p'.leasing = p.leasing := by
  cases h <;> rfl

/-- A task takes its permit when it is spawned. -/
theorem Proceeds.permits (h : Proceeds cfg host clock p w p' stage entries) :
    (p'.permits = p.permits ∧ w.stage ≠ .leased ∧ stage ≠ .leased) ∨
      w.stage = .leased ∧ stage = .started ∧ 0 < p.permits ∧ p'.permits = p.permits - 1 := by
  cases h with
  | spawn at_ room => exact .inr ⟨at_, rfl, room, rfl⟩
  | parked at_ _ | clear at_ _ | slot at_ _ | busy at_ _ | unserialisable at_ | answer at_ =>
      exact .inl ⟨rfl, by simp [at_], by simp⟩

/-- It takes a slot before it makes the request. -/
theorem Proceeds.slots (h : Proceeds cfg host clock p w p' stage entries) :
    (p'.slots = p.slots ∧ stage.hasSlot = w.stage.hasSlot) ∨
      w.stage.hasSlot = false ∧ stage.hasSlot = true ∧ 0 < p.slots host ∧
        p'.slots = Function.update p.slots host (p.slots host - 1) := by
  cases h with
  | slot at_ room => exact .inr ⟨by rw [at_]; rfl, rfl, room, rfl⟩
  | spawn at_ _ | parked at_ _ | clear at_ _ | busy at_ _ | unserialisable at_ | answer at_ =>
      exact .inl ⟨rfl, by rw [at_]; rfl⟩

/-- A task has its permit once it is spawned. -/
theorem TaskStage.hasPermit_iff {stage : TaskStage} : stage.hasPermit = true ↔ stage ≠ .leased := by
  cases stage <;> simp [TaskStage.hasPermit]

end Turns

namespace Dispatchers

variable {cfg : DispatcherConfig} {hostOf : String → String} {s : Dispatchers}

/-- A turn of a task, seen from the whole. -/
def advanced (s : Dispatchers) (i : Nat) (w : Worker) (p : Process) (stage : TaskStage)
    (entries : List Entry) : Dispatchers :=
  { s with
    procs := Function.update s.procs w.proc p
    workers := s.workers.set i { w with stage }
    log := entries ++ s.log }

/-- What a turn can do. -/
inductive Turns (cfg : DispatcherConfig) (hostOf : String → String) (s : Dispatchers) : Dispatchers → Prop
  | idle : Turns cfg hostOf s s
  | store (op : Op) : Turns cfg hostOf s { s with db := exec s.db op }
  | polls {p : Nat} (empty : s.queued p = 0) :
      Turns cfg hostOf s (s.withProc p { s.procs p with leasing := some (s.procs p).permits })
  | leases {p free : Nat} (locked : Uuid → Bool) (leasing : (s.procs p).leasing = some free) :
      Turns cfg hostOf s
        { s.withProc p { s.procs p with leasing := none } with
          db := (leaseDue s.db free cfg.lease locked).2
          workers := s.workers ++
            (leaseDue s.db free cfg.lease locked).1.map fun item => ⟨p, item, .leased⟩ }
  | leaseFails (p : Nat) : Turns cfg hostOf s (s.withProc p { s.procs p with leasing := none })
  | advances {i : Nat} {w : Worker} {p' : Process} {stage : TaskStage} {entries : List Entry}
      (hw : s.workers[i]? = some w)
      (h : Proceeds cfg (hostOf w.item.url) s.clock (s.procs w.proc) w p' stage entries) :
      Turns cfg hostOf s (s.advanced i w p' stage entries)
  | reports {i : Nat} {w : Worker} {attempt : Attempt} {slot : Bool} (hw : s.workers[i]? = some w)
      (at_ : w.stage = .reporting attempt slot) :
      Turns cfg hostOf s { s.leave hostOf i w with
        db := call s.db (deliver cfg.toWebhookConfig w.item attempt) }
  | leaves {i : Nat} {w : Worker} (hw : s.workers[i]? = some w) :
      Turns cfg hostOf s (s.leave hostOf i w)
  | restarts {p : Nat} (empty : s.workers.countP (fun w => w.proc = p) = 0) :
      Turns cfg hostOf s { s.withProc p (.new cfg) with log := .restarted p :: s.log }
  | elapses (ms : Nat) : Turns cfg hostOf s { s with clock := s.clock + ms }

/-- **What a turn does**, for every event. -/
theorem step_turns (cfg : DispatcherConfig) (hostOf : String → String) (s : Dispatchers) (e : Event) :
    Turns cfg hostOf s (s.step cfg hostOf e) := by
  cases e with
  | store op => exact .store op
  | poll p =>
      simp only [step]
      split
      · next h => exact .polls h.2.1
      · exact .idle
  | lease p locked =>
      simp only [step]
      split
      · next hfree => exact .leases locked hfree
      · exact .idle
  | leaseFailed p => exact .leaseFails p
  | move i m =>
      simp only [step]
      split
      · next hw =>
          split
          · next h => exact .advances hw (advance_cases h)
          · exact .idle
      · exact .idle
  | report i committed =>
      simp only [step]
      split
      · next hw =>
          split
          · next hat =>
              cases committed with
              | true => exact .reports hw hat
              | false => exact .leaves hw
          · exact .idle
      · exact .idle
  | lost i =>
      simp only [step]
      split
      · next hw => exact .leaves hw
      · exact .idle
  | restart p =>
      simp only [step]
      split
      · next h => exact .restarts h
      · exact .idle
  | elapse ms => exact .elapses ms

/-- The permits and slots of every process are accounted for, and the events
it leased have a permit waiting. -/
structure Balanced (cfg : DispatcherConfig) (hostOf : String → String) (s : Dispatchers) : Prop where
  permits : ∀ p, Accounted (max cfg.maxConcurrency 1) (s.procs p).permits (Worker.holdsPermit p) s.workers
  slots : ∀ p host, Accounted (max cfg.maxPerHost 1) ((s.procs p).slots host)
    (Worker.holdsSlot hostOf p host) s.workers
  queued : ∀ p, s.queued p ≤ (s.procs p).permits
  leasing : ∀ p free, (s.procs p).leasing = some free → s.queued p = 0 ∧ free ≤ (s.procs p).permits

/-- At the start all permits are free and no task runs. -/
theorem balanced_new (cfg : DispatcherConfig) (hostOf : String → String) :
    (new cfg).Balanced cfg hostOf where
  permits _ := rfl
  slots _ _ := rfl
  queued _ := Nat.zero_le _
  leasing _ _ h := by contradiction

/-- A task that ends takes nothing with it. -/
theorem Balanced.leave (inv : s.Balanced cfg hostOf) {i : Nat} {w : Worker}
    (hw : s.workers[i]? = some w) : (s.leave hostOf i w).Balanced cfg hostOf := by
  have hqueued : ∀ q, (s.leave hostOf i w).queued q ≤ s.queued q := fun q =>
    Nat.le.intro (countP_eraseIdx (Worker.isQueued q) hw)
  have hpermits : ∀ q, ((s.leave hostOf i w).procs q).permits =
      (s.procs q).permits + (w.holdsPermit q).toNat := by
    intro q
    by_cases hq : w.proc = q
    · subst hq
      simp [Dispatchers.leave, Worker.holdsPermit]
    · simp [Dispatchers.leave, Worker.holdsPermit, Function.update_of_ne (Ne.symm hq), hq]
  have hslots : ∀ q host, ((s.leave hostOf i w).procs q).slots host =
      (s.procs q).slots host + (w.holdsSlot hostOf q host).toNat := by
    intro q host
    by_cases hq : w.proc = q
    · subst hq
      by_cases hh : hostOf w.item.url = host
      · subst hh
        simp [Dispatchers.leave, Worker.holdsSlot]
      · simp [Dispatchers.leave, Worker.holdsSlot, Function.update_of_ne (Ne.symm hh), hh]
    · simp [Dispatchers.leave, Worker.holdsSlot, Function.update_of_ne (Ne.symm hq), hq]
  refine ⟨fun q => ?_, fun q host => ?_, fun q => ?_, fun q free hfree => ?_⟩
  · rw [hpermits]
    exact (inv.permits q).leave hw
  · rw [hslots]
    exact (inv.slots q host).leave hw
  · rw [hpermits]
    exact (hqueued q).trans ((inv.queued q).trans (Nat.le_add_right _ _))
  · have hold : (s.procs q).leasing = some free := by
      by_cases hq : w.proc = q
      · subst hq
        simpa [Dispatchers.leave] using hfree
      · simpa [Dispatchers.leave, Function.update_of_ne (Ne.symm hq)] using hfree
    obtain ⟨hzero, hle⟩ := inv.leasing q free hold
    exact ⟨Nat.le_zero.mp (hzero ▸ hqueued q), by rw [hpermits]; exact hle.trans (Nat.le_add_right _ _)⟩

section Turn

variable {i : Nat} {w : Worker} {p' : Process} {stage : TaskStage} {entries : List Entry}

theorem procs_advanced_self : (s.advanced i w p' stage entries).procs w.proc = p' :=
  Function.update_self ..

theorem procs_advanced_of_ne {q : Nat} (hq : w.proc ≠ q) :
    (s.advanced i w p' stage entries).procs q = s.procs q := Function.update_of_ne (Ne.symm hq) ..

/-- What a turn does to the permits of a process and the events it queued. -/
theorem permits_advanced (hw : s.workers[i]? = some w)
    (h : Proceeds cfg (hostOf w.item.url) s.clock (s.procs w.proc) w p' stage entries) (q : Nat)
    {cap : Nat} (inv : Accounted cap (s.procs q).permits (Worker.holdsPermit q) s.workers) :
    Accounted cap ((s.advanced i w p' stage entries).procs q).permits (Worker.holdsPermit q)
        (s.advanced i w p' stage entries).workers ∧
      (s.advanced i w p' stage entries).queued q ≤ s.queued q ∧
      (s.advanced i w p' stage entries).queued q + (s.procs q).permits =
        s.queued q + ((s.advanced i w p' stage entries).procs q).permits := by
  have hcount := countP_set (Worker.isQueued q) hw { w with stage }
  change (s.advanced i w p' stage entries).queued q + _ = s.queued q + _ at hcount
  by_cases hq : w.proc = q
  · subst hq
    rw [procs_advanced_self]
    rcases h.permits with ⟨hsame, hfrom, hto⟩ | ⟨hfrom, hto, room, htook⟩
    · have hold : w.stage.hasPermit = true := TaskStage.hasPermit_iff.mpr hfrom
      have hnew : stage.hasPermit = true := TaskStage.hasPermit_iff.mpr hto
      refine ⟨hsame ▸ inv.stay hw (by simp [Worker.holdsPermit, hold, hnew]), ?_⟩
      simp only [Worker.isQueued, hfrom, hto, and_false, decide_false, Bool.toNat_false] at hcount
      omega
    · subst hto
      refine ⟨htook ▸ inv.take hw (by simp [Worker.holdsPermit, hfrom, TaskStage.hasPermit])
        (by simp [Worker.holdsPermit, TaskStage.hasPermit]) room, ?_⟩
      simp [Worker.isQueued, hfrom] at hcount
      omega
  · rw [procs_advanced_of_ne hq]
    refine ⟨inv.stay hw (by simp [Worker.holdsPermit, hq]), ?_⟩
    simp [Worker.isQueued, hq] at hcount
    omega

/-- The slots of a host are accounted for after a move. -/
theorem slots_advanced (hw : s.workers[i]? = some w)
    (h : Proceeds cfg (hostOf w.item.url) s.clock (s.procs w.proc) w p' stage entries) (q : Nat)
    (host : String) {cap : Nat}
    (inv : Accounted cap ((s.procs q).slots host) (Worker.holdsSlot hostOf q host) s.workers) :
    Accounted cap (((s.advanced i w p' stage entries).procs q).slots host)
      (Worker.holdsSlot hostOf q host) (s.advanced i w p' stage entries).workers := by
  by_cases hq : w.proc = q
  · subst hq
    rw [procs_advanced_self]
    rcases h.slots with ⟨hsame, hstage⟩ | ⟨hfrom, hto, room, htook⟩
    · rw [hsame]
      exact inv.stay hw (by simp [Worker.holdsSlot, hstage])
    · by_cases hh : hostOf w.item.url = host
      · subst hh
        rw [htook, Function.update_self]
        exact inv.take hw (by simp [Worker.holdsSlot, hfrom]) (by simp [Worker.holdsSlot, hto]) room
      · rw [htook, Function.update_of_ne (Ne.symm hh)]
        exact inv.stay hw (by simp [Worker.holdsSlot, hh])
  · rw [procs_advanced_of_ne hq]
    exact inv.stay hw (by simp [Worker.holdsSlot, hq])

/-- A move keeps the books balanced. -/
theorem Balanced.advanced (inv : s.Balanced cfg hostOf) (hw : s.workers[i]? = some w)
    (h : Proceeds cfg (hostOf w.item.url) s.clock (s.procs w.proc) w p' stage entries) :
    (s.advanced i w p' stage entries).Balanced cfg hostOf := by
  have hqueue := fun q => (permits_advanced hw h q (inv.permits q)).2
  refine ⟨fun q => (permits_advanced hw h q (inv.permits q)).1,
    fun q host => slots_advanced hw h q host (inv.slots q host), fun q => ?_, fun q free hfree => ?_⟩
  · have hle := inv.queued q
    have heq := hqueue q
    omega
  · have hold : (s.procs q).leasing = some free := by
      by_cases hq : w.proc = q
      · subst hq
        rwa [procs_advanced_self, h.leasing] at hfree
      · rwa [procs_advanced_of_ne hq] at hfree
    obtain ⟨hzero, hle⟩ := inv.leasing q free hold
    have heq := hqueue q
    omega

end Turn

/-- A lease hands out no more events than it is asked for. -/
theorem length_leaseDue_le {db : Db} (inv : db.Numbered) (limit lease : Nat) (locked : Uuid → Bool) :
    (leaseDue db limit lease locked).1.length ≤ limit := by
  have hnodup : ((db.outbox.rows.filter fun o => Selected (dueEvents db limit locked) o).map
      OutboxRow.id).Nodup := by
    have hids : (db.outbox.rows.map OutboxRow.id).Nodup := by
      rw [inv]
      exact List.nodup_range
    exact hids.sublist (List.filter_sublist.map _)
  have hsubset : (db.outbox.rows.filter fun o => Selected (dueEvents db limit locked) o).map
      OutboxRow.id ⊆ (dueEvents db limit locked).map OutboxRow.id := by
    intro id hid
    obtain ⟨o, ho, rfl⟩ := List.mem_map.mp hid
    exact of_decide_eq_true (List.mem_filter.mp ho).2
  have hle := (hnodup.subperm hsubset).length_le
  simp only [List.length_map] at hle
  rw [leaseDue, List.length_map]
  exact hle.trans (List.length_take_le _ _)

/-- Whole turns keep the rows numbered. -/
theorem numbered_turns {s' : Dispatchers} (inv : s.db.Numbered) (h : Turns cfg hostOf s s') :
    s'.db.Numbered := by
  have hcall : ∀ c, (call s.db c).Numbered := fun c =>
    call_invariant Db.Numbered (fun _ _ _ => Db.Numbered.step) (fun _ _ => Db.Numbered.handled) inv c
  cases h with
  | store op => exact hcall (.store op)
  | leases locked _ => exact hcall (.leaseDue _ cfg.lease locked)
  | reports _ _ => exact hcall _
  | _ => exact inv

theorem queued_withProc (s : Dispatchers) (p q : Nat) (process : Process) :
    (s.withProc p process).queued q = s.queued q := rfl

/-- Only the lease of a process changes. -/
theorem Balanced.withLeasing (inv : s.Balanced cfg hostOf) (p : Nat) (leasing : Option Nat)
    (h : ∀ free, leasing = some free → s.queued p = 0 ∧ free ≤ (s.procs p).permits) :
    (s.withProc p { s.procs p with leasing }).Balanced cfg hostOf := by
  have hproc : ∀ q, (s.withProc p { s.procs p with leasing }).procs q =
      { s.procs q with leasing := if q = p then leasing else (s.procs q).leasing } := by
    intro q
    by_cases hq : q = p
    · subst hq
      simp [withProc]
    · simp [withProc, hq]
  refine ⟨fun q => ?_, fun q host => ?_, fun q => ?_, fun q free hfree => ?_⟩
  · rw [hproc]
    exact inv.permits q
  · rw [hproc]
    exact inv.slots q host
  · rw [hproc]
    exact inv.queued q
  · rw [hproc] at hfree ⊢
    by_cases hq : q = p
    · subst hq
      exact h free (by simpa using hfree)
    · exact inv.leasing q free (by simpa [hq] using hfree)

/-- The tasks of a new batch are queued at the process that leased it. -/
theorem countP_leased (p q : Nat) (items : List OutboxItem) :
    (items.map fun item => (⟨p, item, .leased⟩ : Worker)).countP (Worker.isQueued q) =
      if p = q then items.length else 0 := by
  induction items with
  | nil => simp
  | cons item items ih =>
      rw [List.map_cons, List.countP_cons, ih]
      by_cases hq : p = q
      · simp [Worker.isQueued, hq]
      · simp [Worker.isQueued, hq]

/-- A process without tasks has all its permits and slots. -/
theorem Balanced.restarted (inv : s.Balanced cfg hostOf) {p : Nat}
    (empty : s.workers.countP (fun w => w.proc = p) = 0) :
    (s.withProc p (.new cfg)).Balanced cfg hostOf := by
  have hnone : ∀ w ∈ s.workers, w.proc ≠ p := by
    intro w hw
    simpa using List.countP_eq_zero.mp empty w hw
  have hzero : ∀ holds : Worker → Bool, (∀ w, holds w = true → w.proc = p) →
      s.workers.countP holds = 0 := fun holds hholds =>
    List.countP_eq_zero.mpr fun w hw h => hnone w hw (hholds w h)
  refine ⟨fun q => ?_, fun q host => ?_, fun q => ?_, fun q free hfree => ?_⟩
  · by_cases hq : q = p
    · subst hq
      simp only [withProc, Function.update_self, Accounted]
      rw [hzero _ fun w h => (of_decide_eq_true h).1]
      rfl
    · simp only [withProc, Function.update_of_ne hq]
      exact inv.permits q
  · by_cases hq : q = p
    · subst hq
      simp only [withProc, Function.update_self, Accounted]
      rw [hzero _ fun w h => (of_decide_eq_true h).1]
      rfl
    · simp only [withProc, Function.update_of_ne hq]
      exact inv.slots q host
  · by_cases hq : q = p
    · subst hq
      rw [queued_withProc, Dispatchers.queued, hzero _ fun w h => (of_decide_eq_true h).1]
      exact Nat.zero_le _
    · simp only [withProc, Function.update_of_ne hq]
      exact inv.queued q
  · by_cases hq : q = p
    · subst hq
      simp [withProc, Process.new] at hfree
    · simp only [withProc, Function.update_of_ne hq] at hfree ⊢
      exact inv.leasing q free hfree

/-- **Every turn keeps the permits and slots accounted for.** -/
theorem Balanced.turns {s' : Dispatchers} (inv : s.Balanced cfg hostOf) (numbered : s.db.Numbered)
    (h : Turns cfg hostOf s s') : s'.Balanced cfg hostOf := by
  cases h with
  | idle => exact inv
  | store op => exact ⟨inv.permits, inv.slots, inv.queued, inv.leasing⟩
  | @polls p hempty =>
      exact inv.withLeasing p _ fun free hfree => by
        obtain rfl := Option.some.inj hfree
        exact ⟨hempty, Nat.le_refl _⟩
  | @leases p free locked hfree =>
      have hidle := inv.withLeasing p none (fun _ => nofun)
      obtain ⟨hzero, hle⟩ := inv.leasing p free hfree
      have hlen := length_leaseDue_le numbered free cfg.lease locked
      refine ⟨fun q => (hidle.permits q).join (by simp [Worker.holdsPermit, TaskStage.hasPermit]),
        fun q host => (hidle.slots q host).join (by simp [Worker.holdsSlot, TaskStage.hasSlot]),
        fun q => ?_, fun q free' hfree' => ?_⟩
      · have hold := hidle.queued q
        rw [Dispatchers.queued, List.countP_append, countP_leased]
        split
        · next hq =>
            subst hq
            simp only [withProc, Function.update_self]
            change s.queued p + _ ≤ _
            omega
        · exact hold
      · have hold := hidle.leasing q free' hfree'
        rw [Dispatchers.queued, List.countP_append, countP_leased]
        split
        · next hq =>
            subst hq
            simp [withProc] at hfree'
        · exact hold
  | leaseFails p => exact inv.withLeasing p none (fun _ => nofun)
  | advances hw h => exact inv.advanced hw h
  | reports hw hat =>
      have hleave := inv.leave hw
      exact ⟨hleave.permits, hleave.slots, hleave.queued, hleave.leasing⟩
  | leaves hw => exact inv.leave hw
  | restarts hempty =>
      have hnew := inv.restarted hempty
      exact ⟨hnew.permits, hnew.slots, hnew.queued, hnew.leasing⟩
  | elapses ms => exact ⟨inv.permits, inv.slots, inv.queued, inv.leasing⟩

/-- Requests of a process to a host that are under way. -/
def posts (s : Dispatchers) (hostOf : String → String) (p : Nat) (host : String) : Nat :=
  s.workers.countP fun w => w.proc = p ∧ hostOf w.item.url = host ∧ w.stage = .posting

/-- The tasks of a process. -/
def tasks (s : Dispatchers) (p : Nat) : Nat := s.workers.countP fun w => w.proc = p ∧ w.stage ≠ .leased

/-- At most so many tasks post to one host. -/
theorem posts_le (inv : s.Balanced cfg hostOf) (p : Nat) (host : String) :
    s.posts hostOf p host ≤ max cfg.maxPerHost 1 := by
  refine le_trans (List.countP_mono_left fun w _ hw => ?_) (inv.slots p host).le
  obtain ⟨hp, hh, hstage⟩ := of_decide_eq_true hw
  simp [Worker.holdsSlot, hp, hh, hstage, TaskStage.hasSlot]

/-- Tasks and free permits add up to what the process started with. -/
theorem tasks_add_permits (inv : s.Balanced cfg hostOf) (p : Nat) :
    s.tasks p + (s.procs p).permits = max cfg.maxConcurrency 1 := by
  have hpermits := inv.permits p
  have heq : s.tasks p = s.workers.countP (Worker.holdsPermit p) :=
    List.countP_congr fun w _ => by simp [Worker.holdsPermit, TaskStage.hasPermit_iff]
  unfold Accounted at hpermits
  omega

end Dispatchers

/-- **The limits of a process are kept.**  In every run of any number of
processes: a process makes at most `max_per_host` requests to a host at a time
and has at most `max_concurrency` tasks (one, if the setting is zero), and for
every event it has leased and not spawned it has a free permit, so a lease never
runs out waiting for one. -/
theorem dispatcher_bounds (cfg : DispatcherConfig) (hostOf : String → String)
    (events : List Dispatchers.Event) (p : Nat) (host : String) :
    let s := run (Dispatchers.step cfg hostOf) (.new cfg) events
    s.posts hostOf p host ≤ max cfg.maxPerHost 1 ∧
      s.tasks p + (s.procs p).permits = max cfg.maxConcurrency 1 ∧
      s.queued p ≤ (s.procs p).permits := by
  intro s
  have hinv : s.db.Numbered ∧ s.Balanced cfg hostOf :=
    invariant_run (fun s : Dispatchers => s.db.Numbered ∧ s.Balanced cfg hostOf)
      (fun s e inv => ⟨Dispatchers.numbered_turns inv.1 (Dispatchers.step_turns cfg hostOf s e),
        inv.2.turns inv.1 (Dispatchers.step_turns cfg hostOf s e)⟩)
      ⟨by rfl, Dispatchers.balanced_new cfg hostOf⟩ events
  exact ⟨Dispatchers.posts_le hinv.2 p host, Dispatchers.tasks_add_permits hinv.2 p, hinv.2.queued p⟩

/-! ## The processes are dispatchers -/

namespace Dispatchers

variable {cfg : DispatcherConfig} {hostOf : String → String} {s : Dispatchers}

/-- The database and the deliveries under way. -/
def toDispatch (s : Dispatchers) : Dispatch := ⟨s.db, s.workers.map Worker.item⟩

theorem getElem?_inFlight {i : Nat} {w : Worker} (hw : s.workers[i]? = some w) :
    s.toDispatch.inFlight[i]? = some w.item := by simp [toDispatch, hw]

/-- **Every turn is a run of `Dispatch`.** -/
theorem turns_refine {s' : Dispatchers} (h : Turns cfg hostOf s s') :
    ∃ events, run (Dispatch.step cfg.toWebhookConfig) s.toDispatch events = s'.toDispatch := by
  cases h with
  | store op => exact ⟨[.store op], rfl⟩
  | @leases p free locked _ =>
      refine ⟨[.lease free cfg.lease locked], ?_⟩
      simp [toDispatch, Dispatch.step, Function.comp_def]
  | @advances i w _ stage _ hw _ =>
      refine ⟨[], ?_⟩
      have hitems := map_set_of_eq (f := Worker.item) (y := { w with stage }) hw rfl
      simp only [toDispatch, advanced, run_nil, hitems]
  | @reports i w attempt _ hw _ =>
      refine ⟨[.report i attempt], ?_⟩
      simp only [run_cons, run_nil, Dispatch.step, getElem?_inFlight hw]
      simp only [toDispatch, Dispatchers.leave, map_eraseIdx]
  | @leaves i w hw =>
      refine ⟨[.lost i], ?_⟩
      simp only [run_cons, run_nil, Dispatch.step, toDispatch, Dispatchers.leave, map_eraseIdx]
  | _ => exact ⟨[], rfl⟩

/-- **Every run of the processes is a run of the dispatchers**, as far as the
database and the events under way go. -/
theorem dispatchers_refine (events : List Event) :
    ∃ events', run (Dispatch.step cfg.toWebhookConfig) .new events' =
      (run (step cfg hostOf) (new cfg) events).toDispatch := by
  induction events using List.reverseRecOn with
  | nil => exact ⟨[], rfl⟩
  | append_singleton events e ih =>
      obtain ⟨before, hbefore⟩ := ih
      rw [run_append, run_cons, run_nil]
      obtain ⟨after, hafter⟩ := turns_refine
        (step_turns cfg hostOf (run (step cfg hostOf) (new cfg) events) e)
      exact ⟨before ++ after, by rw [run_append, hbefore, hafter]⟩

end Dispatchers

/-! ## Parked hosts -/

/-- The answers of a host to a process since it started, newest first: whether
the delivery failed, and when. -/
def answersTo (p : Nat) (host : String) : List Entry → List (Bool × Nat)
  | [] => []
  | .answered q h _ status _ clock :: log =>
      if q = p ∧ h = host then (!status.any isSuccess, clock) :: answersTo p host log
      else answersTo p host log
  | .unserialisable _ :: log => answersTo p host log
  | .restarted q :: log => if q = p then [] else answersTo p host log

/-- The failures since the last success. -/
def streak (answers : List (Bool × Nat)) : List (Bool × Nat) := answers.takeWhile Prod.fst

/-- What a process remembers of a host that answered so. -/
def HostState.after (cfg : DispatcherConfig) (answers : List (Bool × Nat)) : HostState where
  consecutiveFailures := (streak answers).length
  parkedUntil :=
    match streak answers with
    | [] => none
    | (_, clock) :: earlier =>
        if cfg.hostFailureThreshold ≤ earlier.length + 1 then some (clock + cfg.hostParkMs) else none

/-- One more failure is noted as one more answer. -/
theorem HostState.failed_after (cfg : DispatcherConfig) (clock : Nat) (answers : List (Bool × Nat)) :
    (HostState.after cfg answers).failed cfg clock = .after cfg ((true, clock) :: answers) := by
  have hstreak : streak ((true, clock) :: answers) = (true, clock) :: streak answers := rfl
  by_cases hmany : cfg.hostFailureThreshold ≤ (streak answers).length + 1
  · simp [HostState.failed, HostState.after, hstreak, hmany]
  · -- below the threshold nothing was parked before either
    cases hold : streak answers with
    | nil =>
        rw [hold] at hmany
        simp [HostState.failed, HostState.after, hstreak, hold]
    | cons answer earlier =>
        rw [hold, List.length_cons] at hmany
        have hfew : ¬ cfg.hostFailureThreshold ≤ earlier.length + 1 := by omega
        simp [HostState.failed, HostState.after, hstreak, hold, hmany, hfew]

/-- When a host is parked and for how long, in terms of the answers of its last
streak. -/
theorem parkedFor_after {cfg : DispatcherConfig} {clock wait : Nat} {answers : List (Bool × Nat)} :
    (HostState.after cfg answers).parkedFor clock = some wait ↔
      ∃ last earlier, streak answers = (true, last) :: earlier ∧
        cfg.hostFailureThreshold ≤ earlier.length + 1 ∧ clock ≤ last + cfg.hostParkMs ∧
        wait = last + cfg.hostParkMs - clock := by
  unfold HostState.parkedFor HostState.after
  cases hstreak : streak answers with
  | nil => simp
  | cons answer earlier =>
      obtain ⟨failed, last⟩ := answer
      have hfailed : failed = true := List.mem_takeWhile_imp (p := Prod.fst) (l := answers)
        (x := (failed, last)) (by rw [← streak, hstreak]; exact List.mem_cons_self)
      subst hfailed
      by_cases hmany : cfg.hostFailureThreshold ≤ earlier.length + 1
      · by_cases hlate : clock ≤ last + cfg.hostParkMs
        · simp [hmany, hlate, eq_comm]
        · simp [hmany, hlate]
      · simp [hmany]

namespace Dispatchers

variable {cfg : DispatcherConfig} {hostOf : String → String} {s : Dispatchers}

/-- Every process remembers its hosts as they answered. -/
def Remembers (cfg : DispatcherConfig) (s : Dispatchers) : Prop :=
  ∀ p host, (s.procs p).hosts host = .after cfg (answersTo p host s.log)

/-- A move records the answer it notes. -/
theorem Remembers.advanced (inv : s.Remembers cfg) {i : Nat} {w : Worker} {p' : Process}
    {stage : TaskStage} {entries : List Entry}
    (h : Proceeds cfg (hostOf w.item.url) s.clock (s.procs w.proc) w p' stage entries) :
    (s.advanced i w p' stage entries).Remembers cfg := by
  intro q host
  -- a turn without an answer leaves the memory and the log alone
  have hquiet : p'.hosts = (s.procs w.proc).hosts →
      answersTo q host (entries ++ s.log) = answersTo q host s.log →
      ((s.advanced i w p' stage entries).procs q).hosts host =
        .after cfg (answersTo q host (entries ++ s.log)) := by
    intro hhosts hlog
    rw [hlog]
    by_cases hq : w.proc = q
    · subst hq
      rw [procs_advanced_self, hhosts]
      exact inv _ host
    · rw [procs_advanced_of_ne hq]
      exact inv q host
  change _ = HostState.after cfg (answersTo q host (entries ++ s.log))
  cases h with
  | @answer status age draw at_ =>
      simp only [List.cons_append, List.nil_append, answersTo]
      by_cases hq : w.proc = q
      · subst hq
        rw [procs_advanced_self]
        by_cases hh : hostOf w.item.url = host
        · subst hh
          rw [if_pos ⟨rfl, rfl⟩, Process.hosts_note_self, inv]
          by_cases hok : status.any isSuccess = true
          · rw [if_pos hok, hok]
            rfl
          · have hfailed : status.any isSuccess = false := by simpa using hok
            rw [if_neg hok, HostState.failed_after, hfailed]
            rfl
        · rw [if_neg (fun h => hh h.2), Process.hosts_note_of_ne _ _ _ _ hh]
          exact inv _ host
      · rw [procs_advanced_of_ne hq, if_neg (fun h => hq h.1)]
        exact inv q host
  | _ => exact hquiet rfl rfl

/-- Whole turns keep the record. -/
theorem Remembers.turns {s' : Dispatchers} (inv : s.Remembers cfg) (h : Turns cfg hostOf s s') :
    s'.Remembers cfg := by
  have hkeeps : ∀ p process, process.hosts = (s.procs p).hosts → (s.withProc p process).Remembers cfg := by
    intro p process hhosts q host
    by_cases hq : q = p
    · subst hq
      simp only [withProc, Function.update_self, hhosts]
      exact inv q host
    · simp only [withProc, Function.update_of_ne hq]
      exact inv q host
  have hleave : ∀ i w, (s.leave hostOf i w).Remembers cfg := fun i w => hkeeps w.proc _ rfl
  cases h with
  | idle => exact inv
  | store op => exact inv
  | polls _ => exact hkeeps _ _ rfl
  | leases _ _ => exact hkeeps _ _ rfl
  | leaseFails p => exact hkeeps _ _ rfl
  | advances _ h => exact inv.advanced h
  | @reports i w _ _ _ _ => exact hleave i w
  | @leaves i w _ => exact hleave i w
  | @restarts p _ =>
      intro q host
      by_cases hq : q = p
      · subst hq
        simp only [withProc, Function.update_self, answersTo, if_true]
        rfl
      · simp only [withProc, Function.update_of_ne hq, answersTo, if_neg (Ne.symm hq)]
        exact inv q host
  | elapses ms => exact inv

end Dispatchers

/-- **When a host is parked.**  In every run, a task that is about to make a
request is sent back exactly if the last answers of the host to its process
were failures, as many as the threshold and at least one, and the newest of
them is no older than the parking time; it is sent back for the rest of it. -/
theorem parked_iff (cfg : DispatcherConfig) (hostOf : String → String)
    (events : List Dispatchers.Event) {i : Nat} {w : Worker}
    (hw : (run (Dispatchers.step cfg hostOf) (.new cfg) events).workers[i]? = some w)
    (started : w.stage = .started) (wait : Nat) :
    let s := run (Dispatchers.step cfg hostOf) (.new cfg) events
    (s.step cfg hostOf (.move i .check)).workers[i]? =
        some { w with stage := .reporting (.parked wait) false } ↔
      ∃ last earlier, streak (answersTo w.proc (hostOf w.item.url) s.log) = (true, last) :: earlier ∧
        cfg.hostFailureThreshold ≤ earlier.length + 1 ∧ s.clock ≤ last + cfg.hostParkMs ∧
        wait = last + cfg.hostParkMs - s.clock := by
  intro s
  have hinv : s.Remembers cfg :=
    invariant_run (Dispatchers.Remembers cfg) (fun s e inv => inv.turns (Dispatchers.step_turns cfg hostOf s e))
      (fun _ _ => rfl) events
  have hlt : i < s.workers.length := (List.getElem?_eq_some_iff.mp hw).1
  rw [← parkedFor_after, ← hinv]
  simp only [Dispatchers.step, advance, show s.workers[i]? = some w from hw, started]
  cases ((s.procs w.proc).hosts (hostOf w.item.url)).parkedFor s.clock with
  | none => simp [hlt]
  | some wait' => simp [hlt]

/-- One failure parks a host for 30 s. -/
def strictConfig : DispatcherConfig where
  retryBaseMs := 1000
  retryCapMs := 60000
  maxAgeSecs := 86400
  maxConcurrency := 4
  maxPerHost := 2
  hostFailureThreshold := 1
  hostParkMs := 30000
  requestTimeoutMs := 10000
  connectTimeoutMs := 5000

/-- The first request for an event fails; ten seconds later the event is leased
again. -/
def failedOnce : List Dispatchers.Event :=
  completedWatch.map .store ++
    [.poll 0, .lease 0 fun _ => false, .move 0 .spawn, .move 0 .check, .move 0 .slot,
      .move 0 (.answer none 0 0), .report 0 true, .elapse 10000, .store (.tick 10000), .poll 0,
      .lease 0 fun _ => false, .move 0 .spawn]

theorem parked_iff_failed :
    ∃ w, (run (Dispatchers.step strictConfig id) (.new strictConfig) failedOnce).workers[0]? = some w ∧
      ((run (Dispatchers.step strictConfig id) (.new strictConfig) failedOnce).step strictConfig id
        (.move 0 .check)).workers[0]? = some { w with stage := .reporting (.parked 20000) false } := by
  have hworkers : (run (Dispatchers.step strictConfig id) (.new strictConfig) failedOnce).workers.map
      (fun w => (w.proc, w.item.url, w.stage)) = [(0, "hook", .started)] := by decide +kernel
  obtain ⟨w, hlist, hw⟩ := List.map_eq_singleton_iff.mp hworkers
  obtain ⟨hproc, hurl, hstage⟩ : w.proc = 0 ∧ w.item.url = "hook" ∧ w.stage = .started := by
    simpa using hw
  have hget : (run (Dispatchers.step strictConfig id) (.new strictConfig) failedOnce).workers[0]? =
      some w := by rw [hlist]; rfl
  refine ⟨w, hget, (parked_iff strictConfig id failedOnce hget hstage 20000).mpr ⟨0, [], ?_⟩⟩
  rw [hproc, hurl]
  decide +kernel

end GumIndexer
