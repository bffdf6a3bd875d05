import GumIndexer.Base.Pool
import GumIndexer.Base.Run
import GumIndexer.Registry

/-!
# GumIndexer.Leadership

Who ingests a chain.

Every instance supervises every chain: it verifies the endpoint and loads the
watchlist (`bootstrap`), and then runs `lead` over and over.  `lead` opens a
connection of its own, waits on it for the chain's advisory lock, runs the
sweeper and the source while it holds the lock, and gives it back after they
have stopped.  The lock belongs to the session on the server and dies with it,
which the instance notices only when it next asks.

`Leadership` has every call of `lead` there ever was, on any number of
instances, the sessions and the lock table of the server, and the receivers of
an instance, which a task locks before it starts to work.  Sessions may die,
tasks may not stop in time and be aborted, calls may be torn down, and an unlock
may not reach the server.  `one_leader` says when two tasks can work on one
chain at the same time, `lock_free_iff` that a chain is never wedged, and
`leads_verified` that nobody ingests from an endpoint that was not verified.
-/

namespace GumIndexer

open Base

/-! ## Bootstrap -/

/-- The misconfigurations that `bootstrap` reports. -/
inductive BootstrapError
  | chainIdMismatch (expected actual : Nat)
  | tokenDecimalsMismatch (symbol : String) (address : Address) (expected : UInt8)
      (actual : Option UInt8)
deriving DecidableEq, Repr

/-- `token_decimals`, of what the call of `decimals()` returns. -/
def tokenDecimals (out : List UInt8) : Option UInt8 :=
  if out.length = 32 ∧ (out.take 31).all (· == 0) then out[31]? else none

/-- Only the one word that encodes a `uint8` is read as decimals. -/
theorem tokenDecimals_eq_some_iff {out : List UInt8} {decimals : UInt8} :
    tokenDecimals out = some decimals ↔ out = List.replicate 31 0 ++ [decimals] := by
  constructor
  · intro h
    rw [tokenDecimals, Option.ite_none_right_eq_some] at h
    obtain ⟨⟨hlength, hzero⟩, hlast⟩ := h
    have hpadding : out.take 31 = List.replicate 31 0 :=
      List.eq_replicate_iff.mpr ⟨by simp [hlength], fun b hb => by
        simpa using List.all_eq_true.mp hzero b hb⟩
    have hword : out.drop 31 = [decimals] := by
      rw [List.drop_eq_getElem?_toList_append, hlast, List.drop_eq_nil_of_le (by omega)]
      rfl
    rw [← hpadding, ← hword, List.take_append_drop]
  · rintro rfl
    rfl

/-- The loop over the tokens in `bootstrap`; `out` has what each token contract
returns. -/
def verifyDecimals (out : Address → List UInt8) : List TokenSpec → Except BootstrapError Unit
  | [] => .ok ()
  | token :: tokens =>
      let actual := tokenDecimals (out token.address)
      if actual ≠ some token.decimals then
        .error (.tokenDecimalsMismatch token.symbol token.address token.decimals actual)
      else verifyDecimals out tokens

/-- The checks of `bootstrap`, with what the endpoint answers. -/
def verifyEndpoint (spec : ChainSpec) (actual : Nat) (out : Address → List UInt8) :
    Except BootstrapError Unit :=
  if actual ≠ spec.chainId then .error (.chainIdMismatch spec.chainId actual)
  else verifyDecimals out spec.tokens

/-- The decimals are verified if every token answers with its own. -/
theorem verifyDecimals_ok_iff {out : Address → List UInt8} {tokens : List TokenSpec} :
    verifyDecimals out tokens = .ok () ↔
      ∀ token ∈ tokens, tokenDecimals (out token.address) = some token.decimals := by
  induction tokens with
  | nil => simp [verifyDecimals]
  | cons token tokens ih =>
      rw [verifyDecimals]
      by_cases h : tokenDecimals (out token.address) = some token.decimals
      · rw [if_neg (not_not.mpr h), ih]
        simp [h]
      · simp [h]

/-- What an endpoint must answer to be verified, word for word. -/
theorem verifyEndpoint_ok_iff {spec : ChainSpec} {actual : Nat} {out : Address → List UInt8} :
    verifyEndpoint spec actual out = .ok () ↔ actual = spec.chainId ∧
      ∀ token ∈ spec.tokens, out token.address = List.replicate 31 0 ++ [token.decimals] := by
  rw [verifyEndpoint]
  by_cases h : actual = spec.chainId
  · rw [if_neg (not_not.mpr h), verifyDecimals_ok_iff]
    simp only [h, true_and, tokenDecimals_eq_some_iff]
  · simp [h]

/-! ## The lock -/

/-- `leadership_key`: "GUM" in the high bits, the low 40 bits of the chain
id below. -/
def leadershipKey (chainId : Nat) : Nat := 0x47554D <<< 40 ^^^ chainId % 2 ^ 40

/-- Chains exclude each other only if their ids agree in the low 40 bits. -/
theorem leadershipKey_eq_iff {a b : Nat} :
    leadershipKey a = leadershipKey b ↔ a % 2 ^ 40 = b % 2 ^ 40 := by
  constructor
  · intro h
    have hxor := congrArg (0x47554D <<< 40 ^^^ ·) h
    simpa only [leadershipKey, ← Nat.xor_assoc, Nat.xor_self, Nat.zero_xor] using hxor
  · intro h
    rw [leadershipKey, h, leadershipKey]

inductive IngestTask
  | sweeper
  | source
deriving DecidableEq, Repr

instance (p : IngestTask → Prop) [DecidablePred p] : Decidable (∀ task, p task) :=
  decidable_of_iff (p .sweeper ∧ p .source) ⟨fun h task => by cases task <;> simp [h], fun h => ⟨h _, h _⟩⟩

inductive TaskStatus
  /-- Spawned; it waits for the receiver of its channel. -/
  | starting
  | working
  | done
deriving DecidableEq, Repr

structure TaskHandle where
  status : TaskStatus := .done
  /-- An aborted task runs on until it next waits for something. -/
  aborted : Bool := false
deriving DecidableEq, Repr

inductive LeadStage
  /-- At `pg_try_advisory_lock`. -/
  | waiting
  | leading
  /-- `work` is cancelled; the tasks may still be there. -/
  | draining
  /-- The call is over; `unreleased` if the server was never told. -/
  | over (unreleased : Bool)
deriving DecidableEq, Repr

/-- The call was granted the lock and the server was not told to free it. -/
def LeadStage.holds : LeadStage → Bool
  | .waiting => false
  | .leading => true
  | .draining => true
  | .over unreleased => unreleased

/-- The tasks are spawned, and not given up. -/
def LeadStage.leads : LeadStage → Bool
  | .leading => true
  | .draining => true
  | _ => false

/-- Who leads holds the lock. -/
theorem LeadStage.holds_of_leads {stage : LeadStage} (h : stage.leads = true) : stage.holds = true := by
  cases stage <;> simp_all [LeadStage.leads, LeadStage.holds]

def LeadStage.isOver : LeadStage → Bool
  | .over _ => true
  | _ => false

/-- A call of `lead`. -/
structure Lead where
  inst : Nat
  chainId : Nat
  session : Nat
  stage : LeadStage := .waiting
  tasks : IngestTask → TaskHandle := fun _ => {}

namespace Lead

variable (l : Lead)

def key : Nat := leadershipKey l.chainId

/-- The channel that a task of the call reads. -/
def channel (task : IngestTask) : Nat × Nat × IngestTask := (l.inst, l.chainId, task)

def Works (task : IngestTask) : Prop := (l.tasks task).status = .working

instance (task : IngestTask) : Decidable (l.Works task) := inferInstanceAs (Decidable (_ = _))

/-- The task has returned, or it was told to stop at once. -/
def Stopped (task : IngestTask) : Prop := (l.tasks task).status = .done ∨ (l.tasks task).aborted

instance (task : IngestTask) : Decidable (l.Stopped task) := inferInstanceAs (Decidable (_ ∨ _))

/-- No task would outlast the lock. -/
def Tidy : Prop := l.stage.leads = false → ∀ task, l.Stopped task

def withStage (stage : LeadStage) : Lead := { l with stage }

def withStatus (task : IngestTask) (status : TaskStatus) : Lead :=
  { l with tasks := Function.update l.tasks task { l.tasks task with status } }

def abort (task : IngestTask) : Lead :=
  { l with tasks := Function.update l.tasks task { l.tasks task with aborted := true } }

/-- Dropping the call drops its tasks. -/
def dropped : Lead := ((l.abort .sweeper).abort .source).withStage (.over l.stage.holds)

def granted : Lead := { l with stage := .leading, tasks := fun _ => { status := .starting } }

end Lead

structure Leadership where
  hydrated : Nat × Nat → Bool := fun _ => false
  leads : List Lead := []
  /-- The sessions of the server are numbered. -/
  sessions : Nat := 0
  alive : Nat → Bool := fun _ => false
  /-- The advisory locks and the sessions that hold them. -/
  locks : Nat → Option Nat := fun _ => none
  /-- `sweep_rx` and `watch_rx` of each runtime, and the call whose task has it. -/
  receivers : Nat × Nat × IngestTask → Option Nat := fun _ => none

namespace Leadership

/-- What happens to one call of `lead`. -/
inductive LeadEvent
  | tryLock
  /-- Cancelled while it waits. -/
  | quit
  /-- A task locks its receiver. -/
  | receive (task : IngestTask)
  | keepalive
  | cancel
  /-- A task stops, of its own accord or because it was aborted. -/
  | stops (task : IngestTask)
  /-- The loop sees that a task has returned. -/
  | joins (task : IngestTask)
  /-- A task does not stop in time and is aborted. -/
  | timeout (task : IngestTask)
  /-- Unlock and close; `reached` if the server gets to know. -/
  | release (reached : Bool)
  /-- The call panics or its supervisor is torn down. -/
  | drop
deriving DecidableEq, Repr

inductive Event
  /-- `bootstrap` of a chain, with the answers of the endpoint; `loaded` if the
  endpoint and the database answer the rest. -/
  | bootstrap (inst : Nat) (spec : ChainSpec) (actual : Nat) (out : Address → List UInt8)
      (loaded : Bool)
  /-- `lead` is called and opens its connection. -/
  | connect (inst chainId : Nat)
  /-- The server ends a session. -/
  | dies (session : Nat)
  | lead (call : Nat) (e : LeadEvent)

variable (s : Leadership)

def setLead (i : Nat) (l : Lead) : Leadership := { s with leads := s.leads.set i l }

def connected (inst chainId : Nat) : Leadership :=
  { s with
    leads := s.leads ++ [{ inst, chainId, session := s.sessions }]
    sessions := s.sessions + 1
    alive := Function.update s.alive s.sessions true }

/-- The session ends, and its locks with it. -/
def endSession (session : Nat) : Leadership :=
  { s with
    alive := Function.update s.alive session false
    locks := fun key => if s.locks key = some session then none else s.locks key }

/-- The lock is granted, and the tasks are spawned. -/
def grant (i : Nat) (l : Lead) : Leadership :=
  { s.setLead i l.granted with locks := Function.update s.locks l.key (some l.session) }

def receive (i : Nat) (l : Lead) (task : IngestTask) : Leadership :=
  { s.setLead i (l.withStatus task .working) with
    receivers := Function.update s.receivers (l.channel task) (some l.session) }

/-- A task that worked drops the guard of its receiver. -/
def stop (i : Nat) (l : Lead) (task : IngestTask) : Leadership :=
  { s.setLead i (l.withStatus task .done) with
    receivers :=
      if l.Works task then Function.update s.receivers (l.channel task) none else s.receivers }

def leadStep (i : Nat) (l : Lead) : LeadEvent → Leadership
  | .tryLock =>
      if l.stage = .waiting then
        if s.alive l.session then
          if s.locks l.key = none then s.grant i l else s
        else s.setLead i (l.withStage (.over false))
      else s
  | .quit => if l.stage = .waiting then s.setLead i (l.withStage (.over false)) else s
  | .receive task =>
      if (l.tasks task).status = .starting ∧ s.receivers (l.channel task) = none then s.receive i l task
      else s
  | .keepalive =>
      if l.stage = .leading ∧ s.alive l.session = false then s.setLead i (l.withStage .draining) else s
  | .cancel => if l.stage = .leading then s.setLead i (l.withStage .draining) else s
  | .stops task => if (l.tasks task).status ≠ .done then s.stop i l task else s
  | .joins task =>
      if l.stage = .leading ∧ (l.tasks task).status = .done then s.setLead i (l.withStage .draining)
      else s
  | .timeout task => if l.stage = .draining then s.setLead i (l.abort task) else s
  | .release reached =>
      if l.stage = .draining ∧ ∀ task, l.Stopped task then
        if reached then (s.setLead i (l.withStage (.over false))).endSession l.session
        else s.setLead i (l.withStage (.over true))
      else s
  | .drop => s.setLead i l.dropped

/-- One event; one that is not enabled changes nothing. -/
def step : Event → Leadership
  | .bootstrap inst spec actual out loaded =>
      if s.hydrated (inst, spec.chainId) = false ∧ verifyEndpoint spec actual out = .ok () ∧
          loaded then
        { s with hydrated := Function.update s.hydrated (inst, spec.chainId) true }
      else s
  | .connect inst chainId =>
      -- `run_chain` has one call at a time.
      if s.hydrated (inst, chainId) ∧
          ∀ l ∈ s.leads, l.inst = inst → l.chainId = chainId → l.stage.isOver then
        s.connected inst chainId
      else s
  | .dies session => s.endSession session
  | .lead i e =>
      match s.leads[i]? with
      | some l => s.leadStep i l e
      | none => s

/-! ## What an event does to the calls -/

variable {s} {i : Nat} {l : Lead}

/-- The same call at a later time. -/
structure Same (l l' : Lead) : Prop where
  inst : l'.inst = l.inst
  chainId : l'.chainId = l.chainId
  session : l'.session = l.session
  tidy : l.Tidy → l'.Tidy

theorem Same.key {l' : Lead} (h : Same l l') : l'.key = l.key := by
  rw [Lead.key, Lead.key, h.chainId]

theorem Same.channel {l' : Lead} (h : Same l l') (task : IngestTask) :
    l'.channel task = l.channel task := by
  rw [Lead.channel, Lead.channel, h.inst, h.chainId]

/-- The same call, with no more tasks at work. -/
structure Edits (l l' : Lead) : Prop extends Same l l' where
  works : ∀ task, l'.Works task → l.Works task

/-- A call goes on to drain. -/
theorem edits_drain : Edits l (l.withStage .draining) :=
  ⟨⟨rfl, rfl, rfl, fun _ h => by cases h⟩, fun _ h => h⟩

/-- A call ends whose tasks are stopped. -/
theorem edits_over (unreleased : Bool) (h : l.Tidy → ∀ task, l.Stopped task) :
    Edits l (l.withStage (.over unreleased)) :=
  ⟨⟨rfl, rfl, rfl, fun htidy _ => h htidy⟩, fun _ h => h⟩

/-- Two edits make one. -/
theorem Edits.trans {l' l'' : Lead} (h : Edits l l') (h' : Edits l' l'') : Edits l l'' :=
  ⟨⟨h'.inst.trans h.inst, h'.chainId.trans h.chainId, h'.session.trans h.session,
    fun ht => h'.tidy (h.tidy ht)⟩, fun task hw => h.works task (h'.works task hw)⟩

/-- Aborting a task is an edit. -/
theorem edits_abort (task : IngestTask) : Edits l (l.abort task) := by
  refine ⟨⟨rfl, rfl, rfl, fun htidy h other => ?_⟩, fun other h => ?_⟩
  · by_cases ho : other = task
    · subst ho
      simp [Lead.Stopped, Lead.abort]
    · simpa [Lead.Stopped, Lead.abort, Function.update_of_ne ho] using htidy h other
  · by_cases ho : other = task
    · subst ho
      simpa [Lead.Works, Lead.abort] using h
    · simpa [Lead.Works, Lead.abort, Function.update_of_ne ho] using h

/-- An aborted task is stopped. -/
theorem stopped_abort (l : Lead) (task : IngestTask) : (l.abort task).Stopped task := by
  simp [Lead.Stopped, Lead.abort]

/-- Dropping the future aborts both tasks. -/
theorem edits_dropped : Edits l l.dropped := by
  refine ((edits_abort .sweeper).trans (edits_abort .source)).trans (edits_over _ fun _ task => ?_)
  cases task with
  | sweeper => exact stopped_abort l .sweeper
  | source => exact stopped_abort (l.abort .sweeper) .source

/-- Everything an event may do. -/
inductive Turns (s : Leadership) : Leadership → Prop
  | stay : Turns s s
  | hydrate (inst : Nat) (spec : ChainSpec) :
      Turns s { s with hydrated := Function.update s.hydrated (inst, spec.chainId) true }
  | connect (inst chainId : Nat) (hydrated : s.hydrated (inst, chainId) = true) :
      Turns s (s.connected inst chainId)
  | dies (session : Nat) : Turns s (s.endSession session)
  | edit (i : Nat) (l l' : Lead) (call : s.leads[i]? = some l) (edits : Edits l l')
      (holds : l'.stage.holds = l.stage.holds) : Turns s (s.setLead i l')
  | grant (i : Nat) (l : Lead) (call : s.leads[i]? = some l) (stage : l.stage = .waiting)
      (alive : s.alive l.session = true) (free : s.locks l.key = none) : Turns s (s.grant i l)
  | receive (i : Nat) (l : Lead) (task : IngestTask) (call : s.leads[i]? = some l)
      (status : (l.tasks task).status = .starting) (free : s.receivers (l.channel task) = none) :
      Turns s (s.receive i l task)
  | stop (i : Nat) (l : Lead) (task : IngestTask) (call : s.leads[i]? = some l) :
      Turns s (s.stop i l task)
  | release (i : Nat) (l : Lead) (call : s.leads[i]? = some l) (stopped : ∀ task, l.Stopped task) :
      Turns s ((s.setLead i (l.withStage (.over false))).endSession l.session)

/-- An event of one call is a turn. -/
theorem leadStep_turns (call : s.leads[i]? = some l) (e : LeadEvent) : Turns s (s.leadStep i l e) := by
  cases e with
  | tryLock =>
      simp only [leadStep]
      split_ifs with hstage halive hfree
      · exact .grant i l call hstage halive hfree
      · exact .stay
      · exact .edit i l _ call (edits_over _ fun h => h (by rw [hstage]; rfl)) (by rw [hstage]; rfl)
      · exact .stay
  | quit =>
      simp only [leadStep]
      split_ifs with hstage
      · exact .edit i l _ call (edits_over _ fun h => h (by rw [hstage]; rfl)) (by rw [hstage]; rfl)
      · exact .stay
  | receive task =>
      simp only [leadStep]
      split_ifs with h
      · exact .receive i l task call h.1 h.2
      · exact .stay
  | keepalive =>
      simp only [leadStep]
      split_ifs with h
      · exact .edit i l _ call edits_drain (by rw [h.1]; rfl)
      · exact .stay
  | cancel =>
      simp only [leadStep]
      split_ifs with h
      · exact .edit i l _ call edits_drain (by rw [h]; rfl)
      · exact .stay
  | stops task =>
      simp only [leadStep]
      split_ifs
      · exact .stop i l task call
      · exact .stay
  | joins task =>
      simp only [leadStep]
      split_ifs with h
      · exact .edit i l _ call edits_drain (by rw [h.1]; rfl)
      · exact .stay
  | timeout task =>
      simp only [leadStep]
      split_ifs with h
      · exact .edit i l _ call (edits_abort task) rfl
      · exact .stay
  | release reached =>
      simp only [leadStep]
      split_ifs with h hreached
      · exact .release i l call h.2
      · exact .edit i l _ call (edits_over _ fun _ => h.2) (by rw [h.1]; rfl)
      · exact .stay
  | drop => exact .edit i l _ call edits_dropped rfl

/-- **Every event is a turn.** -/
theorem step_turns (s : Leadership) (e : Event) : Turns s (s.step e) := by
  cases e with
  | bootstrap inst spec actual out loaded =>
      simp only [step]
      split_ifs
      · exact .hydrate inst spec
      · exact .stay
  | connect inst chainId =>
      simp only [step]
      split_ifs with h
      · exact .connect inst chainId h.1
      · exact .stay
  | dies session => exact .dies session
  | lead i e =>
      simp only [step]
      split
      · exact leadStep_turns ‹_› e
      · exact .stay

/-! ## Invariants -/

/-- What holds between the calls, the server and the receivers. -/
structure Sound (s : Leadership) : Prop where
  known : ∀ l ∈ s.leads, l.session < s.sessions
  distinct : (s.leads.map Lead.session).Nodup
  tidy : ∀ l ∈ s.leads, l.Tidy
  /-- While its session lives, a call has the lock until it gives it back. -/
  locked : ∀ (i : Nat) (l : Lead), s.leads[i]? = some l → l.stage.holds = true → s.alive l.session = true →
    s.locks l.key = some l.session
  /-- A lock is held by a living session, of a call that has not given it back. -/
  held : ∀ key session, s.locks key = some session → s.alive session = true ∧
    ∃ l ∈ s.leads, l.session = session ∧ l.key = key ∧ l.stage.holds = true
  /-- A task that works has its receiver. -/
  received : ∀ (i : Nat) (l : Lead) task, s.leads[i]? = some l → l.Works task →
    s.receivers (l.channel task) = some l.session

namespace Sound

/-- Before the first event there are no calls. -/
theorem init : Sound {} := by
  constructor <;> simp

/-- Everything but the lock and the receivers of a call that is replaced. -/
theorem mem_set {P : Lead → Prop} {xs : List Lead} {l' : Lead} (h : ∀ m ∈ xs, P m) (hl : P l') :
    ∀ m ∈ xs.set i l', P m := by
  intro m hm
  rcases List.mem_or_eq_of_mem_set hm with hm | rfl
  · exact h m hm
  · exact hl

variable (inv : Sound s)
include inv

/-- A session belongs to one call. -/
theorem index_eq {j : Nat} {m : Lead} (hl : s.leads[i]? = some l) (hm : s.leads[j]? = some m)
    (h : l.session = m.session) : i = j := by
  have hlt : i < (s.leads.map Lead.session).length := by
    rw [List.length_map]
    exact (List.getElem?_eq_some_iff.mp hl).1
  rw [← List.getElem?_inj hlt inv.distinct, List.getElem?_map, List.getElem?_map, hl, hm,
    Option.map_some, Option.map_some, h]

/-- A call that goes on keeps its session for itself. -/
theorem distinct_set {l' : Lead} (call : s.leads[i]? = some l) (same : l'.session = l.session) :
    ((s.leads.set i l').map Lead.session).Nodup := by
  rw [map_set_of_eq call same]
  exact inv.distinct

/-- When a session ends, its locks are free. -/
theorem endSession (session : Nat) : Sound (s.endSession session) where
  known := inv.known
  distinct := inv.distinct
  tidy := inv.tidy
  locked := by
    intro i l call hholds halive
    simp only [Leadership.endSession, Function.update_apply] at halive ⊢
    split_ifs at halive with hne
    have hlock := inv.locked i l call hholds halive
    rw [if_neg, hlock]
    rw [hlock, Option.some_inj]
    exact hne
  held := by
    intro key n hlock
    simp only [Leadership.endSession] at hlock ⊢
    split_ifs at hlock with hne
    obtain ⟨halive, hex⟩ := inv.held key n hlock
    refine ⟨?_, hex⟩
    rw [Function.update_of_ne, halive]
    rintro rfl
    exact hne hlock
  received := inv.received

/-- A call goes on; the receivers are as the tasks that work need them. -/
theorem replace {l' : Lead} {receivers : Nat × Nat × IngestTask → Option Nat}
    (call : s.leads[i]? = some l) (same : Same l l') (holds : l'.stage.holds = l.stage.holds)
    (received : ∀ (j : Nat) (m : Lead) task, (s.leads.set i l')[j]? = some m → m.Works task →
      receivers (m.channel task) = some m.session) :
    Sound { s.setLead i l' with receivers } where
  known := mem_set inv.known (by rw [same.session]; exact inv.known l (List.mem_of_getElem? call))
  distinct := inv.distinct_set call same.session
  tidy := mem_set inv.tidy (same.tidy (inv.tidy l (List.mem_of_getElem? call)))
  locked := by
    intro j m hm hholds halive
    rcases get?_set_cases hm with ⟨-, rfl⟩ | ⟨-, hm⟩
    · rw [same.session] at halive ⊢
      rw [same.key]
      exact inv.locked i l call (holds ▸ hholds) halive
    · exact inv.locked j m hm hholds halive
  held := by
    intro key n hlock
    obtain ⟨halive, hex⟩ := inv.held key n hlock
    refine ⟨halive, exists_mem_set call ?_ hex⟩
    rintro ⟨hsession, hkey, hholds⟩
    exact ⟨same.session.trans hsession, same.key.trans hkey, holds.trans hholds⟩
  received := received

/-- An edit keeps the locks as they are. -/
theorem edit {l' : Lead} (call : s.leads[i]? = some l) (edits : Edits l l')
    (holds : l'.stage.holds = l.stage.holds) : Sound (s.setLead i l') := by
  refine inv.replace call edits.toSame holds fun j m task hm hworks => ?_
  rcases get?_set_cases hm with ⟨-, rfl⟩ | ⟨-, hm⟩
  · rw [edits.session, edits.channel]
    exact inv.received _ l task call (edits.works task hworks)
  · exact inv.received j m task hm hworks

/-- The tasks of the other calls keep their receivers: whoever has the channel
of a task of this call is at work there. -/
theorem received_other {task : IngestTask} {j : Nat} {m : Lead} {other : IngestTask} (call : s.leads[i]? = some l)
    (hm : s.leads[j]? = some m) (hne : j ≠ i) (hworks : m.Works other)
    (free : s.receivers (l.channel task) = none ∨ s.receivers (l.channel task) = some l.session) :
    m.channel other ≠ l.channel task := by
  intro hchannel
  have hhas := inv.received j m other hm hworks
  rw [hchannel] at hhas
  rcases free with hfree | hfree
  · rw [hfree] at hhas
    cases hhas
  · rw [hfree] at hhas
    exact hne (inv.index_eq hm call (Option.some.inj hhas).symm)

/-- A task takes the receiver that nobody has. -/
theorem receive {task : IngestTask} (call : s.leads[i]? = some l)
    (status : (l.tasks task).status = .starting) (free : s.receivers (l.channel task) = none) :
    Sound (s.receive i l task) := by
  refine inv.replace call ⟨rfl, rfl, rfl, fun htidy h other => ?_⟩ rfl fun j m other hm hworks => ?_
  · have hstopped := htidy h other
    by_cases ho : other = task
    · subst ho
      simpa [Lead.Stopped, Lead.withStatus, status] using hstopped
    · simpa [Lead.Stopped, Lead.withStatus, Function.update_of_ne ho] using hstopped
  · rcases get?_set_cases hm with ⟨-, rfl⟩ | ⟨hne, hm⟩
    · by_cases ho : other = task
      · subst ho
        exact Function.update_self ..
      · have hchannel : l.channel other ≠ l.channel task := by simp [Lead.channel, ho]
        exact (Function.update_of_ne hchannel ..).trans <| inv.received i l other call <| by
          simpa [Lead.Works, Lead.withStatus, Function.update_of_ne ho] using hworks
    · rw [Function.update_of_ne (inv.received_other call hm hne hworks (.inl free))]
      exact inv.received j m other hm hworks

/-- A task that stops gives it back. -/
theorem stop {task : IngestTask} (call : s.leads[i]? = some l) : Sound (s.stop i l task) := by
  refine inv.replace call ⟨rfl, rfl, rfl, fun htidy h other => ?_⟩ rfl fun j m other hm hworks => ?_
  · by_cases ho : other = task
    · subst ho
      simp [Lead.Stopped, Lead.withStatus]
    · simpa [Lead.Stopped, Lead.withStatus, Function.update_of_ne ho] using htidy h other
  · rcases get?_set_cases hm with ⟨-, rfl⟩ | ⟨hne, hm⟩
    · have ho : other ≠ task := by
        rintro rfl
        simp [Lead.Works, Lead.withStatus] at hworks
      have hhas := inv.received i l other call (by
        simpa [Lead.Works, Lead.withStatus, Function.update_of_ne ho] using hworks)
      have hchannel : l.channel other ≠ l.channel task := by simp [Lead.channel, ho]
      split_ifs
      · exact (Function.update_of_ne hchannel ..).trans hhas
      · exact hhas
    · have hhas := inv.received j m other hm hworks
      split_ifs with hwork
      · rw [Function.update_of_ne, hhas]
        exact inv.received_other call hm hne hworks (.inr (inv.received i l task call hwork))
      · exact hhas

/-- The lock goes with the session. -/
theorem release (call : s.leads[i]? = some l) (stopped : ∀ task, l.Stopped task) :
    Sound ((s.setLead i (l.withStage (.over false))).endSession l.session) := by
  -- The session ends before the call is over: the lock is gone when it says so.
  have hended := inv.endSession l.session
  refine { known := ?_, distinct := ?_, tidy := ?_, locked := ?_, held := ?_, received := ?_ }
  · exact mem_set inv.known (inv.known l (List.mem_of_getElem? call))
  · exact inv.distinct_set call (by rfl)
  · exact mem_set inv.tidy fun _ => stopped
  · intro j m hm hholds halive
    rcases get?_set_cases hm with ⟨-, rfl⟩ | ⟨-, hm⟩
    · cases hholds
    · exact hended.locked j m hm hholds halive
  · intro key n hlock
    obtain ⟨halive, hex⟩ := hended.held key n hlock
    refine ⟨halive, exists_mem_set call ?_ hex⟩
    rintro ⟨rfl, -, -⟩
    simp [Leadership.endSession] at halive
  · intro j m task hm hworks
    rcases get?_set_cases hm with ⟨-, rfl⟩ | ⟨-, hm⟩
    · exact inv.received i l task call hworks
    · exact inv.received j m task hm hworks

/-- A new call has a session of its own, and no lock. -/
theorem connected (inst chainId : Nat) : Sound (s.connected inst chainId) where
  known := by
    intro l hl
    simp only [Leadership.connected, List.mem_append, List.mem_singleton] at hl ⊢
    rcases hl with hl | rfl
    · exact Nat.lt_succ_of_lt (inv.known l hl)
    · exact Nat.lt_succ_self _
  distinct := by
    rw [Leadership.connected, List.map_append]
    refine inv.distinct.append (List.nodup_singleton _) ?_
    simp only [List.map_cons, List.map_nil, List.disjoint_singleton, List.mem_map]
    rintro ⟨l, hl, hsession⟩
    exact (Nat.ne_of_lt (inv.known l hl)) hsession
  tidy := by
    intro l hl
    simp only [Leadership.connected, List.mem_append, List.mem_singleton] at hl
    rcases hl with hl | rfl
    · exact inv.tidy l hl
    · exact fun _ _ => Or.inl rfl
  locked := by
    intro i l hl hholds halive
    rcases get?_concat_cases hl with ⟨-, rfl⟩ | hl
    · cases hholds
    · have hne := Nat.ne_of_lt (inv.known l (List.mem_of_getElem? hl))
      exact inv.locked i l hl hholds ((Function.update_of_ne hne ..).symm.trans halive)
  held := by
    intro key n hlock
    obtain ⟨halive, l, hl, hrest⟩ := inv.held key n hlock
    refine ⟨?_, l, List.mem_append_left _ hl, hrest⟩
    simp only [Leadership.connected, Function.update_apply]
    split_ifs
    · rfl
    · exact halive
  received := by
    intro i l task hl hworks
    rcases get?_concat_cases hl with ⟨-, rfl⟩ | hl
    · cases hworks
    · exact inv.received i l task hl hworks

/-- The lock is granted to a session that is alive, if nobody holds it. -/
theorem grant (call : s.leads[i]? = some l)
    (alive : s.alive l.session = true) (free : s.locks l.key = none) : Sound (s.grant i l) where
  known := mem_set inv.known (inv.known l (List.mem_of_getElem? call))
  distinct := inv.distinct_set call (by rfl)
  tidy := mem_set inv.tidy (fun h => by cases h)
  locked := by
    intro j m hm hholds halive
    simp only [Leadership.grant]
    rcases get?_set_cases hm with ⟨-, rfl⟩ | ⟨-, hm⟩
    · exact Function.update_self ..
    · have hlock := inv.locked j m hm hholds halive
      rw [Function.update_of_ne, hlock]
      intro hkey
      rw [hkey, free] at hlock
      cases hlock
  held := by
    intro key n hlock
    simp only [Leadership.grant, Function.update_apply] at hlock
    split_ifs at hlock with hkey
    · obtain rfl := Option.some.inj hlock
      exact ⟨alive, l.granted, List.mem_set (List.getElem?_eq_some_iff.mp call).1 _, rfl, hkey.symm, rfl⟩
    · obtain ⟨halive, hex⟩ := inv.held key n hlock
      refine ⟨halive, exists_mem_set call ?_ hex⟩
      rintro ⟨-, rfl, -⟩
      exact absurd rfl hkey
  received := by
    intro j m task hm hworks
    rcases get?_set_cases hm with ⟨-, rfl⟩ | ⟨-, hm⟩
    · cases hworks
    · exact inv.received j m task hm hworks

/-- **Every turn keeps the state sound.** -/
theorem turns {s' : Leadership} (h : Turns s s') : Sound s' := by
  cases h with
  | stay => exact inv
  | hydrate inst spec => exact { inv with }
  | connect inst chainId _ => exact inv.connected inst chainId
  | dies session => exact inv.endSession session
  | edit i l l' call edits holds => exact inv.edit call edits holds
  | grant i l call stage alive free => exact inv.grant call alive free
  | receive i l task call status free => exact inv.receive call status free
  | stop i l task call => exact inv.stop call
  | release i l call stopped => exact inv.release call stopped

end Sound

/-- So it is sound in every run. -/
theorem sound_run (events : List Event) : Sound (run step {} events) :=
  invariant_run Sound (fun s e inv => inv.turns (step_turns s e)) Sound.init events

/-! ## Who works on a chain -/

/-- The call is not entitled to what the task does: the task was aborted and
has not stopped, or the session of the call is dead. -/
def Displaced (s : Leadership) (l : Lead) (task : IngestTask) : Prop :=
  (l.tasks task).aborted = true ∨ s.alive l.session = false

/-- A call whose tasks work holds the lock, unless it has been displaced. -/
theorem Sound.locks_of_works (inv : Sound s) {task : IngestTask} (call : s.leads[i]? = some l)
    (hworks : l.Works task) (h : ¬ s.Displaced l task) : s.locks l.key = some l.session := by
  obtain ⟨haborted, halive⟩ := not_or.mp h
  have hleads : l.stage.leads = true := by
    by_contra hleads
    rcases inv.tidy l (List.mem_of_getElem? call) (Bool.eq_false_iff.mpr hleads) task with hdone | hab
    · rw [Lead.Works, hdone] at hworks
      cases hworks
    · exact haborted hab
  exact inv.locked i l call (LeadStage.holds_of_leads hleads) (by simpa using halive)

/-- The lock is free if and only if everyone who was granted it has given it
back or has lost the session. -/
theorem Sound.free_iff (inv : Sound s) (key : Nat) :
    s.locks key = none ↔
      ∀ m ∈ s.leads, m.key = key → m.stage.holds = true → s.alive m.session = false := by
  constructor
  · rintro hfree m hm rfl hholds
    obtain ⟨j, hj⟩ := List.mem_iff_getElem?.mp hm
    by_contra halive
    rw [inv.locked j m hj hholds (by simpa using halive)] at hfree
    cases hfree
  · intro h
    cases hlock : s.locks key with
    | none => rfl
    | some n =>
        obtain ⟨halive, m, hm, rfl, hkey, hholds⟩ := inv.held key n hlock
        rw [h m hm hkey hholds] at halive
        cases halive

/-- A try at the lock succeeds exactly if the lock is free. -/
theorem tryLock_leads_iff (call : s.leads[i]? = some l) (stage : l.stage = .waiting)
    (alive : s.alive l.session = true) :
    (∃ l', (s.step (.lead i .tryLock)).leads[i]? = some l' ∧ l'.stage = .leading) ↔
      s.locks l.key = none := by
  simp only [step, call, leadStep, if_pos stage, if_pos alive]
  by_cases hfree : s.locks l.key = none
  · rw [if_pos hfree]
    refine iff_of_true ⟨l.granted, ?_, rfl⟩ hfree
    exact List.getElem?_set_self (List.getElem?_eq_some_iff.mp call).1
  · rw [if_neg hfree]
    refine iff_of_false ?_ hfree
    rintro ⟨l', hl', hleading⟩
    rw [call, Option.some_inj] at hl'
    rw [← hl', stage] at hleading
    cases hleading

/-! ## What was verified -/

/-- A chain is hydrated before it is led, and stays so. -/
theorem hydrated_turns {s' : Leadership} (h : Turns s s')
    (inv : ∀ l ∈ s.leads, s.hydrated (l.inst, l.chainId) = true) :
    ∀ l ∈ s'.leads, s'.hydrated (l.inst, l.chainId) = true := by
  have hset : ∀ {i l l'}, s.leads[i]? = some l → Same l l' →
      ∀ m ∈ s.leads.set i l', s.hydrated (m.inst, m.chainId) = true := by
    intro i l l' call same
    refine Sound.mem_set inv ?_
    rw [same.inst, same.chainId]
    exact inv l (List.mem_of_getElem? call)
  cases h with
  | stay => exact inv
  | hydrate inst spec =>
      intro l hl
      simp only [Function.update_apply]
      split_ifs
      · rfl
      · exact inv l hl
  | connect inst chainId hydrated =>
      intro l hl
      simp only [connected, List.mem_append, List.mem_singleton] at hl
      rcases hl with hl | rfl
      · exact inv l hl
      · exact hydrated
  | dies session => exact inv
  | edit i l l' call edits _ => exact hset call edits.toSame
  | grant i l call _ _ _ => exact Sound.mem_set inv (inv l (List.mem_of_getElem? call))
  | receive i l task call _ _ => exact Sound.mem_set inv (inv l (List.mem_of_getElem? call))
  | stop i l task call => exact Sound.mem_set inv (inv l (List.mem_of_getElem? call))
  | release i l call _ => exact Sound.mem_set inv (inv l (List.mem_of_getElem? call))

theorem leadStep_hydrated (s : Leadership) (i : Nat) (l : Lead) (e : LeadEvent) :
    (s.leadStep i l e).hydrated = s.hydrated := by
  cases e with
  | drop => rfl
  | _ => simp only [leadStep]; split_ifs <;> rfl

/-- Only a bootstrap that found everything as configured sets the flag. -/
theorem step_hydrates {inst chainId : Nat} {e : Event} (h : ¬ s.hydrated (inst, chainId) = true)
    (h' : (s.step e).hydrated (inst, chainId) = true) :
    ∃ spec actual out, e = .bootstrap inst spec actual out true ∧ spec.chainId = chainId ∧
      verifyEndpoint spec actual out = .ok () := by
  cases e with
  | bootstrap inst' spec actual out loaded =>
      simp only [step] at h'
      split_ifs at h' with hok
      · obtain ⟨-, hverify, rfl⟩ := hok
        simp only [Function.update_apply] at h'
        split_ifs at h' with heq
        · obtain ⟨rfl, rfl⟩ := Prod.mk.inj heq
          exact ⟨spec, actual, out, rfl, rfl, hverify⟩
        · exact absurd h' h
      · exact absurd h' h
  | connect inst' chainId' =>
      simp only [step] at h'
      split_ifs at h'
      · exact absurd h' h
      · exact absurd h' h
  | dies session => exact absurd h' h
  | lead i e =>
      simp only [step] at h'
      split at h'
      · rw [leadStep_hydrated] at h'
        exact absurd h' h
      · exact absurd h' h

end Leadership

open Leadership in
/-- Two tasks of different calls that work on one chain at the same time: one
of them was aborted and has not stopped yet, or its call has lost its session.
Two sweepers, or two sources, are then on different instances. -/
theorem one_leader (events : List Leadership.Event) {i j : Nat} {l m : Lead} {t u : IngestTask}
    (hl : (run step {} events).leads[i]? = some l) (hm : (run step {} events).leads[j]? = some m)
    (hne : i ≠ j) (hchain : l.chainId = m.chainId) (ht : l.Works t) (hu : m.Works u) :
    ((run step {} events).Displaced l t ∨ (run step {} events).Displaced m u) ∧
      (t = u → l.inst ≠ m.inst) := by
  have inv := sound_run events
  constructor
  · by_contra h
    obtain ⟨hlt, hmu⟩ := not_or.mp h
    have hlock := inv.locks_of_works hl ht hlt
    rw [Lead.key, hchain, ← Lead.key, inv.locks_of_works hm hu hmu, Option.some_inj] at hlock
    exact hne (inv.index_eq hl hm hlock.symm)
  · rintro rfl hinst
    have hhas := inv.received i l t hl ht
    rw [Lead.channel, hinst, hchain, ← Lead.channel, inv.received j m t hm hu, Option.some_inj] at hhas
    exact hne (inv.index_eq hl hm hhas.symm)

/-- What `decimals()` of USDC returns. -/
def sixDecimals : List UInt8 := List.replicate 31 0 ++ [6]

/-- The session of the leader ends, and another instance takes over before the
leader has noticed. -/
def takeover : List Leadership.Event :=
  [.bootstrap 0 baseChain 8453 (fun _ => sixDecimals) true, .bootstrap 1 baseChain 8453 (fun _ => sixDecimals) true,
    .connect 0 8453, .connect 1 8453, .lead 0 .tryLock, .lead 0 (.receive .sweeper), .dies 0,
    .lead 1 .tryLock, .lead 1 (.receive .sweeper)]

open Leadership in
theorem one_leader_takeover :
    ∃ l m, (run step {} takeover).leads[0]? = some l ∧ (run step {} takeover).leads[1]? = some m ∧
      l.Works .sweeper ∧ m.Works .sweeper ∧
      ((run step {} takeover).Displaced l .sweeper ∨ (run step {} takeover).Displaced m .sweeper) :=
  ⟨_, _, rfl, rfl, rfl, rfl,
    (one_leader takeover (i := 0) (j := 1) rfl rfl (by decide) rfl (t := .sweeper) (u := .sweeper) rfl rfl).1⟩

open Leadership in
/-- A chain is never wedged: whoever waits for its lock on a living session gets
it, unless a call for the chain (or for one whose id has the same low 40 bits)
was granted it on a session that still lives and has not given it back. -/
theorem lock_free_iff (events : List Leadership.Event) {i : Nat} {l : Lead}
    (hl : (run step {} events).leads[i]? = some l) (hstage : l.stage = .waiting)
    (halive : (run step {} events).alive l.session = true) :
    (∃ l', (run step {} (events ++ [.lead i .tryLock])).leads[i]? = some l' ∧ l'.stage = .leading) ↔
      ∀ m ∈ (run step {} events).leads, m.chainId % 2 ^ 40 = l.chainId % 2 ^ 40 →
        m.stage.holds = true → (run step {} events).alive m.session = false := by
  rw [run_append, run_cons, run_nil, tryLock_leads_iff hl hstage halive, (sound_run events).free_iff]
  simp only [Lead.key, leadershipKey_eq_iff]

open Leadership in
theorem lock_free_iff_refused :
    ¬ ∃ l', (run step {} (takeover.take 5 ++ [.lead 1 .tryLock])).leads[1]? = some l' ∧
      l'.stage = .leading := by
  rw [lock_free_iff (takeover.take 5) (i := 1) rfl rfl rfl]
  decide

open Leadership in
/-- Nobody ingests from an endpoint that was not verified: before any call of
`lead` the instance has seen the endpoint report the configured chain id, and
every token contract of the chain return the configured decimals as one word. -/
theorem leads_verified (events : List Leadership.Event) :
    ∀ l ∈ (run step {} events).leads, ∃ spec out,
      .bootstrap l.inst spec l.chainId out true ∈ events ∧ spec.chainId = l.chainId ∧
        ∀ token ∈ spec.tokens, out token.address = List.replicate 31 0 ++ [token.decimals] := by
  intro l hl
  have hhydrated : (run step {} events).hydrated (l.inst, l.chainId) = true :=
    invariant_run (fun s : Leadership => ∀ l ∈ s.leads, s.hydrated (l.inst, l.chainId) = true)
      (fun s e inv => hydrated_turns (step_turns s e) inv) (by simp) events l hl
  obtain ⟨pre, e, post, rfl, hbefore, hafter⟩ :=
    exists_first (P := fun s : Leadership => s.hydrated (l.inst, l.chainId) = true) (by simp) hhydrated
  obtain ⟨spec, actual, out, rfl, hid, hverify⟩ := step_hydrates hbefore hafter
  obtain ⟨rfl, hdecimals⟩ := verifyEndpoint_ok_iff.mp hverify
  exact ⟨spec, out, by simp [hid], hid, hdecimals⟩

open Leadership in
theorem leads_verified_takeover :
    ∃ l, (run step {} takeover).leads[1]? = some l ∧ ∃ spec out,
      .bootstrap l.inst spec l.chainId out true ∈ takeover ∧ spec.chainId = l.chainId ∧
        ∀ token ∈ spec.tokens, out token.address = List.replicate 31 0 ++ [token.decimals] :=
  ⟨_, rfl, leads_verified takeover _ (List.mem_of_getElem? (i := 1) rfl)⟩

end GumIndexer
