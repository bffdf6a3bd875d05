import GumIndexer.Base.Pool
import GumIndexer.Health
import GumIndexer.Sweeper

/-!
# GumIndexer.Rpc

The RPC client of a chain: `RpcClient::run` in any number of tasks at once.

A call waits for a slot of the throttle, sends its request, and looks at the
class of the answer: it returns, or waits and tries again as long as it has
retries left.  All calls of a client share the throttle and the health of the
chain.  A call may also be dropped by its caller wherever it is.

The client keeps a `log` of what happened, newest first.  `rpc_rate` bounds the
requests that were sent up to any time, `rpc_call_answers` says what a call
returns and after how many requests, and `rpc_down_iff` what the answers, in
the order in which they came in, make of the health.
-/

namespace GumIndexer

open Base

/-! ## Classification -/

/-- `RpcErrorClass::is_retryable`. -/
def RpcErrorClass.isRetryable : RpcErrorClass → Bool
  | .rateLimited | .rateLimitedLong | .transient => true
  | _ => false

/-- `RpcErrorClass` in a `Debug` text. -/
def RpcErrorClass.debug : RpcErrorClass → String
  | .rateLimited => "RateLimited"
  | .rateLimitedLong => "RateLimitedLong"
  | .transient => "Transient"
  | .rangeTooLarge => "RangeTooLarge"
  | .aheadOfHead => "AheadOfHead"
  | .auth => "Auth"
  | .invalid => "Invalid"

/-- `RpcErrorClass::kind`. -/
def RpcErrorClass.kind : RpcErrorClass → String
  | .rateLimited => "rpc_rate_limited"
  | .rateLimitedLong => "rpc_rate_limited_minute"
  | .transient => "rpc_transient"
  | .rangeTooLarge => "rpc_range_too_large"
  | .aheadOfHead => "rpc_node_behind"
  | .auth => "rpc_auth"
  | .invalid => "rpc_invalid_request"

/-- `AHEAD`. -/
def aheadMessages : List String :=
  ["beyond current head", "greater than toblock", "invalid block range", "fromblock is greater",
    "block range is invalid"]

/-- `TOO_LARGE`. -/
def tooLargeMessages : List String :=
  ["limited to a", "block range", "exceeds limit", "exceeds the limit", "too large", "more than 10000",
    "response size", "too many results", "range is too"]

/-- `classify_message`. -/
def classifyMessage (message : String) : Option RpcErrorClass :=
  let m := message.toList.map Char.toLower
  if aheadMessages.any fun p => (after? p.toList m).isSome then some .aheadOfHead
  else if tooLargeMessages.any fun p => (after? p.toList m).isSome then some .rangeTooLarge
  else none

/-- `classify_code`. -/
def classifyCode (code : Int) (message : String) : RpcErrorClass :=
  match classifyMessage message with
  | some errorClass => errorClass
  | none =>
      if code = -32007 ∨ code = -32011 ∨ code = 429 then .rateLimited
      else if code = -32008 then .rateLimitedLong
      else if code = -32005 then .rateLimited
      else if code = -32616 then .rangeTooLarge
      else if -32002 ≤ code ∧ code ≤ -32000 then .transient
      else if (-32603 ≤ code ∧ code ≤ -32600) ∨ code = -32611 ∨ code = -32700 then .invalid
      else .transient

/-- `classify_http`. -/
def classifyHttp (status : Nat) (body : String) : RpcErrorClass :=
  if status = 429 then .rateLimited
  else if status = 401 ∨ status = 403 then .auth
  else if status = 413 then .rangeTooLarge
  else if 500 ≤ status ∧ status ≤ 599 then .transient
  else if status = 408 then .transient
  else (classifyMessage body).getD .invalid

/-- `TransportError`. -/
inductive TransportError
  | errorResp (code : Int) (message : String)
  | http (status : Nat) (body : String)
  /-- Any other `TransportErrorKind`. -/
  | transport
  | nullResp
  | deserError
  | serError
  | unsupportedFeature
  | localUsageError
deriving DecidableEq, Repr

def classify : TransportError → RpcErrorClass
  | .errorResp code message => classifyCode code message
  | .http status body => classifyHttp status body
  | .transport | .nullResp | .deserError => .transient
  | .serError | .unsupportedFeature | .localUsageError => .invalid

/-- `RpcFailure`, as a call returns it. -/
inductive RpcFailure
  | rpc (errorClass : RpcErrorClass) (message : String)
  | timeout
deriving DecidableEq, Repr

/-- `RpcFailure::class`. -/
def RpcFailure.errorClass : RpcFailure → RpcErrorClass
  | .rpc errorClass _ => errorClass
  | .timeout => .transient

/-- `RpcFailure::kind`. -/
def RpcFailure.kind : RpcFailure → String
  | .rpc errorClass _ => errorClass.kind
  | .timeout => "rpc_timeout"

/-- Expected: the caller adapts, and the health of the chain is not concerned. -/
def RpcFailure.IsSignal (f : RpcFailure) : Prop :=
  f.errorClass = .rangeTooLarge ∨ f.errorClass = .aheadOfHead

instance (f : RpcFailure) : Decidable f.IsSignal := inferInstanceAs (Decidable (_ ∨ _))

/-! ## Calls -/

inductive RpcMethod
  | blockNumber
  | chainId
  | getLogs
  | call
deriving DecidableEq, Repr

def RpcMethod.name : RpcMethod → String
  | .blockNumber => "eth_blockNumber"
  | .chainId => "eth_chainId"
  | .getLogs => "eth_getLogs"
  | .call => "eth_call"

inductive RpcValue
  | number (n : Nat)
  | logs (logs : List Log)
  | bytes (out : List UInt8)
deriving DecidableEq, Repr

/-- How an attempt ends; `text` is the text of the error. -/
inductive RpcAnswer
  | ok (value : RpcValue)
  | error (e : TransportError) (text : String)
  | timeout
deriving DecidableEq, Repr

def RpcAnswer.result : RpcAnswer → Except RpcFailure RpcValue
  | .ok value => .ok value
  | .error e text => .error (.rpc (classify e) text)
  | .timeout => .error .timeout

/-- The attempt is worth another. -/
def RpcAnswer.asksAgain (a : RpcAnswer) : Bool :=
  match a.result with
  | .ok _ => false
  | .error f => f.errorClass.isRetryable

structure RpcConfig where
  rpcMaxRetries : Nat
  rpcMaxRps : Nat
  /-- `rpc_timeout` as a `Debug` text. -/
  rpcTimeout : String
  /-- In nanoseconds. -/
  headStallThreshold : Nat

/-- The text of a failure. -/
def RpcFailure.text (cfg : RpcConfig) (method : RpcMethod) : RpcFailure → String
  | .rpc errorClass message => method.name ++ ": " ++ errorClass.debug ++ ": " ++ message
  | .timeout => method.name ++ ": timed out after " ++ cfg.rpcTimeout

/-- `Throttle::new`: the distance of two slots in nanoseconds. -/
def RpcConfig.gap (cfg : RpcConfig) : Nat := 1000000000 / max cfg.rpcMaxRps 1

inductive CallStage
  /-- At `throttle.acquire`. -/
  | queued
  | slotted (at_ : Nat)
  | inFlight
  | waiting (until_ : Nat)
  | returned (result : Except RpcFailure RpcValue)
  | dropped

structure RpcCall where
  method : RpcMethod
  /-- What is left of the backoff. -/
  retries : Nat
  stage : CallStage := .queued

inductive RpcEntry
  | slot (at_ : Nat)
  | sent (call : Nat)
  | answered (call : Nat) (method : RpcMethod) (answer : RpcAnswer) (clock : Nat)
  | noted (e : HealthEvent)

structure RpcClient where
  clock : Nat := 0
  nextSlot : Nat := 0
  health : ChainHealth := {}
  calls : List RpcCall := []
  /-- What happened, newest first. -/
  log : List RpcEntry := []

/-- What an answer tells the health. -/
def RpcAnswer.health (cfg : RpcConfig) (method : RpcMethod) (clock : Nat) (a : RpcAnswer) :
    List HealthEvent :=
  match a.result with
  | .ok (.number n) => if method = .blockNumber then [.rpcOk clock, .head n clock] else [.rpcOk clock]
  | .ok _ => [.rpcOk clock]
  | .error f => if f.IsSignal then [.rpcOk clock] else [.rpcErr f.kind (f.text cfg method)]

/-- Where a call is after an attempt; `delay` is what the backoff draws. -/
def RpcCall.after (c : RpcCall) (clock delay : Nat) (a : RpcAnswer) : RpcCall :=
  match a.result with
  | .ok value => { c with stage := .returned (.ok value) }
  | .error f =>
      if f.errorClass.isRetryable then
        match c.retries with
        | 0 => { c with stage := .returned (.error f) }
        | retries + 1 =>
            let delay := if f.errorClass = .rateLimitedLong then 60000000000 else delay
            { c with retries, stage := .waiting (clock + delay) }
      else { c with stage := .returned (.error f) }

namespace RpcClient

inductive Event
  | elapse (nanos : Nat)
  | call (method : RpcMethod)
  | acquire (call : Nat)
  | send (call : Nat)
  | answer (call : Nat) (answer : RpcAnswer) (delay : Nat)
  | wake (call : Nat)
  | drop (call : Nat)
  /-- Another part of the chain tells the health something. -/
  | note (e : HealthEvent)

variable (cfg : RpcConfig) (s : RpcClient)

def setCall (i : Nat) (c : RpcCall) : RpcClient := { s with calls := s.calls.set i c }

def called (method : RpcMethod) : RpcClient :=
  { s with calls := s.calls ++ [{ method, retries := cfg.rpcMaxRetries }] }

/-- `Throttle::acquire`, up to the sleep. -/
def acquired (i : Nat) (c : RpcCall) : RpcClient :=
  let at_ := max s.nextSlot s.clock
  { s.setCall i { c with stage := .slotted at_ } with
    nextSlot := at_ + cfg.gap
    log := .slot at_ :: s.log }

def sent (i : Nat) (c : RpcCall) : RpcClient :=
  { s.setCall i { c with stage := .inFlight } with log := .sent i :: s.log }

def answered (i : Nat) (c : RpcCall) (a : RpcAnswer) (delay : Nat) : RpcClient :=
  { s.setCall i (c.after s.clock delay a) with
    health := run (ChainHealth.update cfg.headStallThreshold) s.health (a.health cfg c.method s.clock)
    log := .answered i c.method a s.clock :: s.log }

def noted (e : HealthEvent) : RpcClient :=
  { s with health := s.health.update cfg.headStallThreshold e, log := .noted e :: s.log }

/-- An event of one call. -/
def callStep (i : Nat) (c : RpcCall) : Event → RpcClient
  | .acquire _ =>
      match c.stage with
      | .queued => s.acquired cfg i c
      | _ => s
  | .send _ =>
      match c.stage with
      | .slotted at_ => if at_ ≤ s.clock then s.sent i c else s
      | _ => s
  | .answer _ a delay =>
      match c.stage with
      | .inFlight => s.answered cfg i c a delay
      | _ => s
  | .wake _ =>
      match c.stage with
      | .waiting until_ => if until_ ≤ s.clock then s.setCall i { c with stage := .queued } else s
      | _ => s
  | .drop _ =>
      match c.stage with
      | .returned _ => s
      | _ => s.setCall i { c with stage := .dropped }
  | _ => s

def step (s : RpcClient) (e : Event) : RpcClient :=
  match e with
  | .elapse nanos => { s with clock := s.clock + nanos }
  | .call method => s.called cfg method
  | .note note => if note.answer? = none then s.noted cfg note else s
  | .acquire i | .send i | .answer i _ _ | .wake i | .drop i =>
      match s.calls[i]? with
      | some c => s.callStep cfg i c e
      | none => s

/-! ## What an event may do -/

inductive Turns (s : RpcClient) : RpcClient → Prop
  | stay : Turns s s
  | elapse (nanos : Nat) : Turns s { s with clock := s.clock + nanos }
  | call (method : RpcMethod) : Turns s (s.called cfg method)
  | acquire (i : Nat) (c : RpcCall) (call : s.calls[i]? = some c) (stage : c.stage = .queued) :
      Turns s (s.acquired cfg i c)
  | send (i : Nat) (c : RpcCall) (at_ : Nat) (call : s.calls[i]? = some c)
      (stage : c.stage = .slotted at_) (due : at_ ≤ s.clock) : Turns s (s.sent i c)
  | answer (i : Nat) (c : RpcCall) (a : RpcAnswer) (delay : Nat) (call : s.calls[i]? = some c)
      (stage : c.stage = .inFlight) : Turns s (s.answered cfg i c a delay)
  /-- A call is woken or dropped. -/
  | move (i : Nat) (c : RpcCall) (stage : CallStage) (call : s.calls[i]? = some c)
      (before : ∀ r, c.stage ≠ .returned r) (after : stage = .queued ∨ stage = .dropped) :
      Turns s (s.setCall i { c with stage })
  | note (e : HealthEvent) (other : e.answer? = none) : Turns s (s.noted cfg e)

variable {cfg s}

/-- An event of a call is one of the turns. -/
theorem callStep_turns {i : Nat} {c : RpcCall} (call : s.calls[i]? = some c) (e : Event) :
    Turns cfg s (s.callStep cfg i c e) := by
  cases e with
  | acquire _ =>
      simp only [callStep]
      split
      · exact .acquire i c call ‹_›
      · exact .stay
  | send _ =>
      simp only [callStep]
      split
      · split_ifs with hdue
        · exact .send i c _ call ‹_› hdue
        · exact .stay
      · exact .stay
  | answer _ a delay =>
      simp only [callStep]
      split
      · exact .answer i c a delay call ‹_›
      · exact .stay
  | wake _ =>
      simp only [callStep]
      split
      · next hstage =>
          split_ifs
          · exact .move i c _ call (by simp [hstage]) (.inl rfl)
          · exact .stay
      · exact .stay
  | drop _ =>
      simp only [callStep]
      split
      · exact .stay
      · next hstage => exact .move i c _ call hstage (.inr rfl)
  | _ => exact .stay

/-- **What an event can do** to the client; every invariant below is proved turn
by turn. -/
theorem step_turns (s : RpcClient) (e : Event) : Turns cfg s (s.step cfg e) := by
  cases e with
  | elapse nanos => exact .elapse nanos
  | call method => exact .call method
  | note e =>
      simp only [step]
      split_ifs with hother
      · exact .note e hother
      · exact .stay
  | _ =>
      simp only [step]
      split
      · exact callStep_turns ‹_› _
      · exact .stay

/-! ## The throttle -/

def slots (s : RpcClient) : List Nat :=
  s.log.filterMap fun
    | .slot at_ => some at_
    | _ => none

/-- The requests that were sent. -/
def requests (s : RpcClient) : Nat :=
  s.log.countP fun
    | .sent _ => true
    | _ => false

/-- The call has a slot up to `t` that it has not used. -/
def hasSlot (t : Nat) (c : RpcCall) : Bool :=
  match c.stage with
  | .slotted at_ => at_ ≤ t
  | _ => false

/-- After an attempt a call has no slot, whatever the answer was. -/
theorem hasSlot_after (t : Nat) (c : RpcCall) (clock delay : Nat) (a : RpcAnswer) :
    hasSlot t (c.after clock delay a) = false := by
  unfold RpcCall.after
  split
  · rfl
  · split
    · split <;> rfl
    · rfl

structure Throttled (cfg : RpcConfig) (s : RpcClient) : Prop where
  spaced : Spaced cfg.gap s.slots.reverse
  next : ∀ t ∈ s.slots, t + cfg.gap ≤ s.nextSlot
  /-- Every request had a slot of its own, at the latest when it was sent. -/
  used : ∀ t, s.clock ≤ t → s.requests + s.calls.countP (hasSlot t) ≤ s.slots.countP (· ≤ t)

theorem Throttled.init : Throttled cfg {} := ⟨Spaced.nil, by simp [slots], by simp [requests]⟩

/-- The slot that `acquire` hands out is a gap after the last one. -/
theorem Throttled.acquired (inv : Throttled cfg s) {i : Nat} {c : RpcCall} (call : s.calls[i]? = some c)
    (stage : c.stage = .queued) : Throttled cfg (s.acquired cfg i c) := by
  have hslots : (s.acquired cfg i c).slots = max s.nextSlot s.clock :: s.slots := rfl
  have hle : ∀ t ∈ s.slots, t + cfg.gap ≤ max s.nextSlot s.clock :=
    fun t ht => le_trans (inv.next t ht) (Nat.le_max_left ..)
  refine ⟨?_, ?_, fun t ht => ?_⟩
  · rw [hslots, List.reverse_cons]
    exact inv.spaced.concat fun t ht => hle t (List.mem_reverse.mp ht)
  · intro t ht
    rw [hslots] at ht
    rcases List.mem_cons.mp ht with rfl | ht
    · exact le_refl _
    · exact le_trans (hle t ht) (Nat.le_add_right ..)
  · have hcount := countP_set (hasSlot t) call { c with stage := .slotted (max s.nextSlot s.clock) }
    have hbefore : hasSlot t c = false := by simp [hasSlot, stage]
    have hused := inv.used t ht
    rw [hslots, List.countP_cons]
    change s.requests + (s.calls.set i _).countP (hasSlot t) ≤ _
    rw [hbefore] at hcount
    by_cases hslot : max s.nextSlot s.clock ≤ t
    · simp only [hasSlot, hslot, decide_true, Bool.toNat_true, Bool.toNat_false] at hcount ⊢
      simp only [if_true]
      omega
    · simp only [hasSlot, hslot, decide_false, Bool.toNat_false] at hcount ⊢
      simp only [Bool.false_eq_true, if_false]
      omega

/-- Only `acquire` hands out slots, and only a call with a slot sends. -/
theorem Throttled.turns {s' : RpcClient} (inv : Throttled cfg s) (h : Turns cfg s s') :
    Throttled cfg s' := by
  cases h with
  | stay => exact inv
  | elapse nanos => exact ⟨inv.spaced, inv.next, fun t ht => inv.used t (le_trans (Nat.le_add_right ..) ht)⟩
  | call method =>
      refine ⟨inv.spaced, inv.next, fun t ht => ?_⟩
      have hnew : [({ method, retries := cfg.rpcMaxRetries } : RpcCall)].countP (hasSlot t) = 0 := rfl
      simp only [called, List.countP_append, hnew]
      exact inv.used t ht
  | acquire i c call stage => exact inv.acquired call stage
  | send i c at_ call stage due =>
      refine ⟨inv.spaced, inv.next, fun t ht => ?_⟩
      have hcount := countP_set (hasSlot t) call { c with stage := .inFlight }
      have hbefore : hasSlot t c = true := by
        simpa [hasSlot, stage] using le_trans due ht
      have hafter : hasSlot t { c with stage := .inFlight } = false := rfl
      have hused := inv.used t ht
      have hrequests : (s.sent i c).requests = s.requests + 1 := List.countP_cons_of_pos rfl
      rw [hbefore, hafter] at hcount
      simp only [Bool.toNat_true, Bool.toNat_false] at hcount
      rw [hrequests]
      change s.requests + 1 + (s.calls.set i _).countP (hasSlot t) ≤ s.slots.countP _
      omega
  | answer i c a delay call stage =>
      refine ⟨inv.spaced, inv.next, fun t ht => ?_⟩
      have hcount := countP_set (hasSlot t) call (c.after s.clock delay a)
      have hbefore : hasSlot t c = false := by simp [hasSlot, stage]
      have hused := inv.used t ht
      rw [hbefore, hasSlot_after] at hcount
      change s.requests + (s.calls.set i _).countP (hasSlot t) ≤ s.slots.countP _
      omega
  | move i c stage call _ after =>
      refine ⟨inv.spaced, inv.next, fun t ht => ?_⟩
      have hcount := countP_set (hasSlot t) call { c with stage }
      have hafter : hasSlot t { c with stage } = false := by
        rcases after with rfl | rfl <;> rfl
      have hused := inv.used t ht
      rw [hafter] at hcount
      simp only [Bool.toNat_false] at hcount
      change s.requests + (s.calls.set i _).countP (hasSlot t) ≤ s.slots.countP _
      omega
  | note e _ => exact ⟨inv.spaced, inv.next, inv.used⟩

/-! ## The answers to a call -/

/-- The answers that a call got, newest first. -/
def answersOf (i : Nat) (log : List RpcEntry) : List RpcAnswer :=
  log.filterMap fun
    | .answered j _ a _ => if j = i then some a else none
    | _ => none

/-- What the answers to a call so far made of it. -/
def Tried (cfg : RpcConfig) (c : RpcCall) (answers : List RpcAnswer) : Prop :=
  match c.stage with
  | .returned r =>
      ∃ last earlier, answers = last :: earlier ∧ last.result = r ∧
        (∀ a ∈ earlier, a.asksAgain = true) ∧ earlier.length + c.retries = cfg.rpcMaxRetries ∧
        (last.asksAgain = true → c.retries = 0)
  | _ => (∀ a ∈ answers, a.asksAgain = true) ∧ answers.length + c.retries = cfg.rpcMaxRetries

/-- Of a call that goes on, all answers asked for another attempt, and each took
a retry. -/
theorem tried_iff {c : RpcCall} {answers : List RpcAnswer} (h : ∀ r, c.stage ≠ .returned r) :
    Tried cfg c answers ↔
      (∀ a ∈ answers, a.asksAgain = true) ∧ answers.length + c.retries = cfg.rpcMaxRetries := by
  unfold Tried
  split
  · next hstage => exact absurd hstage (h _)
  · exact Iff.rfl

/-- An answer ends the call, or takes one of its retries. -/
theorem Tried.after {c : RpcCall} {answers : List RpcAnswer} (h : Tried cfg c answers)
    (stage : c.stage = .inFlight) (clock delay : Nat) (a : RpcAnswer) :
    Tried cfg (c.after clock delay a) (a :: answers) := by
  obtain ⟨hagain, hcount⟩ := (tried_iff (by simp [stage])).mp h
  have hlast : ∀ r, a.result = r → (a.asksAgain = true → c.retries = 0) →
      Tried cfg { c with stage := .returned r } (a :: answers) :=
    fun r hr hzero => ⟨a, answers, rfl, hr, hagain, hcount, hzero⟩
  unfold RpcCall.after
  cases hr : a.result with
  | ok value => exact hlast _ hr (by simp [RpcAnswer.asksAgain, hr])
  | error f =>
      have hasks : a.asksAgain = f.errorClass.isRetryable := by simp [RpcAnswer.asksAgain, hr]
      by_cases hretry : f.errorClass.isRetryable = true
      · simp only [hretry, if_true]
        cases hleft : c.retries with
        | zero =>
            rw [hleft] at hcount
            exact ⟨a, answers, rfl, hr, hagain, hcount, fun _ => rfl⟩
        | succ retries =>
            refine (tried_iff (by simp)).mpr ⟨?_, ?_⟩
            · rintro b hb
              rcases List.mem_cons.mp hb with rfl | hb
              · rw [hasks, hretry]
              · exact hagain b hb
            · rw [hleft] at hcount
              simp only [List.length_cons]
              omega
      · simp only [hretry]
        exact hlast _ hr fun hyes => absurd (hasks ▸ hyes) hretry

structure Answered (cfg : RpcConfig) (s : RpcClient) : Prop where
  tried : ∀ (i : Nat) (c : RpcCall), s.calls[i]? = some c → Tried cfg c (answersOf i s.log)
  known : ∀ i, s.calls.length ≤ i → answersOf i s.log = []

theorem Answered.init : Answered cfg {} := ⟨by simp, fun _ _ => rfl⟩

/-- A call moves on without an answer. -/
theorem Answered.set {s' : RpcClient} (inv : Answered cfg s) {i : Nat} {c c' : RpcCall}
    (call : s.calls[i]? = some c) (calls : s'.calls = s.calls.set i c')
    (before : ∀ r, c.stage ≠ .returned r) (after : ∀ r, c'.stage ≠ .returned r)
    (retries : c'.retries = c.retries) (quiet : ∀ j, answersOf j s'.log = answersOf j s.log) :
    Answered cfg s' := by
  refine ⟨fun j d hd => ?_, fun j hj => ?_⟩
  · rw [quiet]
    rw [calls] at hd
    rcases get?_set_cases hd with ⟨rfl, rfl⟩ | ⟨-, hd⟩
    · rw [tried_iff after, retries, ← tried_iff before]
      exact inv.tried _ c call
    · exact inv.tried j d hd
  · rw [quiet]
    rw [calls, List.length_set] at hj
    exact inv.known j hj

/-- Every turn keeps the calls in step with their answers. -/
theorem Answered.turns {s' : RpcClient} (inv : Answered cfg s) (h : Turns cfg s s') :
    Answered cfg s' := by
  cases h with
  | stay => exact inv
  | elapse nanos => exact ⟨inv.tried, inv.known⟩
  | call method =>
      refine ⟨fun i c hc => ?_, fun i hi => inv.known i ?_⟩
      · rcases get?_concat_cases hc with ⟨rfl, rfl⟩ | hc
        · refine (tried_iff (by simp)).mpr ?_
          change (∀ a ∈ answersOf _ s.log, _) ∧ (answersOf _ s.log).length + _ = _
          rw [inv.known _ (le_refl _)]
          simp
        · exact inv.tried i c hc
      · simp only [called, List.length_append, List.length_singleton] at hi
        omega
  | acquire i c call stage =>
      exact inv.set call rfl (by simp [stage]) (by simp) rfl fun j => rfl
  | send i c at_ call stage due =>
      exact inv.set call rfl (by simp [stage]) (by simp) rfl fun j => rfl
  | answer i c a delay call stage =>
      have hi : i < s.calls.length := (List.getElem?_eq_some_iff.mp call).1
      refine ⟨fun j d hd => ?_, fun j hj => ?_⟩
      · rcases get?_set_cases hd with ⟨rfl, rfl⟩ | ⟨hne, hd⟩
        · have hlog : answersOf j (s.answered cfg j c a delay).log = a :: answersOf j s.log := by
            simp [answersOf, RpcClient.answered]
          rw [hlog]
          exact (inv.tried j c call).after stage s.clock delay a
        · have hlog : answersOf j (s.answered cfg i c a delay).log = answersOf j s.log := by
            simp [answersOf, RpcClient.answered, Ne.symm hne]
          rw [hlog]
          exact inv.tried j d hd
      · simp only [RpcClient.answered, RpcClient.setCall, List.length_set] at hj
        have hlog : answersOf j (s.answered cfg i c a delay).log = answersOf j s.log := by
          have hne : i ≠ j := by omega
          simp [answersOf, RpcClient.answered, hne]
        rw [hlog]
        exact inv.known j hj
  | move i c stage call before after =>
      refine inv.set call rfl before ?_ rfl fun j => rfl
      rcases after with rfl | rfl <;> simp
  | note e _ => exact ⟨inv.tried, inv.known⟩

/-! ## The health of the chain -/

/-- What the health was told, newest first. -/
def told (cfg : RpcConfig) : List RpcEntry → List HealthEvent
  | [] => []
  | .answered _ method a clock :: log => (a.health cfg method clock).reverse ++ told cfg log
  | .noted e :: log => e :: told cfg log
  | _ :: log => told cfg log

/-- The answer is a fault of the endpoint. -/
def isFault (a : RpcAnswer) : Bool :=
  match a.result with
  | .ok _ => false
  | .error f => !decide f.IsSignal

/-- The answers to all calls, newest first, and whether they were faults. -/
def faults (log : List RpcEntry) : List Bool :=
  log.filterMap fun
    | .answered _ _ a _ => some (isFault a)
    | _ => none

/-- An answer is reported to the health once: as a fault, or as a success. -/
theorem answers_health (method : RpcMethod) (clock : Nat) (a : RpcAnswer) :
    (a.health cfg method clock).reverse.filterMap HealthEvent.answer? = [isFault a] := by
  unfold RpcAnswer.health isFault
  cases a.result with
  | ok value =>
      cases value with
      | number n =>
          simp only
          split_ifs <;> rfl
      | _ => rfl
  | error f => by_cases h : f.IsSignal <;> simp [h, HealthEvent.answer?]

/-- What the health was told about answers is what the answers were. -/
theorem answers_told (cfg : RpcConfig) (log : List RpcEntry) (others : ∀ e, .noted e ∈ log → e.answer? = none) :
    (told cfg log).filterMap HealthEvent.answer? = faults log := by
  induction log with
  | nil => rfl
  | cons entry log ih =>
      have hrest := ih fun e he => others e (List.mem_cons_of_mem _ he)
      cases entry with
      | answered i method a clock =>
          rw [told, List.filterMap_append, answers_health, hrest]
          rfl
      | noted e =>
          rw [told, List.filterMap_cons_none (others e List.mem_cons_self), hrest]
          rfl
      | _ => exact hrest

/-- The health is that of the answers and notes, in the order they came in. -/
structure Informed (cfg : RpcConfig) (s : RpcClient) : Prop where
  others : ∀ e, .noted e ∈ s.log → e.answer? = none
  reflects : s.health.Reflects cfg.headStallThreshold (told cfg s.log)

theorem Informed.init : Informed cfg {} := ⟨by simp, ChainHealth.Reflects.init⟩

/-- Every turn tells the health what it logs. -/
theorem Informed.turns {s' : RpcClient} (inv : Informed cfg s) (h : Turns cfg s s') :
    Informed cfg s' := by
  have hothers : ∀ entry, (∀ e, entry = .noted e → e.answer? = none) →
      ∀ e, .noted e ∈ entry :: s.log → e.answer? = none := by
    intro entry hentry e he
    rcases List.mem_cons.mp he with heq | he
    · exact hentry e heq.symm
    · exact inv.others e he
  cases h with
  | stay => exact inv
  | elapse nanos => exact ⟨inv.others, inv.reflects⟩
  | call method => exact ⟨inv.others, inv.reflects⟩
  | acquire i c _ _ => exact ⟨hothers _ (by simp), inv.reflects⟩
  | send i c at_ _ _ _ => exact ⟨hothers _ (by simp), inv.reflects⟩
  | answer i c a delay _ _ => exact ⟨hothers _ (by simp), inv.reflects.run _⟩
  | move i c stage _ _ _ => exact ⟨inv.others, inv.reflects⟩
  | note e other => exact ⟨hothers _ (by simpa using other), inv.reflects.update e⟩

end RpcClient

/-! ## Runs -/

section Runs

variable (cfg : RpcConfig) (events : List RpcClient.Event)

open RpcClient

/-- However many calls there are and however often they try: the slots of the
throttle keep their distance, and up to any time at most one request more was
sent than gaps have passed. -/
theorem rpc_rate :
    Spaced cfg.gap (run (step cfg) {} events).slots.reverse ∧
      (run (step cfg) {} events).requests * cfg.gap ≤ (run (step cfg) {} events).clock + cfg.gap := by
  have inv : Throttled cfg (run (step cfg) {} events) :=
    invariant_run (Throttled cfg) (fun s e inv => inv.turns (step_turns s e)) Throttled.init events
  refine ⟨inv.spaced, ?_⟩
  generalize run (step cfg) {} events = s at inv ⊢
  -- the requests are no more than the slots that lie in the past
  have hused := inv.used s.clock (le_refl _)
  have hpast : Spaced cfg.gap (s.slots.reverse.filter (· ≤ s.clock)) :=
    inv.spaced.sublist List.filter_sublist
  have hlength : _ ≤ s.clock + cfg.gap :=
    hpast.length_mul_le (a := 0) (fun t _ => Nat.zero_le t) fun t ht => by
      simpa using (List.mem_filter.mp ht).2
  rw [← List.countP_eq_length_filter, List.countP_reverse] at hlength
  calc s.requests * cfg.gap
      ≤ s.slots.countP (· ≤ s.clock) * cfg.gap := Nat.mul_le_mul_right _ (by omega)
    _ ≤ s.clock + cfg.gap := hlength

/-- A call gets at most one answer more than it has retries.  It returns what
the last of them says; those before asked for another attempt, and if the last
one does too, there were no retries left. -/
theorem rpc_call_answers {i : Nat} {c : RpcCall} (hc : (run (step cfg) {} events).calls[i]? = some c) :
    (answersOf i (run (step cfg) {} events).log).length ≤ cfg.rpcMaxRetries + 1 ∧
    ∀ r, c.stage = .returned r →
      ∃ last earlier, answersOf i (run (step cfg) {} events).log = last :: earlier ∧ last.result = r ∧
        (∀ a ∈ earlier, a.asksAgain = true) ∧
        (last.asksAgain = true → earlier.length = cfg.rpcMaxRetries) := by
  have inv : Answered cfg (run (step cfg) {} events) :=
    invariant_run (Answered cfg) (fun s e inv => inv.turns (step_turns s e)) Answered.init events
  have htried := inv.tried i c hc
  by_cases hreturned : ∃ r, c.stage = .returned r
  · obtain ⟨r, hr⟩ := hreturned
    simp only [Tried, hr] at htried
    obtain ⟨last, earlier, hanswers, hlast, hagain, hcount, hzero⟩ := htried
    rw [hanswers]
    refine ⟨by rw [List.length_cons]; omega, fun r' hr' => ⟨last, earlier, rfl, ?_, hagain, fun h => ?_⟩⟩
    · rw [hlast]
      simpa [hr] using hr'
    · have := hzero h
      omega
  · obtain ⟨-, hcount⟩ := (tried_iff fun r hr => hreturned ⟨r, hr⟩).mp htried
    exact ⟨by omega, fun r hr => absurd ⟨r, hr⟩ hreturned⟩

/-- The chain is down if and only if the last five answers of the endpoint, to
whichever calls, were faults (a range that is too large or ahead of the node is
none), or the head it reported has stalled. -/
theorem rpc_down_iff :
    (run (step cfg) {} events).health.status = .down ↔
      5 ≤ ((faults (run (step cfg) {} events).log).takeWhile id).length ∨
        StalledBy cfg.headStallThreshold (told cfg (run (step cfg) {} events).log) := by
  have inv : Informed cfg (run (step cfg) {} events) :=
    invariant_run (Informed cfg) (fun s e inv => inv.turns (step_turns s e)) Informed.init events
  rw [← answers_told cfg _ inv.others, ← failuresOf]
  exact inv.reflects.down_iff

end Runs

/-- A client with one retry. -/
def twoTries : RpcConfig where
  rpcMaxRetries := 1
  rpcMaxRps := 50
  rpcTimeout := "10s"
  headStallThreshold := 60000000000

def twoTimeouts : List RpcClient.Event :=
  [.call .getLogs, .acquire 0, .send 0, .answer 0 .timeout 200000000, .elapse 200000000, .wake 0,
    .acquire 0, .send 0, .answer 0 .timeout 400000000]

open RpcClient in
/-- With one retry, the second timeout is what the call returns. -/
theorem rpc_call_answers_timeout :
    ∃ last earlier, answersOf 0 (run (step twoTries) {} twoTimeouts).log = last :: earlier ∧
      last.result = .error .timeout ∧ earlier.length = 1 := by
  obtain ⟨last, earlier, hanswers, hlast, -, hfull⟩ :=
    (rpc_call_answers twoTries twoTimeouts (i := 0) rfl).2 (.error .timeout) rfl
  refine ⟨last, earlier, hanswers, hlast, hfull ?_⟩
  rw [RpcAnswer.asksAgain, hlast]
  rfl

end GumIndexer
