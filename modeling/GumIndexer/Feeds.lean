import GumIndexer.Base.Timeline
import GumIndexer.Config
import GumIndexer.Push
import GumIndexer.Sweeper

/-!
# GumIndexer.Feeds

Where the pending path gets its logs from: one of three feeds, and which.

`ws_targeted` subscribes to the recipients of the cache, `ws_firehose` to all
transfers, and `poll` asks for the logs since it last found some, also while WSS
is down.  In mode `auto` the source changes from the first to one of the others
with the size of the watchlist.

* `mode_large_iff` -- the mode depends on where the watchlist last was outside
  of the band between 80% of `ws_targeted_max` and `ws_targeted_max`;
* `targeted_hears` -- a targeted session hears every log that the firehose would
  match, but for recipients that it is still being told of;
* `poll_hands_once` -- the poller hands on each log of the blocks it has seen,
  once and in order, whichever nodes answer it, if none of these blocks is
  replaced.
-/

namespace GumIndexer

open Base

/-! ## The mode -/

inductive Mode
  | targeted
  | firehose
  | poll
deriving DecidableEq, Repr

/-- `from_cfg`. -/
def fromCfg : IngestMode → Mode
  | .wsTargeted | .auto => .targeted
  | .wsFirehose => .firehose
  | .poll => .poll

/-- What the source reads of the configuration of a chain that `Config::validate`
has accepted. -/
structure SourceConfig where
  ingestMode : IngestMode
  largeScaleMode : IngestMode
  wsTargetedMax : Nat
  large : largeScaleMode = .wsFirehose ∨ largeScaleMode = .poll

/-- `desired_mode`, with the number of watches in the cache. -/
def desiredMode (cfg : SourceConfig) (watches : Nat) (current : Option Mode) : Mode :=
  if cfg.ingestMode ≠ .auto then fromCfg cfg.ingestMode
  else
    let large := fromCfg cfg.largeScaleMode
    if current = some large ∧ large ≠ .targeted then
      if watches < cfg.wsTargetedMax * 8 / 10 then .targeted else large
    else if watches > cfg.wsTargetedMax then large
    else .targeted

/-- One turn of the loop of `run`; a chain without watches is parked. -/
def nextMode (cfg : SourceConfig) (current : Option Mode) (watches : Nat) : Option Mode :=
  if watches = 0 then none else some (desiredMode cfg watches current)

section Modes

variable {cfg : SourceConfig}

/-- Large scale is never targeted. -/
theorem fromCfg_large_ne (cfg : SourceConfig) : fromCfg cfg.largeScaleMode ≠ .targeted := by
  rcases cfg.large with h | h <;> rw [h] <;> decide

/-- The large-scale mode is entered above the maximum and left below 80% of
it. -/
theorem nextMode_large_iff (auto : cfg.ingestMode = .auto) (current : Option Mode) (watches : Nat) :
    nextMode cfg current watches = some (fromCfg cfg.largeScaleMode) ↔
      watches ≠ 0 ∧ (cfg.wsTargetedMax < watches ∨
        current = some (fromCfg cfg.largeScaleMode) ∧ cfg.wsTargetedMax * 8 / 10 ≤ watches) := by
  have hne := fromCfg_large_ne cfg
  unfold nextMode desiredMode
  by_cases hzero : watches = 0
  · simp [hzero]
  · by_cases hcurrent : current = some (fromCfg cfg.largeScaleMode)
    · by_cases hfew : watches < cfg.wsTargetedMax * 8 / 10
      · have hmax : ¬ cfg.wsTargetedMax < watches := by omega
        simp [hzero, auto, hcurrent, hne, hne.symm, hfew, hmax]
      · simp [hzero, auto, hcurrent, hne, hfew, Nat.le_of_not_lt hfew]
    · by_cases hmany : cfg.wsTargetedMax < watches
      · simp [hzero, auto, hcurrent, hmany]
      · simp [hzero, auto, hcurrent, hmany, hne.symm]

/-- **The hysteresis**: the large mode is in force exactly if a count went over
the limit, or it was in force, and no later count fell below four fifths. -/
theorem run_nextMode_large_iff (auto : cfg.ingestMode = .auto) (counts : List Nat) (current : Option Mode) :
    run (nextMode cfg) current counts = some (fromCfg cfg.largeScaleMode) ↔
      (current = some (fromCfg cfg.largeScaleMode) ∧
        ∀ v ∈ counts, v ≠ 0 ∧ cfg.wsTargetedMax * 8 / 10 ≤ v) ∨
      ∃ pre w post, counts = pre ++ w :: post ∧ cfg.wsTargetedMax < w ∧
        ∀ v ∈ post, v ≠ 0 ∧ cfg.wsTargetedMax * 8 / 10 ≤ v := by
  induction counts generalizing current with
  | nil => simp
  | cons count counts ih =>
      rw [run_cons, ih, nextMode_large_iff auto]
      constructor
      · rintro (⟨⟨hzero, hmany | ⟨hcurrent, hkept⟩⟩, hall⟩ | ⟨pre, w, post, rfl, hw, hall⟩)
        · exact .inr ⟨[], count, counts, rfl, hmany, hall⟩
        · refine .inl ⟨hcurrent, fun v hv => ?_⟩
          rcases List.mem_cons.mp hv with rfl | hv
          · exact ⟨hzero, hkept⟩
          · exact hall v hv
        · exact .inr ⟨count :: pre, w, post, rfl, hw, hall⟩
      · rintro (⟨hcurrent, hall⟩ | ⟨pre, w, post, heq, hw, hall⟩)
        · have hcount := hall count List.mem_cons_self
          exact .inl ⟨⟨hcount.1, .inr ⟨hcurrent, hcount.2⟩⟩,
            fun v hv => hall v (List.mem_cons_of_mem _ hv)⟩
        · cases pre with
          | nil =>
              obtain ⟨rfl, rfl⟩ := List.cons.inj heq
              exact .inl ⟨⟨by omega, .inl hw⟩, hall⟩
          | cons c pre =>
              obtain ⟨rfl, rfl⟩ := List.cons.inj heq
              exact .inr ⟨pre, w, post, rfl, hw, hall⟩

end Modes

/-- **No flapping.**  The source is in the large-scale mode if and only if the
watchlist was above the maximum once, and neither empty nor below 80% of the
maximum since. -/
theorem mode_large_iff (cfg : SourceConfig) (auto : cfg.ingestMode = .auto) (counts : List Nat) :
    run (nextMode cfg) none counts = some (fromCfg cfg.largeScaleMode) ↔
      ∃ pre w post, counts = pre ++ w :: post ∧ cfg.wsTargetedMax < w ∧
        ∀ v ∈ post, v ≠ 0 ∧ cfg.wsTargetedMax * 8 / 10 ≤ v := by
  rw [run_nextMode_large_iff auto]
  simp

theorem mode_large_iff_hovering :
    run (nextMode ⟨.auto, .wsFirehose, 500, .inl rfl⟩) none [499, 501, 420, 500] = some .firehose :=
  (mode_large_iff ⟨.auto, .wsFirehose, 500, .inl rfl⟩ rfl [499, 501, 420, 500]).mpr
    ⟨[499], 501, [420, 500], rfl, by decide, by decide⟩

/-! ## What a subscription hears -/

/-- The filter of `eth_subscribe`; an empty list admits all. -/
structure Subscription where
  address : List Address
  eventSignature : B256
  topic2 : List B256 := []

def Subscription.Admits (f : Subscription) (l : Log) : Prop :=
  (f.address = [] ∨ l.address ∈ f.address) ∧ l.topics[0]? = some f.eventSignature ∧
    (f.topic2 = [] ∨ ∃ t ∈ l.topics[2]?, t ∈ f.topic2)

/-- The filter in `Session::subscribe`. -/
def subscription (chain : ChainSpec) (recipients : Option (List Address)) : Subscription where
  address := chain.logAddresses
  eventSignature := TRANSFER_TOPIC
  topic2 := (recipients.getD []).map intoWord

section Hearing

variable {chain : ChainSpec} {cache : WatchCache} {log : Log} {m : MatchedTransfer}

/-- A log that is matched is admitted by every bucket with its recipient, and by
the firehose. -/
theorem admits_of_matched (h : matchLog chain cache log = .ok m) :
    (subscription chain none).Admits log ∧
      ∀ bucket, m.dst ∈ bucket → log.Encoded → (subscription chain (some bucket)).Admits log := by
  have hmatch : (matchLog chain cache log).toOption = some m := by rw [h]; rfl
  rw [matchLog_toOption] at hmatch
  obtain ⟨p, hp, hm⟩ := Option.bind_eq_some_iff.mp hmatch
  obtain ⟨watch, -, -, rfl⟩ := Payment.match?_eq_some_iff.mp hm
  obtain ⟨src, dst, htopics, hdst, htoken, -⟩ := payment?_spec hp
  obtain ⟨hmem, haddress⟩ := ChainSpec.tokenByLogAddress_eq_some_iff.mp htoken
  have hemitter : log.address ∈ chain.logAddresses := by
    rw [← haddress]
    exact List.mem_map_of_mem hmem
  have htransfer : log.topics[0]? = some TRANSFER_TOPIC := by rw [htopics]; rfl
  have hrecipient : log.topics[2]? = some dst := by rw [htopics]; rfl
  refine ⟨⟨.inr hemitter, htransfer, .inl rfl⟩, fun bucket hbucket hencoded => ?_⟩
  refine ⟨.inr hemitter, htransfer, .inr ⟨dst, hrecipient, ?_⟩⟩
  rw [hencoded dst hrecipient, ← hdst]
  exact List.mem_map_of_mem hbucket

/-- The cache has the watch that a log is matched with. -/
theorem cached_of_matched (h : matchLog chain cache log = .ok m) :
    cache.get ⟨m.tokenIdx, m.dst⟩ = some m.watch := by
  have hmatch : (matchLog chain cache log).toOption = some m := by rw [h]; rfl
  rw [matchLog_toOption] at hmatch
  obtain ⟨p, -, hm⟩ := Option.bind_eq_some_iff.mp hmatch
  obtain ⟨watch, hget, -, rfl⟩ := Payment.match?_eq_some_iff.mp hm
  exact hget

end Hearing

/-- The session is about to be told of the recipient of a watch, or is
subscribing to it. -/
def Runtime.Awaits (r : Runtime) (s : Session) (key : WatchKey) : Prop :=
  key.address ∈ s.pendingNew ∨ .added key.address ∈ r.channel ∨ .added key.address ∈ r.sending ∨
    r.Discovered key ∨ key.address ∈ r.link.adding

instance (r : Runtime) (s : Session) (key : WatchKey) : Decidable (r.Awaits s key) :=
  inferInstanceAs (Decidable (_ ∨ _ ∨ _ ∨ _ ∨ _))

/-- **Targeted hears what the firehose hears.**  Whatever registrations, sweeps,
messages and rebuilds came before, as long as the sweeps that failed left nothing
behind: a log that `match_log` accepts is admitted by the firehose, and by a
bucket of the live session, or the session is about to subscribe to its
recipient. -/
theorem targeted_hears (chain : ChainSpec) (size : Nat) (steps : List RuntimeStep)
    (spares : Along (runtimeStep chain size) (fun r i => i.Spares r) {} steps) {s : Session}
    (live : s ∈ (run (runtimeStep chain size) {} steps).link.session?) {log : Log}
    {m : MatchedTransfer}
    (matched : matchLog chain (run (runtimeStep chain size) {} steps).cache log = .ok m)
    (encoded : log.Encoded) :
    (subscription chain none).Admits log ∧
      ((∃ bucket ∈ s.buckets, (subscription chain (some bucket)).Admits log) ∨
        (run (runtimeStep chain size) {} steps).Awaits s ⟨m.tokenIdx, m.dst⟩) := by
  obtain ⟨hfirehose, hbuckets⟩ := admits_of_matched matched
  refine ⟨hfirehose, ?_⟩
  rcases (tracks_run spares).reported live (cached_of_matched matched) with (hsub | hsent) | htold
  · obtain ⟨bucket, hbucket, hmem⟩ := hsub
    exact .inl ⟨bucket, hbucket, hbuckets bucket hmem encoded⟩
  · unfold Runtime.Awaits
    exact .inr (by tauto)
  · exact .inr (.inr (.inr (.inr htold)))

/-- A session with one recipient. -/
def oneRecipient : List RuntimeStep :=
  [.hydrate ⟨0, 9⟩ ⟨1, 1, 101⟩, .hydrated, .connect, .build, .answered]

theorem targeted_hears_payment :
    ∃ bucket ∈ [[9]], (subscription baseChain (some bucket)).Admits (transferLog 7 9 40 103 0) := by
  have hears := (targeted_hears baseChain 64 oneRecipient (by decide +kernel)
    (s := ⟨[], some [9], [], 0⟩) (by decide +kernel)
    (m := ⟨⟨1, 1, 101⟩, 0, 7, 9, 40, 103, 103, BitVec.ofNat 256 (2 ^ 64 * 103), 0, false⟩)
    (by decide +kernel) (encoded_transferLog 7 9 40 103 0)).2
  exact hears.resolve_right (by decide +kernel)

/-! ## The poller -/

/-- `Poller`: the highest block already examined. -/
structure Poller where
  scanned : Option Nat := none
deriving DecidableEq, Repr

/-- `log.block_number.unwrap_or(0)`. -/
def Log.number (l : Log) : Nat := l.blockNumber.getD 0

/-- The end of `Poller::tick`: the highest block with a log. -/
def highestOf (fromBlock : Nat) (logs : List Log) : Nat :=
  logs.foldl (fun highest l => max highest l.number) (fromBlock - 1)

/-- `Poller::tick`, with what the database and the node answer: the logs it
hands to `handle_log`. -/
def Poller.tick (p : Poller) (cursor : Option Nat) (getLogs : Nat → Except RpcErrorClass (List Log))
    (blockNumber : Option Nat) : Poller × List Log :=
  match p.scanned.or cursor with
  | none => (p, [])
  | some before =>
      let fromBlock := before + 1
      match getLogs fromBlock with
      | .ok logs => ({ scanned := some (highestOf fromBlock logs) }, logs)
      | .error .rangeTooLarge =>
          -- too far behind; jump to the head
          match blockNumber with
          | some head => ({ scanned := some (head - 1) }, [])
          | none => (p, [])
      | .error _ => (p, [])

/-- The highest block is at least the one before the range, and that of every
log. -/
theorem le_highestOf (fromBlock : Nat) (logs : List Log) :
    fromBlock - 1 ≤ highestOf fromBlock logs ∧ ∀ l ∈ logs, l.number ≤ highestOf fromBlock logs := by
  unfold highestOf
  generalize fromBlock - 1 = start
  induction logs generalizing start with
  | nil => simp
  | cons l logs ih =>
      obtain ⟨hstart, hall⟩ := ih (max start l.number)
      refine ⟨le_trans (Nat.le_max_left ..) hstart, fun x hx => ?_⟩
      rcases List.mem_cons.mp hx with rfl | hx
      · exact le_trans (Nat.le_max_right ..) hstart
      · exact hall x hx

/-- And it is the least such. -/
theorem highestOf_le {fromBlock bound : Nat} {logs : List Log} (hstart : fromBlock - 1 ≤ bound)
    (hall : ∀ l ∈ logs, l.number ≤ bound) : highestOf fromBlock logs ≤ bound := by
  unfold highestOf
  revert hstart
  generalize fromBlock - 1 = start
  intro hstart
  induction logs generalizing start with
  | nil => exact hstart
  | cons l logs ih =>
      exact ih (fun x hx => hall x (List.mem_cons_of_mem _ hx)) _
        (Nat.max_le.mpr ⟨hstart, hall l List.mem_cons_self⟩)

/-- A poller, and the chain it polls. -/
structure PollRun where
  /-- The logs of the chain, in order. -/
  logs : List Log := []
  head : Nat := 0
  cursor : Nat := 0
  poller : Poller := {}
  /-- What was handed to `handle_log` since the poller last started anew. -/
  handed : List Log := []
  /-- The block after which it started then, and the highest that a node which
  answered it had. -/
  span : Option (Nat × Nat) := none

namespace PollRun

inductive Event
  /-- The chain grows by a block. -/
  | block (logs : List Log)
  /-- The blocks above `base` are gone. -/
  | reorg (base : Nat)
  /-- A sweep moves the cursor. -/
  | sweep (cursor : Nat)
  /-- A WSS session starts. -/
  | reset
  /-- A node answers that has the chain up to `node`. -/
  | tick (node : Nat)
  /-- The range is too large for the node; it may then report its head. -/
  | tooLarge (head : Option Nat)
  | fails (e : RpcErrorClass)

variable (s : PollRun)

/-- The logs of a new block. -/
def mined (logs : List Log) : List Log := logs.map fun l => { l with blockNumber := some (s.head + 1) }

def step : Event → PollRun
  | .block logs => { s with logs := s.logs ++ s.mined logs, head := s.head + 1 }
  | .reorg base =>
      { s with logs := s.logs.filter fun l => l.number ≤ base, head := min base s.head }
  | .sweep cursor => { s with cursor := min cursor s.head }
  | .reset => { s with poller := {}, handed := [], span := none }
  | .tick node =>
      let node := min node s.head
      let (poller, logs) := s.poller.tick (some s.cursor)
        (fun fromBlock => .ok (window Log.number (fromBlock - 1) node s.logs)) none
      let (start, seen) := s.span.getD (s.cursor, s.cursor)
      { s with poller, handed := s.handed ++ logs, span := some (start, max seen node) }
  | .tooLarge head =>
      match head with
      | some head =>
          let head := min head s.head
          { s with
            poller := (s.poller.tick (some s.cursor) (fun _ => .error .rangeTooLarge) (some head)).1
            handed := []
            span := some (head - 1, head - 1) }
      | none => s
  | .fails e =>
      if e = .rangeTooLarge then s
      else { s with poller := (s.poller.tick (some s.cursor) (fun _ => .error e) none).1 }

/-- Where the poller started, and the highest block it has seen since. -/
def start (s : PollRun) : Nat := (s.span.getD (s.cursor, s.cursor)).1

def seen (s : PollRun) : Nat := (s.span.getD (s.cursor, s.cursor)).2

/-- A reorg spares the blocks that the poller has seen and the cursor has
passed. -/
def Event.Spares (s : PollRun) : Event → Prop
  | .reorg base => s.seen ≤ base ∧ s.cursor ≤ base
  | _ => True

instance (s : PollRun) (e : Event) : Decidable (e.Spares s) :=
  match e with
  | .reorg base => inferInstanceAs (Decidable (s.seen ≤ base ∧ s.cursor ≤ base))
  | .block _ | .sweep _ | .reset | .tick _ | .tooLarge _ | .fails _ => isTrue trivial

/-- The block after which the next request begins. -/
def next (s : PollRun) : Nat := s.poller.scanned.getD s.cursor

structure Sound (s : PollRun) : Prop where
  ordered : s.logs.Pairwise fun l l' => l.number ≤ l'.number
  bounded : ∀ l ∈ s.logs, l.number ≤ s.head
  swept : s.cursor ≤ s.head
  fresh : s.poller.scanned = none ↔ s.span = none
  handed : s.handed = window Log.number s.start s.seen s.logs
  mined : s.seen ≤ s.head
  start_le : s.start ≤ s.next
  next_le : s.next ≤ s.seen
  /-- There is nothing that the next request would skip. -/
  rest : ∀ l ∈ s.logs, s.next < l.number → s.seen < l.number

variable {s}

/-- An answered tick hands over the logs and moves to the highest of them. -/
theorem tick_ok {p : Poller} {cursor : Option Nat} {getLogs : Nat → Except RpcErrorClass (List Log)}
    {blockNumber : Option Nat} {before : Nat} {logs : List Log} (h : p.scanned.or cursor = some before)
    (hlogs : getLogs (before + 1) = .ok logs) :
    p.tick cursor getLogs blockNumber = ({ scanned := some (highestOf (before + 1) logs) }, logs) := by
  simp only [Poller.tick, h, hlogs]

theorem next_eq (s : PollRun) : s.poller.scanned.or (some s.cursor) = some s.next := by
  unfold next
  cases s.poller.scanned <;> rfl

/-- A tick in terms of the window that was asked for. -/
theorem step_tick (s : PollRun) (node : Nat) :
    s.step (.tick node) =
      { s with
        poller := { scanned := some (highestOf (s.next + 1) (window Log.number s.next (min node s.head) s.logs)) }
        handed := s.handed ++ window Log.number s.next (min node s.head) s.logs
        span := some (s.start, max s.seen (min node s.head)) } := by
  have htick : s.poller.tick (some s.cursor)
      (fun fromBlock => .ok (window Log.number (fromBlock - 1) (min node s.head) s.logs)) none =
      ({ scanned := some (highestOf (s.next + 1) (window Log.number s.next (min node s.head) s.logs)) },
        window Log.number s.next (min node s.head) s.logs) := tick_ok (next_eq s) rfl
  simp only [step, htick, start, seen]

/-- A tick hands over the next window. -/
theorem Sound.tick (inv : Sound s) (node : Nat) : Sound (s.step (.tick node)) := by
  rw [step_tick]
  generalize hnode : min node s.head = reach
  have hreach : reach ≤ s.head := hnode ▸ Nat.min_le_right ..
  set logs := window Log.number s.next reach s.logs with hlogs
  obtain ⟨hlow, hall⟩ := le_highestOf (s.next + 1) logs
  have hhigh : highestOf (s.next + 1) logs ≤ max s.seen reach := by
    refine highestOf_le (by have := inv.next_le; omega) fun l hl => ?_
    exact le_trans (mem_window.mp hl).2.2 (Nat.le_max_right ..)
  -- what the node returns is what it has seen beyond the last answers
  have hnew : logs = window Log.number s.seen (max s.seen reach) s.logs := by
    refine List.filter_congr fun l hl => ?_
    have hrest := inv.rest l hl
    have hnext := inv.next_le
    rw [decide_eq_decide]
    omega
  refine ⟨inv.ordered, inv.bounded, inv.swept, by simp, ?_, ?_, ?_, hhigh, fun l hl hlt => ?_⟩
  · change s.handed ++ logs = window Log.number s.start (max s.seen reach) s.logs
    rw [inv.handed, hnew]
    exact window_append inv.ordered (le_trans inv.start_le inv.next_le) (Nat.le_max_left ..)
  · exact Nat.max_le.mpr ⟨inv.mined, hreach⟩
  · change s.start ≤ highestOf (s.next + 1) logs
    have := inv.start_le
    omega
  · change highestOf (s.next + 1) logs < l.number at hlt
    change max s.seen reach < l.number
    have hrest := inv.rest l hl (by omega)
    by_contra hle
    have hmem : l ∈ logs := mem_window.mpr ⟨hl, by omega, by omega⟩
    have := hall l hmem
    omega

/-- A new block is beyond what was handed over. -/
theorem Sound.block (inv : Sound s) (logs : List Log) : Sound (s.step (.block logs)) := by
  have hnumber : ∀ l ∈ s.mined logs, l.number = s.head + 1 := by
    intro l hl
    obtain ⟨l', -, rfl⟩ := List.mem_map.mp hl
    rfl
  have hmined := inv.mined
  refine ⟨?_, fun l hl => ?_, Nat.le_succ_of_le inv.swept, inv.fresh, ?_, Nat.le_succ_of_le inv.mined,
    inv.start_le, inv.next_le, fun l hl hlt => ?_⟩
  · refine List.pairwise_append.mpr ⟨inv.ordered, ?_, fun l hl l' hl' => ?_⟩
    · exact List.pairwise_of_forall_mem_list fun l hl l' hl' => by rw [hnumber l hl, hnumber l' hl']
    · rw [hnumber l' hl']
      exact Nat.le_succ_of_le (inv.bounded l hl)
  · rcases List.mem_append.mp hl with hl | hl
    · exact Nat.le_succ_of_le (inv.bounded l hl)
    · exact (hnumber l hl).le
  · change s.handed = window Log.number s.start s.seen (s.logs ++ s.mined logs)
    have hnone : window Log.number s.start s.seen (s.mined logs) = [] :=
      window_eq_nil fun l hl _ => by
        rw [hnumber l hl]
        omega
    rw [window, List.filter_append, ← window, ← window, hnone, List.append_nil, inv.handed]
  · change s.seen < l.number
    rcases List.mem_append.mp hl with hl | hl
    · exact inv.rest l hl hlt
    · rw [hnumber l hl]
      omega

/-- A reorganisation that spares the scanned blocks drops nothing of it. -/
theorem Sound.reorg (inv : Sound s) {base : Nat} (spares : (Event.reorg base).Spares s) :
    Sound (s.step (.reorg base)) := by
  obtain ⟨hseen, hcursor⟩ := spares
  have hmem : ∀ l ∈ s.logs.filter (fun l => l.number ≤ base), l ∈ s.logs ∧ l.number ≤ base := by
    intro l hl
    simpa using hl
  refine ⟨inv.ordered.filter _, fun l hl => ?_, Nat.le_min.mpr ⟨hcursor, inv.swept⟩, inv.fresh, ?_,
    Nat.le_min.mpr ⟨hseen, inv.mined⟩, inv.start_le, inv.next_le, fun l hl => ?_⟩
  · exact Nat.le_min.mpr ⟨(hmem l hl).2, inv.bounded l (hmem l hl).1⟩
  · change s.handed = window Log.number s.start s.seen (s.logs.filter fun l => l.number ≤ base)
    rw [inv.handed, window_filter hseen]
  · exact inv.rest l (hmem l hl).1

/-- A poller that has not asked yet starts wherever the cursor is. -/
theorem Sound.start_anew (inv : Sound s) {cursor : Nat} (hcursor : cursor ≤ s.head)
    (hspan : s.span = none) : Sound { s with cursor } := by
  have hscanned := inv.fresh.mpr hspan
  have hempty : s.handed = [] := by
    rw [inv.handed]
    refine window_eq_nil fun l _ h => ?_
    simp only [start, seen, hspan, Option.getD_none] at h ⊢
    exact h
  refine ⟨inv.ordered, inv.bounded, hcursor, inv.fresh, ?_, ?_, ?_, ?_, fun l _ h => ?_⟩
  · simp only [start, seen, hspan, Option.getD_none, hempty]
    exact (window_eq_nil fun l _ h => h).symm
  · simp [seen, hspan, hcursor]
  · simp [start, next, hspan, hscanned]
  · simp [seen, next, hspan, hscanned]
  · simp only [seen, next, hspan, hscanned, Option.getD_none] at h ⊢
    exact h

/-- A poller that has scanned does not look at the cursor any more. -/
theorem Sound.sweep (inv : Sound s) (cursor : Nat) : Sound (s.step (.sweep cursor)) := by
  have hcursor : min cursor s.head ≤ s.head := Nat.min_le_right ..
  cases hspan : s.span with
  | none => exact inv.start_anew hcursor hspan
  | some span =>
      have hscanned : s.poller.scanned ≠ none := by simp [inv.fresh, hspan]
      obtain ⟨b, hb⟩ := Option.ne_none_iff_exists'.mp hscanned
      have hstart : (s.step (.sweep cursor)).start = s.start := by simp [start, step, hspan]
      have hseen : (s.step (.sweep cursor)).seen = s.seen := by simp [seen, step, hspan]
      have hnext : (s.step (.sweep cursor)).next = s.next := by simp [next, step, hb]
      refine ⟨inv.ordered, inv.bounded, hcursor, inv.fresh, ?_, ?_, ?_, ?_, ?_⟩
      · rw [hstart, hseen]
        exact inv.handed
      · rw [hseen]
        exact inv.mined
      · rw [hstart, hnext]
        exact inv.start_le
      · rw [hnext, hseen]
        exact inv.next_le
      · rw [hnext, hseen]
        exact inv.rest

/-- A reset starts over at the cursor. -/
theorem Sound.reset (inv : Sound s) : Sound (s.step .reset) := by
  refine ⟨inv.ordered, inv.bounded, inv.swept, by simp [step], ?_, inv.swept, le_refl _, le_refl _,
    fun _ _ h => h⟩
  exact (window_eq_nil fun _ _ h => h).symm

/-- When the range is too large, the poller starts over at the head. -/
theorem Sound.tooLarge (inv : Sound s) (head : Option Nat) : Sound (s.step (.tooLarge head)) := by
  cases head with
  | none => exact inv
  | some head =>
      have htick : (s.poller.tick (some s.cursor) (fun _ => .error .rangeTooLarge)
          (some (min head s.head))).1 = { scanned := some (min head s.head - 1) } := by
        simp only [Poller.tick, next_eq]
      simp only [step, htick]
      refine ⟨inv.ordered, inv.bounded, inv.swept, by simp, ?_, ?_, le_refl _, le_refl _, fun _ _ h => h⟩
      · exact (window_eq_nil fun _ _ h => h).symm
      · exact le_trans (Nat.sub_le ..) (Nat.min_le_right ..)

/-- On any other error nothing happens. -/
theorem Sound.fails (inv : Sound s) (e : RpcErrorClass) : Sound (s.step (.fails e)) := by
  have hsame : s.step (.fails e) = s := by
    simp only [step]
    split_ifs with he
    · rfl
    · have htick : (s.poller.tick (some s.cursor) (fun _ => .error e) none).1 = s.poller := by
        cases e <;> simp_all [Poller.tick]
      rw [htick]
  rw [hsame]
  exact inv

/-- **Every event keeps the invariant.** -/
theorem Sound.step (inv : Sound s) {e : Event} (spares : e.Spares s) : Sound (s.step e) := by
  cases e with
  | block logs => exact inv.block logs
  | reorg base => exact inv.reorg spares
  | sweep cursor => exact inv.sweep cursor
  | reset => exact inv.reset
  | tick node => exact inv.tick node
  | tooLarge head => exact inv.tooLarge head
  | fails e => exact inv.fails e

/-- It holds before the first tick. -/
theorem Sound.init : Sound {} :=
  ⟨List.Pairwise.nil, by simp, le_refl _, by simp, rfl, le_refl _, le_refl _, le_refl _, by simp⟩

end PollRun

/-- **Once and in order.**  Since it last started anew -- at the cursor after a
reset, at the head after a range that was too large -- the poller has handed on
the logs of all blocks that any node which answered it had, each of them once and
in the order of the chain, although the nodes may be behind each other.  Only a
block that no answer has had yet may be replaced. -/
theorem poll_hands_once (events : List PollRun.Event)
    (spares : Along PollRun.step (fun s e => e.Spares s) {} events) {start seen : Nat}
    (h : (run PollRun.step {} events).span = some (start, seen)) :
    (run PollRun.step {} events).handed =
      (run PollRun.step {} events).logs.filter fun l => start < l.number ∧ l.number ≤ seen := by
  have inv : PollRun.Sound (run PollRun.step {} events) :=
    invariant_along PollRun.Sound (fun s e _ inv hspares => inv.step hspares) PollRun.Sound.init
      spares
  have hhanded := inv.handed
  rw [PollRun.start, PollRun.seen, h] at hhanded
  exact hhanded

/-- The third answer comes from a node that is a block behind; the block that it
lacks is replaced. -/
def lagging : List PollRun.Event :=
  [.block [], .tick 1, .block [transferLog 7 9 40 0 0], .tick 2, .block [transferLog 8 9 2 0 1],
    .tick 2, .reorg 2, .block [transferLog 8 9 3 0 1], .tick 3]

theorem poll_hands_once_lagging :
    (run PollRun.step {} lagging).handed =
      (run PollRun.step {} lagging).logs.filter fun l => 0 < l.number ∧ l.number ≤ 3 :=
  poll_hands_once lagging (by decide +kernel) rfl

end GumIndexer
