import Mathlib.Algebra.GroupWithZero.Nat
import GumIndexer.Base.Timeline

/-!
# GumIndexer.Health

The status of a chain, and what it says.

Every RPC answer, every head that is seen, and every change of the WSS
connection goes through `update`, which evaluates the status anew and logs it
when it changes.  The state keeps a counter and two instants of all that
happened (`Reflects`).  `health_status_iff` reads the status off the past: a
chain is down if and only if the last five answers were failures, or the highest
head was first seen longer than the threshold before the last look.
`health_logs_changes` says that the log has the changes of the status and
nothing else.

Other conditions are logged through a `LogLimiter`; `limiter_lines` says that
its lines keep their distance and account for every occurrence.
-/

namespace GumIndexer

open Base

/-! ## The state machine -/

inductive ChainStatus
  | down
  | degraded
  | healthy
deriving DecidableEq, Repr

/-- `DEGRADED_AFTER_FAILURES`. -/
def degradedAfterFailures : Nat := 2

/-- `DOWN_AFTER_FAILURES`. -/
def downAfterFailures : Nat := 5

/-- `ChainHealth`: the fields of `Inner`.  Times are in nanoseconds. -/
structure ChainHealth where
  status : ChainStatus := .healthy
  consecutiveFailures : Nat := 0
  lastErrorKind : Option String := none
  lastError : Option String := none
  lastSuccessAt : Option Nat := none
  head : Nat := 0
  headChangedAt : Option Nat := none
  headObservedAt : Option Nat := none
  wsExpected : Bool := false
  wsConnected : Bool := false
  mode : String := "starting"
  leader : Bool := false
  confirmedBlock : Nat := 0
  lastSweepAt : Option Nat := none
deriving DecidableEq, Repr

/-- The calls that change the health of a chain. -/
inductive HealthEvent
  | rpcOk (now : Nat)
  | rpcErr (kind error : String)
  | head (head now : Nat)
  | sweep (confirmedBlock now : Nat)
  | ws (expected connected : Bool)
  | mode (mode : String)
  | leader (leader : Bool)
deriving DecidableEq, Repr

namespace ChainHealth

/-- The head did not move although it was looked at again after `stall`. -/
def stalled (stall : Nat) (h : ChainHealth) : Bool :=
  match h.headChangedAt, h.headObservedAt with
  | some changed, some observed => stall < observed - changed
  | _, _ => false

def evaluate (stall : Nat) (h : ChainHealth) : ChainStatus :=
  if downAfterFailures ≤ h.consecutiveFailures ∨ h.stalled stall then .down
  else if degradedAfterFailures ≤ h.consecutiveFailures ∨ (h.wsExpected ∧ !h.wsConnected) then .degraded
  else .healthy

/-- `observe_head_at`. -/
def observeHead (head now : Nat) (h : ChainHealth) : ChainHealth :=
  if h.head < head ∨ h.headChangedAt = none then
    { h with head := max head h.head, headChangedAt := some now, headObservedAt := some now }
  else { h with headObservedAt := some now }

/-- What a call writes before the status is evaluated. -/
def apply (h : ChainHealth) : HealthEvent → ChainHealth
  | .rpcOk now => { h with consecutiveFailures := 0, lastSuccessAt := some now }
  | .rpcErr kind error =>
      { h with
        -- `saturating_add` on a `u32`
        consecutiveFailures := min (h.consecutiveFailures + 1) (2 ^ 32 - 1)
        lastErrorKind := some kind
        lastError := some (String.ofList (error.toList.take 300)) }
  | .head head now => h.observeHead head now
  | .sweep confirmedBlock now => { h with confirmedBlock, lastSweepAt := some now }
  | .ws wsExpected wsConnected => { h with wsExpected, wsConnected }
  | .mode mode => { h with mode }
  | .leader leader => { h with leader }

/-- `update`; it logs the new status if it is not the old one. -/
def update (stall : Nat) (h : ChainHealth) (e : HealthEvent) : ChainHealth :=
  { h.apply e with status := (h.apply e).evaluate stall }

/-- What `update` logs. -/
def logged (stall : Nat) (h : ChainHealth) (e : HealthEvent) : List ChainStatus :=
  let next := (h.apply e).evaluate stall
  if next = h.status then [] else [next]

end ChainHealth

/-! ## The past -/

/-- The RPC answers, and whether they were failures. -/
def HealthEvent.answer? : HealthEvent → Option Bool
  | .rpcOk _ => some false
  | .rpcErr _ _ => some true
  | _ => none

def HealthEvent.head? : HealthEvent → Option (Nat × Nat)
  | .head n now => some (n, now)
  | _ => none

def HealthEvent.ws? : HealthEvent → Option (Bool × Bool)
  | .ws expected connected => some (expected, connected)
  | _ => none

/-- The failures since the last success; the past is newest first. -/
def failuresOf (past : List HealthEvent) : Nat := ((past.filterMap HealthEvent.answer?).takeWhile id).length

/-- The heads that were seen, and when. -/
def headsOf (past : List HealthEvent) : List (Nat × Nat) := past.filterMap HealthEvent.head?

/-- The highest head, where it was seen first. -/
def Highest (seen : List (Nat × Nat)) (x : Nat × Nat) : Prop :=
  ∃ newer older, seen = newer ++ x :: older ∧ (∀ y ∈ newer, y.1 ≤ x.1) ∧ ∀ y ∈ older, y.1 < x.1

/-- The highest head was first seen more than `stall` before the last look. -/
def StalledBy (stall : Nat) (past : List HealthEvent) : Prop :=
  ∃ highest last, Highest (headsOf past) highest ∧ (headsOf past).head? = some last ∧
    stall < last.2 - highest.2

/-- WSS is wanted and not there. -/
def WsLost (past : List HealthEvent) : Prop :=
  (past.filterMap HealthEvent.ws?).head? = some (true, false)

/-! ## Reading the state off the past -/

/-- What `observe_head` keeps of the heads. -/
def highest? : List (Nat × Nat) → Option (Nat × Nat)
  | [] => none
  | x :: older =>
      match highest? older with
      | none => some x
      | some y => if y.1 < x.1 then some x else some y

/-- There is no highest head before the first one. -/
theorem highest?_eq_none_iff {seen : List (Nat × Nat)} : highest? seen = none ↔ seen = [] := by
  cases seen with
  | nil => simp [highest?]
  | cons x older =>
      rw [highest?]
      cases highest? older with
      | none => simp
      | some y => by_cases h : y.1 < x.1 <;> simp [h]

/-- What `highest?` returns is the highest head. -/
theorem highest_of_highest? {seen : List (Nat × Nat)} {x : Nat × Nat} (h : highest? seen = some x) :
    Highest seen x := by
  induction seen generalizing x with
  | nil => cases h
  | cons z older ih =>
      rw [highest?] at h
      cases hy : highest? older with
      | none =>
          rw [hy] at h
          obtain rfl := Option.some.inj h
          rw [highest?_eq_none_iff.mp hy]
          exact ⟨[], [], rfl, by simp, by simp⟩
      | some y =>
          rw [hy] at h
          obtain ⟨newer, oldest, rfl, hnewer, holdest⟩ := ih hy
          by_cases hz : y.1 < z.1
          · obtain rfl : z = x := by simpa [hz] using h
            refine ⟨[], newer ++ y :: oldest, rfl, by simp, fun w hw => ?_⟩
            rcases List.mem_append.mp hw with hw | hw
            · exact lt_of_le_of_lt (hnewer w hw) hz
            · rcases List.mem_cons.mp hw with rfl | hw
              · exact hz
              · exact lt_trans (holdest w hw) hz
          · obtain rfl : y = x := by simpa [hz] using h
            refine ⟨z :: newer, oldest, rfl, fun w hw => ?_, holdest⟩
            rcases List.mem_cons.mp hw with rfl | hw
            · exact Nat.le_of_not_lt hz
            · exact hnewer w hw

/-- The highest head is what `highest?` returns. -/
theorem highest?_of_highest {seen : List (Nat × Nat)} {x : Nat × Nat} (h : Highest seen x) :
    highest? seen = some x := by
  obtain ⟨newer, older, rfl, hnewer, holder⟩ := h
  induction newer with
  | nil =>
      rw [List.nil_append, highest?]
      cases hy : highest? older with
      | none => rfl
      | some y =>
          obtain ⟨pre, post, rfl, -, -⟩ := highest_of_highest? hy
          exact if_pos (holder y (by simp))
  | cons z newer ih =>
      rw [List.cons_append, highest?, ih fun y hy => hnewer y (List.mem_cons_of_mem _ hy)]
      exact if_neg (Nat.not_lt.mpr (hnewer z List.mem_cons_self))

namespace ChainHealth

variable {stall : Nat} {past : List HealthEvent} {h : ChainHealth} {e : HealthEvent}

/-- When a chain is down. -/
theorem evaluate_eq_down_iff :
    h.evaluate stall = .down ↔ downAfterFailures ≤ h.consecutiveFailures ∨ h.stalled stall = true := by
  unfold evaluate
  split_ifs with hdown <;> simp [hdown]

/-- When a chain is degraded. -/
theorem evaluate_eq_degraded_iff :
    h.evaluate stall = .degraded ↔
      ¬ (downAfterFailures ≤ h.consecutiveFailures ∨ h.stalled stall = true) ∧
        (degradedAfterFailures ≤ h.consecutiveFailures ∨
          (h.wsExpected = true ∧ (!h.wsConnected) = true)) := by
  unfold evaluate
  split_ifs with hdown hdegraded
  · exact iff_of_false (by simp) fun h => h.1 hdown
  · exact iff_of_true rfl ⟨hdown, hdegraded⟩
  · exact iff_of_false (by simp) fun h => hdegraded h.2

/-- The state is that of a chain with this past. -/
structure Reflects (stall : Nat) (past : List HealthEvent) (h : ChainHealth) : Prop where
  failures : h.consecutiveFailures = min (failuresOf past) (2 ^ 32 - 1)
  changed : h.headChangedAt = (highest? (headsOf past)).map Prod.snd
  head : h.head = ((highest? (headsOf past)).map Prod.fst).getD 0
  observed : h.headObservedAt = (headsOf past).head?.map Prod.snd
  ws : (h.wsExpected, h.wsConnected) = (past.filterMap HealthEvent.ws?).head?.getD (false, false)
  status : h.status = h.evaluate stall

theorem Reflects.init : Reflects stall [] {} := ⟨rfl, rfl, rfl, rfl, rfl, rfl⟩

/-- A call that is no head: what is known of the heads stays. -/
theorem Reflects.of_no_head (inv : Reflects stall past h) (hno : e.head? = none)
    (hhead : (h.apply e).head = h.head) (hchanged : (h.apply e).headChangedAt = h.headChangedAt)
    (hobserved : (h.apply e).headObservedAt = h.headObservedAt)
    (hfailures : (h.apply e).consecutiveFailures = min (failuresOf (e :: past)) (2 ^ 32 - 1))
    (hws : ((h.apply e).wsExpected, (h.apply e).wsConnected) =
      ((e :: past).filterMap HealthEvent.ws?).head?.getD (false, false)) :
    Reflects stall (e :: past) (h.update stall e) := by
  have hheads : headsOf (e :: past) = headsOf past := by simp [headsOf, hno]
  refine ⟨hfailures, ?_, ?_, ?_, hws, rfl⟩
  · rw [hheads, ← inv.changed]
    exact hchanged
  · rw [hheads, ← inv.head]
    exact hhead
  · rw [hheads, ← inv.observed]
    exact hobserved

/-- A head is reflected, whether it is higher than the last one or not. -/
theorem Reflects.observeHead (inv : Reflects stall past h) (n now : Nat) :
    Reflects stall (.head n now :: past) (h.update stall (.head n now)) := by
  have hheads : headsOf (.head n now :: past) = (n, now) :: headsOf past := rfl
  have happly : (h.apply (.head n now)).head =
        ((highest? (headsOf (.head n now :: past))).map Prod.fst).getD 0 ∧
      (h.apply (.head n now)).headChangedAt =
        (highest? (headsOf (.head n now :: past))).map Prod.snd := by
    rw [hheads, highest?]
    have hchanged := inv.changed
    have hhead := inv.head
    simp only [apply, ChainHealth.observeHead]
    cases hy : highest? (headsOf past) with
    | none =>
        rw [hy] at hchanged hhead
        simp only [Option.map_none, Option.getD_none] at hchanged hhead
        simp [hchanged, hhead]
    | some y =>
        rw [hy] at hchanged hhead
        simp only [Option.map_some, Option.getD_some] at hchanged hhead
        by_cases hn : y.1 < n
        · simp [hhead, hn, Nat.max_eq_left hn.le]
        · simp [hhead, hchanged, hn]
  have hobserved : (h.apply (.head n now)).headObservedAt = some now := by
    simp only [apply, ChainHealth.observeHead]
    split_ifs <;> rfl
  have hrest : (h.apply (.head n now)).consecutiveFailures = h.consecutiveFailures ∧
      (h.apply (.head n now)).wsExpected = h.wsExpected ∧
      (h.apply (.head n now)).wsConnected = h.wsConnected := by
    simp only [apply, ChainHealth.observeHead]
    split_ifs <;> exact ⟨rfl, rfl, rfl⟩
  refine ⟨hrest.1.trans inv.failures, happly.2, happly.1, ?_, ?_, rfl⟩
  · rw [hheads]
    exact hobserved
  · refine Eq.trans ?_ inv.ws
    rw [← hrest.2.1, ← hrest.2.2]
    rfl

/-- **Every call is reflected.** -/
theorem Reflects.update (inv : Reflects stall past h) (e : HealthEvent) :
    Reflects stall (e :: past) (h.update stall e) := by
  cases e with
  | rpcOk now => exact inv.of_no_head rfl rfl rfl rfl rfl inv.ws
  | rpcErr kind error =>
      refine inv.of_no_head rfl rfl rfl rfl ?_ inv.ws
      have hcount : failuresOf (.rpcErr kind error :: past) = failuresOf past + 1 := rfl
      rw [hcount]
      simp only [apply, inv.failures]
      omega
  | head n now => exact inv.observeHead n now
  | sweep confirmedBlock now => exact inv.of_no_head rfl rfl rfl rfl inv.failures inv.ws
  | ws expected connected => exact inv.of_no_head rfl rfl rfl rfl inv.failures rfl
  | mode mode => exact inv.of_no_head rfl rfl rfl rfl inv.failures inv.ws
  | leader leader => exact inv.of_no_head rfl rfl rfl rfl inv.failures inv.ws

/-- So the state reflects all calls of a run. -/
theorem Reflects.run (events : List HealthEvent) (inv : Reflects stall past h) :
    Reflects stall (events.reverse ++ past) (Base.run (ChainHealth.update stall) h events) := by
  induction events generalizing past h with
  | nil => exact inv
  | cons e events ih =>
      rw [List.reverse_cons, List.append_assoc]
      exact ih (inv.update e)

/-- What a stall is in terms of the calls. -/
theorem Reflects.stalled_iff (inv : Reflects stall past h) : h.stalled stall = true ↔ StalledBy stall past := by
  rw [stalled, inv.changed, inv.observed]
  constructor
  · intro hstalled
    cases hx : highest? (headsOf past) with
    | none => simp [hx] at hstalled
    | some x =>
        cases hlast : (headsOf past).head? with
        | none => simp [hx, hlast] at hstalled
        | some last =>
            exact ⟨x, last, highest_of_highest? hx, hlast, by simpa [hx, hlast] using hstalled⟩
  · rintro ⟨x, last, hx, hlast, hlong⟩
    simpa [highest?_of_highest hx, hlast] using hlong

/-- What a lost websocket is in terms of the calls. -/
theorem Reflects.wsLost_iff (inv : Reflects stall past h) :
    (h.wsExpected = true ∧ (!h.wsConnected) = true) ↔ WsLost past := by
  have hws := inv.ws
  rw [WsLost]
  cases hlast : (past.filterMap HealthEvent.ws?).head? with
  | none =>
      rw [hlast] at hws
      obtain ⟨hexpected, -⟩ := Prod.mk.inj hws
      simp [hexpected]
  | some last =>
      rw [hlast, Option.getD_some] at hws
      rw [← hws]
      simp

/-- **When the calls say `down`.** -/
theorem Reflects.down_iff (inv : Reflects stall past h) :
    h.status = .down ↔ 5 ≤ failuresOf past ∨ StalledBy stall past := by
  have hfailures : downAfterFailures ≤ h.consecutiveFailures ↔ 5 ≤ failuresOf past := by
    rw [inv.failures, downAfterFailures]
    omega
  rw [inv.status, evaluate_eq_down_iff, inv.stalled_iff, hfailures]

/-- **When the calls say `degraded`.** -/
theorem Reflects.degraded_iff (inv : Reflects stall past h) :
    h.status = .degraded ↔
      ¬ (5 ≤ failuresOf past ∨ StalledBy stall past) ∧ (2 ≤ failuresOf past ∨ WsLost past) := by
  have hfailures : degradedAfterFailures ≤ h.consecutiveFailures ↔ 2 ≤ failuresOf past := by
    rw [inv.failures, degradedAfterFailures]
    omega
  rw [← inv.down_iff, inv.status, evaluate_eq_down_iff, evaluate_eq_degraded_iff, inv.wsLost_iff, hfailures]

end ChainHealth

open ChainHealth in
/-- The status is a matter of the past.  The chain is down if and only if the
last five RPC answers were failures, or the highest head was first seen longer
than the threshold before the last look; if it is not down, it is degraded if
and only if the last two answers were failures or WSS is wanted and not there. -/
theorem health_status_iff (stall : Nat) (events : List HealthEvent) :
    ((run (update stall) {} events).status = .down ↔
      5 ≤ failuresOf events.reverse ∨ StalledBy stall events.reverse) ∧
    ((run (update stall) {} events).status = .degraded ↔
      ¬ (5 ≤ failuresOf events.reverse ∨ StalledBy stall events.reverse) ∧
        (2 ≤ failuresOf events.reverse ∨ WsLost events.reverse)) := by
  have inv := (Reflects.init : Reflects stall [] {}).run events
  rw [List.append_nil] at inv
  exact ⟨inv.down_iff, inv.degraded_iff⟩

open ChainHealth in
/-- The log has every change of the status, and nothing else: with the status a
chain starts in, it is the sequence of all statuses without the repetitions. -/
theorem health_logs_changes (stall : Nat) (events : List HealthEvent) :
    ChainStatus.healthy :: collect (logged stall) (update stall) {} events =
      ((events.scanl (update stall) {}).map ChainHealth.status).destutter (· ≠ ·) :=
  changes_eq_destutter ChainHealth.status (update stall) {} events

/-! ## The log limiter -/

/-- `LogLimiter`: for each condition, the time of the last line and the
occurrences suppressed since. -/
structure LogLimiter where
  interval : Nat
  state : String → Option (Nat × Nat) := fun _ => none

namespace LogLimiter

/-- `check_at`; `some n` is a line that reports `n` suppressed occurrences. -/
def checkAt (l : LogLimiter) (key : String) (now : Nat) : LogLimiter × Option Nat :=
  match l.state key with
  | none => ({ l with state := Function.update l.state key (some (now, 0)) }, some 0)
  | some (last, suppressed) =>
      if l.interval ≤ now - last then
        ({ l with state := Function.update l.state key (some (now, 0)) }, some suppressed)
      else ({ l with state := Function.update l.state key (some (last, suppressed + 1)) }, none)

def step (l : LogLimiter) (check : String × Nat) : LogLimiter := (l.checkAt check.1 check.2).1

/-- The lines of a condition, with their times and counts. -/
def lines (key : String) (l : LogLimiter) (check : String × Nat) : List (Nat × Nat) :=
  if check.1 = key then (l.checkAt check.1 check.2).2.toList.map (check.2, ·) else []

/-- The occurrences that no line has reported yet. -/
def suppressed (l : LogLimiter) (key : String) : Nat := ((l.state key).map Prod.snd).getD 0

theorem interval_step (l : LogLimiter) (check : String × Nat) : (l.step check).interval = l.interval := by
  unfold step checkAt
  split
  · rfl
  · split_ifs <;> rfl

/-- A check leaves the other keys alone. -/
theorem state_step_of_ne {l : LogLimiter} {check : String × Nat} {key : String} (h : check.1 ≠ key) :
    (l.step check).state key = l.state key := by
  unfold step checkAt
  split
  · exact Function.update_of_ne (Ne.symm h) ..
  · split_ifs <;> exact Function.update_of_ne (Ne.symm h) ..

/-- A check is a line, or one more occurrence that a later line reports. -/
theorem step_self (l : LogLimiter) (key : String) (now : Nat) :
    (lines key l (key, now) = [(now, l.suppressed key)] ∧
      (l.step (key, now)).state key = some (now, 0) ∧
      ∀ last n, l.state key = some (last, n) → l.interval ≤ now - last) ∨
    (lines key l (key, now) = [] ∧ ∃ last n, l.state key = some (last, n) ∧
      (l.step (key, now)).state key = some (last, n + 1)) := by
  cases hstate : l.state key with
  | none => exact .inl ⟨by simp [lines, checkAt, suppressed, hstate], by simp [step, checkAt, hstate], by simp⟩
  | some entry =>
      obtain ⟨last, n⟩ := entry
      by_cases hdue : l.interval ≤ now - last
      · refine .inl ⟨by simp [lines, checkAt, suppressed, hstate, hdue], by simp [step, checkAt, hstate, hdue], ?_⟩
        rintro last' n' heq
        obtain ⟨rfl, -⟩ := Prod.mk.inj (Option.some.inj heq)
        exact hdue
      · exact .inr ⟨by simp [lines, checkAt, hstate, hdue], last, n, rfl, by simp [step, checkAt, hstate, hdue]⟩

theorem suppressed_of_state {l : LogLimiter} {key : String} {last n : Nat}
    (h : l.state key = some (last, n)) : l.suppressed key = n := by
  rw [suppressed, h]
  rfl

/-- What the lines of a run are, from any state: no line before `interval` has
passed since the last one, and the counts add up. -/
theorem lines_run (key : String) (checks : List (String × Nat)) (l : LogLimiter) (pos : 0 < l.interval) :
    Spaced l.interval ((collect (lines key) step l checks).map Prod.fst) ∧
    (∀ last n, l.state key = some (last, n) →
      ∀ line ∈ collect (lines key) step l checks, last + l.interval ≤ line.1) ∧
    (checks.filter (·.1 = key)).length + l.suppressed key =
      (collect (lines key) step l checks).length +
        ((collect (lines key) step l checks).map Prod.snd).sum + (run step l checks).suppressed key := by
  induction checks generalizing l with
  | nil => exact ⟨Spaced.nil, by simp, by simp⟩
  | cons check checks ih =>
      obtain ⟨key', now⟩ := check
      obtain ⟨hspaced, hlast, hcount⟩ := ih (l.step (key', now)) (by rw [interval_step]; exact pos)
      rw [interval_step] at hspaced hlast
      rw [collect_cons, run_cons]
      by_cases hkey : key' = key
      · subst hkey
        rw [List.filter_cons_of_pos (by simp), List.length_cons]
        rcases l.step_self key' now with ⟨hlines, hstep, hdue⟩ | ⟨hlines, last, n, hstate, hstep⟩
        · have hafter := hlast now 0 hstep
          rw [suppressed_of_state hstep] at hcount
          rw [hlines, List.singleton_append]
          refine ⟨List.pairwise_cons.mpr ⟨by simpa using hafter, hspaced⟩, ?_, ?_⟩
          · intro last n hstate line hline
            have hpassed := hdue last n hstate
            rcases List.mem_cons.mp hline with rfl | hline
            · simp only
              omega
            · have := hafter line hline
              omega
          · rw [List.length_cons, List.map_cons, List.sum_cons]
            omega
        · rw [suppressed_of_state hstep] at hcount
          rw [hlines, List.nil_append, suppressed_of_state hstate]
          refine ⟨hspaced, fun last' n' heq => ?_, by omega⟩
          obtain ⟨rfl, rfl⟩ := Prod.mk.inj (Option.some.inj (hstate.symm.trans heq))
          exact hlast last (n + 1) hstep
      · have hlines : lines key l (key', now) = [] := if_neg hkey
        have hstate : (l.step (key', now)).state key = l.state key := state_step_of_ne hkey
        rw [hlines, List.nil_append]
        refine ⟨hspaced, fun last n hl => hlast last n (hstate.trans hl), ?_⟩
        rw [List.filter_cons_of_neg (by simpa using hkey), ← hcount, suppressed, suppressed, hstate]

end LogLimiter

open LogLimiter in
/-- The lines about a condition are at least `interval` apart, and every
occurrence is a line, is counted by a later one, or waits to be. -/
theorem limiter_lines (interval : Nat) (pos : 0 < interval) (checks : List (String × Nat)) (key : String) :
    Spaced interval ((collect (lines key) step { interval } checks).map Prod.fst) ∧
    (checks.filter (·.1 = key)).length =
      (collect (lines key) step { interval } checks).length +
        ((collect (lines key) step { interval } checks).map Prod.snd).sum +
        (run step { interval } checks).suppressed key := by
  obtain ⟨hspaced, -, hcount⟩ := lines_run key checks { interval } pos
  exact ⟨hspaced, hcount⟩

open LogLimiter in
theorem limiter_lines_outage :
    let checks := [("rpc_transient", 0), ("rpc_transient", 1), ("rpc_auth", 2), ("rpc_transient", 31)]
    Spaced 30 ((collect (lines "rpc_transient") step { interval := 30 } checks).map Prod.fst) :=
  (limiter_lines 30 (by decide) _ "rpc_transient").1

end GumIndexer
