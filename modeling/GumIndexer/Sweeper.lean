import GumIndexer.Chain
import GumIndexer.Ops

/-!
# GumIndexer.Sweeper

One instance of the indexer on one chain: its share of the API, the head path
and the sweeper, on top of the store.

`Sweeper::sweep` runs for as long as a provider takes to answer, and every
other task of the instance runs in between.  It is therefore modelled as a
machine that is suspended at each request and before each transaction
(`Phase`): retire overdue watches, read the head, fast-forward the cursor,
then scan the blocks up to the confirmation depth in chunks of the span the
provider accepts, then fetch and count the backfills of late registrations.
`ChainRuntime.step` resumes it with the next answer, or handles a request of
the API or a log of the head path; an event that does not fit the phase
changes nothing.

The database is shared; what an event does to it is the transaction that
`Runs` names (`step_commits`).
-/

namespace GumIndexer

open Base

/-! ## The provider -/

/-- `RpcErrorClass`. -/
inductive RpcErrorClass
  | rateLimited
  | rateLimitedLong
  | transient
  | rangeTooLarge
  | aheadOfHead
  | auth
  | invalid
deriving DecidableEq, Repr

structure RpcError where
  errorClass : RpcErrorClass
  message : String
deriving DecidableEq, Repr

/-- What follows the first occurrence of a pattern. -/
def after? (pattern : List Char) : List Char → Option (List Char)
  | [] => if pattern = [] then some [] else none
  | c :: cs =>
      if pattern.isPrefixOf (c :: cs) then some ((c :: cs).drop pattern.length) else after? pattern cs

/-- `str::parse::<u64>` of a string of digits. -/
def parseU64 (digits : List Char) : Option Nat :=
  let n := digits.foldl (fun n c => 10 * n + (c.toNat - '0'.toNat)) 0
  if digits ≠ [] ∧ n < 2 ^ 64 then some n else none

/-- `range_limit_hint`: the limit in "eth_getLogs is limited to a 10,000
range". -/
def rangeLimitHint (message : String) : Option Nat := do
  let tail ← after? "limited to".toList (message.toList.map Char.toLower)
  let number := (tail.dropWhile fun c => !c.isDigit).takeWhile fun c => c.isDigit || c == ','
  (parseU64 (number.filter (· != ','))).filter (0 < ·)

example : rangeLimitHint "error code -32602: eth_getLogs is limited to a 10,000 range" = some 10000 := by
  decide +kernel

example : rangeLimitHint "query returned more than 10000 results" = none := by decide +kernel

/-! ## The sweeper -/

/-- Where `Sweeper::sweep` is suspended, with what it holds there.  `head` is
what the sweep read from `block_number`. -/
inductive Phase
  | idle
  /-- Before `block_number`; overdue watches are retired. -/
  | probing
  /-- Before `fast_forward_cursor`. -/
  | forwarding (head : Nat)
  /-- At the request of the loop `while cursor < target`. -/
  | scanning (head cursor : Nat)
  /-- Before `apply_sweep`, with the logs of `(cursor, toBlock]`. -/
  | scanned (head cursor toBlock : Nat) (logs : List Log)
  /-- Before `pending_backfills`. -/
  | backfilling (head : Nat)
  /-- At the request of the loop `while at <= to`, with the logs found so
  far. -/
  | fetching (head : Nat) (batch : List PendingBackfill) (toBlock next : Nat) (logs : List Log)
  /-- Before `apply_backfill`, with all logs of the batch. -/
  | fetched (head : Nat) (batch : List PendingBackfill) (logs : List Log)

/-- The head the running sweep read. -/
def Phase.head? : Phase → Option Nat
  | .idle => none
  | .probing => none
  | .forwarding head => some head
  | .scanning head _ => some head
  | .scanned head _ _ _ => some head
  | .backfilling head => some head
  | .fetching head _ _ _ _ => some head
  | .fetched head _ _ => some head

structure Sweeper where
  /-- Current `eth_getLogs` span. -/
  range : Nat
  /-- Largest span the provider is known to accept. -/
  ceiling : Nat
  ceilingSetAt : Nat
  phase : Phase := .idle

/-- The sweeper of a task that just started. -/
def Sweeper.start (chain : ChainSpec) (clock : Nat) : Sweeper where
  range := chain.maxLogRange
  ceiling := chain.maxLogRange
  ceilingSetAt := clock

/-- The upper end of a sweep: `head.saturating_sub(confirmations)`. -/
def ChainSpec.target (chain : ChainSpec) (head : Nat) : Nat := head - chain.confirmations

/-- `shrink_range`: the limit the provider states, or half the span. -/
def Sweeper.shrinkRange (s : Sweeper) (fromBlock toBlock clock : Nat) (error : String) : Sweeper :=
  let span := toBlock - fromBlock + 1
  let range := match rangeLimitHint error with
    | some limit => if limit < span then max limit 1 else max (span / 2) 1
    | none => max (span / 2) 1
  { s with range, ceiling := range, ceilingSetAt := clock }

/-- The span after a chunk went through: the ceiling is probed again after an
hour. -/
def Sweeper.growRange (s : Sweeper) (chain : ChainSpec) (clock : Nat) : Sweeper :=
  let ceiling := if s.ceiling < chain.maxLogRange ∧ 3600 < clock - s.ceilingSetAt then chain.maxLogRange
    else s.ceiling
  { s with ceiling, range := if s.range < ceiling then min (s.range * 2) ceiling else s.range }

/-- The last block of the next chunk from `fromBlock`. -/
def Sweeper.chunkEnd (s : Sweeper) (fromBlock last : Nat) : Nat := min (fromBlock + s.range - 1) last

/-- `BACKFILL_BATCH`. -/
def backfillBatch : Nat := 50

/-- The filter of a batch: the emitters of its tokens and its recipients. -/
def backfillFilter (chain : ChainSpec) (batch : List PendingBackfill) (fromBlock toBlock : Nat) :
    Filter where
  address := ((batch.filterMap fun b =>
    (chain.tokenByAddress b.tokenAddress).map TokenSpec.logAddress).insertionSort
      fun a b => a.toNat ≤ b.toNat).dedup
  eventSignature := TRANSFER_TOPIC
  topic2 := batch.map fun b => intoWord b.paymentAddress
  fromBlock := fromBlock
  toBlock := toBlock

/-- The head of the loop over `cursor < target`. -/
def ChainSpec.scanFrom (chain : ChainSpec) (head cursor : Nat) : Phase :=
  if cursor < chain.target head then .scanning head cursor else .backfilling head

/-- The head of the loop over `at <= to`. -/
def Phase.fetchFrom (head : Nat) (batch : List PendingBackfill) (toBlock next : Nat)
    (logs : List Log) : Phase :=
  if next ≤ toBlock then .fetching head batch toBlock next logs else .fetched head batch logs

/-- The head of the loop of `backfill`: the union of the ranges of a batch,
or the end if nothing is pending. -/
def Phase.ofBatch (head : Nat) (batch : List PendingBackfill) : Phase :=
  match (batch.map PendingBackfill.startBlock).min?, (batch.map PendingBackfill.backfillTo).max? with
  | some fromBlock, some toBlock => .fetchFrom head batch toBlock fromBlock []
  | _, _ => .idle

/-- The request the sweeper is suspended at. -/
def Sweeper.request? (chain : ChainSpec) (s : Sweeper) : Option Filter :=
  match s.phase with
  | .scanning head cursor =>
      some (sweepFilter chain (cursor + 1) (s.chunkEnd (cursor + 1) (chain.target head)))
  | .fetching _ batch toBlock next _ =>
      some (backfillFilter chain batch next (s.chunkEnd next toBlock))
  | _ => none

/-- An answer to the request of the loop over `cursor < target`. -/
def Sweeper.onSweepLogs (s : Sweeper) (chain : ChainSpec) (clock head cursor : Nat) :
    Except RpcError (List Log) → Sweeper
  | .ok logs =>
      { s with phase := .scanned head cursor (s.chunkEnd (cursor + 1) (chain.target head)) logs }
  | .error e =>
      if e.errorClass = .rangeTooLarge ∧ 1 < s.range then
        s.shrinkRange (cursor + 1) (s.chunkEnd (cursor + 1) (chain.target head)) clock e.message
      else if e.errorClass = .aheadOfHead then { s with phase := .backfilling head }
      else { s with phase := .idle }

/-- An answer to the request of the loop over `at <= to`. -/
def Sweeper.onBackfillLogs (s : Sweeper) (clock head : Nat) (batch : List PendingBackfill)
    (toBlock next : Nat) (logs : List Log) : Except RpcError (List Log) → Sweeper
  | .ok found =>
      { s with phase := .fetchFrom head batch toBlock (s.chunkEnd next toBlock + 1) (logs ++ found) }
  | .error e =>
      if e.errorClass = .rangeTooLarge ∧ 1 < s.range then
        s.shrinkRange next (s.chunkEnd next toBlock) clock e.message
      else { s with phase := .idle }

/-! ## An instance -/

/-- The state of one instance, in memory. -/
structure ChainRuntime where
  cache : WatchCache
  hydrated : Bool
  sweeper : Sweeper

/-- A process that just started. -/
def ChainRuntime.new (chain : ChainSpec) (clock : Nat) : ChainRuntime where
  cache := .new
  hydrated := false
  sweeper := .start chain clock

def ChainRuntime.withPhase (rt : ChainRuntime) (phase : Phase) : ChainRuntime :=
  { rt with sweeper := { rt.sweeper with phase } }

/-- Take the watches that `Sweeper::expire` retired out of the cache. -/
def evictExpired (chain : ChainSpec) (cache : WatchCache) (expired : List WatchRow) : WatchCache :=
  expired.foldl (fun cache w =>
    match w.cacheEntry chain with
    | some (key, _) => (cache.remove key w.id).1
    | none => cache) cache

/-- What happens to an instance. -/
inductive Event
  /-- The process is replaced by a new one. -/
  | restart (clock : Nat)
  /-- `bootstrap`, with the head it reads. -/
  | bootstrap (head : Nat)
  /-- `POST /watches`. -/
  | create (id : Uuid) (new : NewWatch)
  /-- `DELETE /watches/{id}`. -/
  | cancel (id : Uuid)
  /-- `handle_log`. -/
  | heard (log : Log)
  /-- The expiry of a parked chain; `locked` are the rows it skips. -/
  | expire (locked : Uuid → Bool)
  /-- A sweep starts, with its own expiry. -/
  | sweep (locked : Uuid → Bool)
  /-- An answer to `block_number`. -/
  | head (reply : Except RpcError Nat)
  /-- An answer to `get_logs`. -/
  | logs (clock : Nat) (reply : Except RpcError (List Log))
  /-- The transaction the sweeper is suspended before. -/
  | proceed (clock : Nat)
  /-- The sweep ends with an error of the database, or is torn down. -/
  | abort
  /-- The database clock moves on. -/
  | tick (elapsed : Nat)

/-- The logs of a successful answer. -/
def Event.answer : Event → List Log
  | .logs _ (.ok found) => found
  | _ => []

namespace ChainRuntime

variable (chain : ChainSpec) (db : Db) (rt : ChainRuntime)

/-- `Sweeper::expire`: errors are logged and swallowed. -/
def expire (locked : Uuid → Bool) : Db × ChainRuntime :=
  match expireWatches db chain 500 locked with
  | .ok (expired, db') => (db', { rt with cache := evictExpired chain rt.cache expired })
  | .error _ => (db, rt)

/-- `create_watch` of the API: a created watch is cached after the commit. -/
def create (id : Uuid) (new : NewWatch) : Db × ChainRuntime :=
  match createWatch db id new with
  | .ok (.created w, db') =>
      match w.cacheEntry chain with
      | some (key, watch) => (db', { rt with cache := (rt.cache.insert key watch).1 })
      | none => (db', rt)
  | .ok (_, db') => (db', rt)
  | .error _ => (db, rt)

/-- `cancel_watch` of the API. -/
def cancel (id : Uuid) : Db × ChainRuntime :=
  match cancelWatch db id with
  | (.ok (some w), db') =>
      match w.cacheEntry chain with
      | some (key, _) => (db', { rt with cache := (rt.cache.remove key id).1 })
      | none => (db', rt)
  | (_, db') => (db', rt)

/-- `handle_log`: a retracted log is left to the next sweep. -/
def heard (log : Log) : Db × ChainRuntime :=
  match matchLog chain rt.cache log with
  | .ok m => if m.removed then (db, rt) else (committed db (recordPending db chain m), rt)
  | .error _ => (db, rt)

/-- `bootstrap`, after its checks of the configuration. -/
def bootstrap (head : Nat) : Db × ChainRuntime :=
  let db' := (ensureCursor db chain.chainId head).2
  (db', { rt with
    cache := (hydrate db' chain).foldl (fun cache e => (cache.insert e.1 e.2).1) rt.cache
    hydrated := true })

/-- The transactions of a sweep. -/
def proceed (clock : Nat) : Db × ChainRuntime :=
  match rt.sweeper.phase with
  | .forwarding head =>
      match fastForwardCursor db chain.chainId (chain.target head) with
      | .ok (cursor, db') => (db', rt.withPhase (chain.scanFrom head cursor))
      | .error _ => (db, rt.withPhase .idle)
  | .scanned head cursor toBlock logs =>
      match applySweep db chain rt.cache cursor toBlock logs with
      | (cache, .ok (.applied _, db')) =>
          (db', { rt with
            cache
            sweeper := { rt.sweeper.growRange chain clock with phase := chain.scanFrom head toBlock } })
      -- two instances believe they lead: yield, without backfills
      | (cache, .ok (.cursorMoved _ _, db')) => (db', { rt with cache }.withPhase .idle)
      | (cache, .error _) => (db, { rt with cache }.withPhase .idle)
  | .backfilling head =>
      (db, rt.withPhase (.ofBatch head (pendingBackfills db chain.chainId backfillBatch)))
  | .fetched head batch logs =>
      match applyBackfill db chain rt.cache batch logs with
      | (cache, .ok (_, db')) =>
          (db', { rt with cache }.withPhase
            (if batch.length < backfillBatch then .idle else .backfilling head))
      | (cache, .error _) => (db, { rt with cache }.withPhase .idle)
  | _ => (db, rt)

/-- An answer of the provider to `get_logs`. -/
def onLogs (clock : Nat) (reply : Except RpcError (List Log)) : ChainRuntime :=
  match rt.sweeper.phase with
  | .scanning head cursor =>
      { rt with sweeper := rt.sweeper.onSweepLogs chain clock head cursor reply }
  | .fetching head batch toBlock next logs =>
      { rt with sweeper := rt.sweeper.onBackfillLogs clock head batch toBlock next logs reply }
  | _ => rt

/-- An answer of the provider to `block_number`. -/
def onHead (reply : Except RpcError Nat) : ChainRuntime :=
  match rt.sweeper.phase, reply with
  | .probing, .ok head => rt.withPhase (.forwarding head)
  | .probing, .error _ => rt.withPhase .idle
  | _, _ => rt

/-- One event.  Requests are refused and no sweep runs before the first
`bootstrap`. -/
def step : Event → Db × ChainRuntime
  | .restart clock => (db, .new chain clock)
  | .bootstrap head => if rt.hydrated then (db, rt) else bootstrap chain db rt head
  | .create id new =>
      if rt.hydrated ∧ new.chainId = chain.chainId then create chain db rt id new else (db, rt)
  | .cancel id =>
      if (db.watches.get? id).any fun w => w.chainId = chain.chainId then cancel chain db rt id
      else (db, rt)
  | .heard log => if rt.hydrated then heard chain db rt log else (db, rt)
  | .expire locked =>
      match rt.hydrated, rt.sweeper.phase with
      | true, .idle => expire chain db rt locked
      | _, _ => (db, rt)
  | .sweep locked =>
      match rt.hydrated, rt.sweeper.phase with
      | true, .idle =>
          let (db', rt') := expire chain db rt locked
          (db', rt'.withPhase .probing)
      | _, _ => (db, rt)
  | .head reply => (db, rt.onHead reply)
  | .logs clock reply => (db, rt.onLogs chain clock reply)
  | .proceed clock => proceed chain db rt clock
  | .abort => (db, rt.withPhase .idle)
  | .tick elapsed => ({ db with now := db.now + elapsed }, rt)

end ChainRuntime

/-! ## Transactions -/

section Transactions

variable (chain : ChainSpec) (db : Db) (rt : ChainRuntime)

/-- The transaction an event runs. -/
inductive Runs : Event → Op → Prop
  | bootstrap {head : Nat} (first : rt.hydrated = false) :
      Runs (.bootstrap head) (.ensureCursor chain.chainId head)
  | create {id : Uuid} {new : NewWatch} (ready : rt.hydrated = true) (home : new.chainId = chain.chainId) :
      Runs (.create id new) (.createWatch id new)
  | cancel {id : Uuid} {w : Watch} (found : db.watches.get? id = some w)
      (home : w.chainId = chain.chainId) : Runs (.cancel id) (.cancelWatch id)
  | heard {log : Log} {m : MatchedTransfer} (matched : matchLog chain rt.cache log = .ok m)
      (kept : m.removed = false) : Runs (.heard log) (.recordPending chain m)
  | expire {locked : Uuid → Bool} : Runs (.expire locked) (.expireWatches chain 500 locked)
  | sweep {locked : Uuid → Bool} : Runs (.sweep locked) (.expireWatches chain 500 locked)
  | fastForward {head clock : Nat} (phase : rt.sweeper.phase = .forwarding head) :
      Runs (.proceed clock) (.fastForwardCursor chain.chainId (chain.target head))
  | applySweep {head cursor toBlock clock : Nat} {logs : List Log}
      (phase : rt.sweeper.phase = .scanned head cursor toBlock logs) :
      Runs (.proceed clock) (.applySweep chain rt.cache cursor toBlock logs)
  | applyBackfill {head clock : Nat} {batch : List PendingBackfill} {logs : List Log}
      (phase : rt.sweeper.phase = .fetched head batch logs) :
      Runs (.proceed clock) (.applyBackfill chain rt.cache batch logs)
  | tick {elapsed : Nat} : Runs (.tick elapsed) (.tick elapsed)

/-- The event leaves the database alone, or runs its transaction. -/
inductive Commits (e : Event) (db' : Db) : Prop
  | nothing (same : db' = db)
  | transaction {op : Op} (runs : Runs chain db rt e op) (eq : db' = exec db op)

variable {chain db rt}

/-- The expiry of a runtime is that of the store. -/
theorem expire_db (locked : Uuid → Bool) :
    (ChainRuntime.expire chain db rt locked).1 = exec db (.expireWatches chain 500 locked) := by
  simp only [ChainRuntime.expire, exec]
  cases expireWatches db chain 500 locked <;> rfl

/-- So is its registration. -/
theorem create_db (id : Uuid) (new : NewWatch) :
    (ChainRuntime.create chain db rt id new).1 = exec db (.createWatch id new) := by
  simp only [ChainRuntime.create, exec]
  cases createWatch db id new with
  | error e => rfl
  | ok r =>
      obtain ⟨out, db'⟩ := r
      cases out with
      | created w => cases hc : w.cacheEntry chain <;> simp [hc, committed]
      | existing w => rfl
      | conflict w => rfl

/-- And so is its cancellation. -/
theorem cancel_db (id : Uuid) : (ChainRuntime.cancel chain db rt id).1 = exec db (.cancelWatch id) := by
  simp only [ChainRuntime.cancel, exec]
  obtain ⟨r, db'⟩ := cancelWatch db id
  cases r with
  | error e => rfl
  | ok r =>
      cases r with
      | none => rfl
      | some w => cases hc : w.cacheEntry chain <;> simp [hc]

/-- What going on commits. -/
theorem commits_proceed (clock : Nat) :
    Commits chain db rt (.proceed clock) (ChainRuntime.proceed chain db rt clock).1 := by
  unfold ChainRuntime.proceed
  cases hphase : rt.sweeper.phase with
  | forwarding head =>
      refine .transaction (.fastForward hphase) ?_
      simp only [exec]
      cases fastForwardCursor db chain.chainId (chain.target head) <;> rfl
  | scanned head cursor toBlock logs =>
      refine .transaction (.applySweep hphase) ?_
      simp only [exec]
      rcases applySweep_cases db chain rt.cache cursor toBlock logs with
        ⟨tx, db', -, -, -, he⟩ | ⟨actual, -, he⟩ | he | ⟨e, -, he⟩ <;> rw [he] <;> rfl
  | fetched head batch logs =>
      refine .transaction (.applyBackfill hphase) ?_
      simp only [exec]
      obtain ⟨cache, r⟩ := applyBackfill db chain rt.cache batch logs
      cases r <;> rfl
  | _ => exact .nothing rfl

/-- **What an event does to the database is its transaction.** -/
theorem step_commits (e : Event) : Commits chain db rt e (rt.step chain db e).1 := by
  cases e with
  | bootstrap head =>
      simp only [ChainRuntime.step]
      split
      · exact .nothing rfl
      · next h => exact .transaction (.bootstrap (by simpa using h)) rfl
  | create id new =>
      simp only [ChainRuntime.step]
      split
      · next h => exact .transaction (.create h.1 h.2) (create_db id new)
      · exact .nothing rfl
  | cancel id =>
      simp only [ChainRuntime.step]
      split
      · next h =>
          obtain ⟨w, hw, hhome⟩ := (Option.any_eq_true ..).mp h
          exact .transaction (.cancel hw (by simpa using hhome)) (cancel_db id)
      · exact .nothing rfl
  | heard log =>
      simp only [ChainRuntime.step, ChainRuntime.heard]
      split
      · split
        · next hm =>
            split
            · exact .nothing rfl
            · next hr => exact .transaction (.heard hm (by simpa using hr)) rfl
        · exact .nothing rfl
      · exact .nothing rfl
  | expire locked =>
      simp only [ChainRuntime.step]
      split
      · exact .transaction .expire (expire_db locked)
      · exact .nothing rfl
  | sweep locked =>
      simp only [ChainRuntime.step]
      split
      · exact .transaction .sweep (expire_db locked)
      · exact .nothing rfl
  | proceed clock => exact commits_proceed clock
  | tick elapsed => exact .transaction .tick rfl
  | restart _ | head _ | logs _ _ | abort => exact .nothing rfl

end Transactions

/-! ## Turns of the sweeper -/

section Turns

variable (chain : ChainSpec) (db : Db) (rt : ChainRuntime)

/-- What an event may make of the phase, with what it found on the way. -/
inductive Resumes : Event → Phase → Prop
  /-- The event is not for the sweeper. -/
  | stays {e : Event} (h : ∀ clock, e = .proceed clock → ∀ op, ¬ Runs chain db rt e op) :
      Resumes e rt.sweeper.phase
  /-- The sweep is over, or failed. -/
  | stops {e : Event} : Resumes e .idle
  | starts {locked : Uuid → Bool} : Resumes (.sweep locked) .probing
  | head {head : Nat} (phase : rt.sweeper.phase = .probing) :
      Resumes (.head (.ok head)) (.forwarding head)
  | forwarded {head cursor clock : Nat} {db' : Db} (phase : rt.sweeper.phase = .forwarding head)
      (ok : fastForwardCursor db chain.chainId (chain.target head) = .ok (cursor, db')) :
      Resumes (.proceed clock) (chain.scanFrom head cursor)
  | scanned {head cursor clock : Nat} {logs : List Log} (phase : rt.sweeper.phase = .scanning head cursor) :
      Resumes (.logs clock (.ok logs))
        (.scanned head cursor (rt.sweeper.chunkEnd (cursor + 1) (chain.target head)) logs)
  | ahead {head cursor clock : Nat} {e : RpcError} (phase : rt.sweeper.phase = .scanning head cursor) :
      Resumes (.logs clock (.error e)) (.backfilling head)
  | swept {head cursor toBlock clock : Nat} {logs : List Log} {cache : WatchCache} {out : SweepOutcome}
      {db' : Db} (phase : rt.sweeper.phase = .scanned head cursor toBlock logs)
      (ok : applySweep db chain rt.cache cursor toBlock logs = (cache, .ok (.applied out, db'))) :
      Resumes (.proceed clock) (chain.scanFrom head toBlock)
  | batch {head clock : Nat} (phase : rt.sweeper.phase = .backfilling head) :
      Resumes (.proceed clock) (.ofBatch head (pendingBackfills db chain.chainId backfillBatch))
  | fetched {head toBlock next clock : Nat} {batch : List PendingBackfill} {logs found : List Log}
      (phase : rt.sweeper.phase = .fetching head batch toBlock next logs) :
      Resumes (.logs clock (.ok found))
        (.fetchFrom head batch toBlock (rt.sweeper.chunkEnd next toBlock + 1) (logs ++ found))
  | backfilled {head clock : Nat} {batch : List PendingBackfill} {logs : List Log} {cache : WatchCache}
      {out : SweepOutcome} {db' : Db} (phase : rt.sweeper.phase = .fetched head batch logs)
      (ok : applyBackfill db chain rt.cache batch logs = (cache, .ok (out, db'))) :
      Resumes (.proceed clock) (.backfilling head)

variable {chain db rt}

/-- An expiry leaves the sweeper alone. -/
theorem phase_expire (locked : Uuid → Bool) :
    (ChainRuntime.expire chain db rt locked).2.sweeper = rt.sweeper := by
  unfold ChainRuntime.expire
  split <;> rfl

/-- Where going on leads to. -/
theorem resumes_proceed (clock : Nat) :
    Resumes chain db rt (.proceed clock) (ChainRuntime.proceed chain db rt clock).2.sweeper.phase := by
  unfold ChainRuntime.proceed
  cases hphase : rt.sweeper.phase with
  | forwarding head =>
      simp only
      split
      · next hok => exact .forwarded hphase hok
      · exact .stops
  | scanned head cursor toBlock logs =>
      simp only
      split
      · next hok => exact .swept hphase hok
      · exact .stops
      · exact .stops
  | backfilling head => exact .batch hphase
  | fetched head batch logs =>
      simp only
      split
      · next hok =>
          by_cases hlen : batch.length < backfillBatch
          · simp only [if_pos hlen]
            exact .stops
          · simp only [if_neg hlen]
            exact .backfilled hphase hok
      · exact .stops
  | _ =>
      refine .stays fun _ _ op hruns => ?_
      cases hruns <;> simp_all

/-- Where an answer leads to. -/
theorem resumes_logs (clock : Nat) (reply : Except RpcError (List Log)) :
    Resumes chain db rt (.logs clock reply) (rt.onLogs chain clock reply).sweeper.phase := by
  have hstays : Resumes chain db rt (.logs clock reply) rt.sweeper.phase := .stays (by simp)
  unfold ChainRuntime.onLogs
  cases hphase : rt.sweeper.phase with
  | scanning head cursor =>
      simp only
      cases reply with
      | ok logs => exact .scanned hphase
      | error e =>
          simp only [Sweeper.onSweepLogs]
          split
          · exact hstays
          · split
            · exact .ahead hphase
            · exact .stops
  | fetching head batch toBlock next logs =>
      simp only
      cases reply with
      | ok found => exact .fetched hphase
      | error e =>
          simp only [Sweeper.onBackfillLogs]
          split
          · exact hstays
          · exact .stops
  | _ => simpa only using hstays

/-- The events that are not for the sweeper. -/
def Event.Aside : Event → Prop
  | .bootstrap _ => True
  | .create _ _ => True
  | .cancel _ => True
  | .heard _ => True
  | .expire _ => True
  | .tick _ => True
  | _ => False

/-- An event that is not about the sweep leaves the sweeper alone. -/
theorem sweeper_step_of_aside {e : Event} (aside : e.Aside) :
    (rt.step chain db e).2.sweeper = rt.sweeper := by
  cases e with
  | bootstrap head =>
      simp only [ChainRuntime.step]
      split <;> rfl
  | create id new =>
      simp only [ChainRuntime.step, ChainRuntime.create]
      split
      · split
        · split <;> rfl
        · rfl
        · rfl
      · rfl
  | cancel id =>
      simp only [ChainRuntime.step, ChainRuntime.cancel]
      split
      · split
        · split <;> rfl
        · rfl
      · rfl
  | heard log =>
      simp only [ChainRuntime.step, ChainRuntime.heard]
      split
      · split
        · split <;> rfl
        · rfl
      · rfl
  | expire locked =>
      simp only [ChainRuntime.step]
      split
      · exact phase_expire locked
      · rfl
  | tick elapsed => rfl
  | _ => cases aside

/-- **Every event resumes the sweeper in one of these ways.** -/
theorem step_resumes (e : Event) : Resumes chain db rt e (rt.step chain db e).2.sweeper.phase := by
  cases e with
  | restart clock => exact .stops
  | bootstrap _ | create _ _ | cancel _ | heard _ | expire _ | tick _ =>
      rw [sweeper_step_of_aside (by trivial)]
      exact .stays (by simp)
  | sweep locked =>
      simp only [ChainRuntime.step]
      split
      · exact .starts
      · exact .stays (by simp)
  | head reply =>
      simp only [ChainRuntime.step, ChainRuntime.onHead]
      split
      · next hphase => exact .head hphase
      · exact .stops
      · exact .stays (by simp)
  | logs clock reply => exact resumes_logs clock reply
  | proceed clock => exact resumes_proceed clock
  | abort => exact .stops

end Turns

end GumIndexer
