import GumIndexer.Chunking

/-!
# GumIndexer.Cluster

Several instances on one database, and what a sweep knows of the watches.

A registration draws `watches.seq` early in its transaction and commits later,
so the numbers do not come in the order of the commits; until then it holds the
row of the cursor `FOR SHARE`, and no sweep, which takes it `FOR UPDATE`, gets
in between.  An instance learns of a watch by its own registration, by a
`NOTIFY`, by hydration, and by the delta load of a sweep.  In all of them an
entry is read at one time and put into the cache at another: a sweep binds
`last_seq`, waits for the rows above it and puts them into the cache one by
one, while other tasks go on writing to it.  `WatchCache::insert` itself raises
`last_seq` before it writes to the map.

`Refreshes` says what a step may put under a key.  `delta_load_complete` says
when a sweep has every active watch once its rows are in: if `last_seq` was a
watermark when it was bound, below which the cache had every active watch, and
if nothing about a retired watch is put into the cache while the sweep is at it.
Nothing in the code makes sure of either.
-/

namespace GumIndexer

open Base

variable {db : Db} {chain : ChainSpec} {cache : WatchCache}

/-! ## Entries -/

/-- The entry under `key` is of the watch `id`. -/
def WatchCache.Names (cache : WatchCache) (key : WatchKey) (id : Uuid) : Prop :=
  (cache.get key).map WatchRef.id = some id

instance (key : WatchKey) (id : Uuid) : Decidable (cache.Names key id) :=
  inferInstanceAs (Decidable (_ = _))

/-- Every active watch of a configured token is under its key. -/
def WatchCache.Complete (cache : WatchCache) (db : Db) (chain : ChainSpec) : Prop :=
  ∀ w ∈ db.watches.rows, w.chainId = chain.chainId → w.status = .active →
    ∀ e ∈ slimEntry chain w, cache.Names e.1 w.id

instance : Decidable (cache.Complete db chain) := inferInstanceAs (Decidable (∀ w ∈ _, _))

/-- `last_seq` is a watermark: the active watches up to it are in the cache. -/
def WatchCache.Marked (cache : WatchCache) (db : Db) (chain : ChainSpec) : Prop :=
  ∀ w ∈ db.watches.rows, w.chainId = chain.chainId → w.status = .active →
    w.seq ≤ cache.lastSeq → ∀ e ∈ slimEntry chain w, cache.Names e.1 w.id

instance : Decidable (cache.Marked db chain) := inferInstanceAs (Decidable (∀ w ∈ _, _))

/-- The watch is active. -/
def Db.Active (db : Db) (id : Uuid) : Prop := db.statusOf id = some .active

instance (id : Uuid) : Decidable (db.Active id) := inferInstanceAs (Decidable (_ = _))

/-- The watch is not active, and will not be again. -/
def Db.Retired (db : Db) (id : Uuid) : Prop :=
  ∃ w, db.watches.get? id = some w ∧ w.status ≠ .active

/-- An entry of an active id is the entry of its watch. -/
theorem Db.HasEntry.active_watch {key : WatchKey} {ref : WatchRef} (h : db.HasEntry chain key ref)
    (active : db.Active ref.id) : ∃ w, db.watches.get? w.id = some w ∧ w.chainId = chain.chainId ∧
      w.status = .active ∧ slimEntry chain w = some (key, ref) := by
  obtain ⟨w, hw, home, hentry⟩ := h
  refine ⟨w, hw, home, ?_, hentry⟩
  unfold Db.Active Db.statusOf at active
  rw [slimEntry_ref hentry, hw] at active
  exact Option.some.inj active

/-- Two active watches with entries under one key are the same. -/
theorem Sound.entry_unique {u w : Watch} {key : WatchKey} {ref ref' : WatchRef} (inv : Sound db)
    (hu : db.watches.get? u.id = some u) (hw : db.watches.get? w.id = some w)
    (huhome : u.chainId = chain.chainId) (home : w.chainId = chain.chainId)
    (huactive : u.status = .active) (active : w.status = .active)
    (huentry : slimEntry chain u = some (key, ref)) (hentry : slimEntry chain w = some (key, ref')) :
    u = w :=
  inv.active_unique hu hw huactive active (slimEntry_shares (huhome.trans home.symm) huentry hentry)

/-- What is retired stays so over a trace. -/
theorem Db.Retired.trace {db' : Db} {acts : List Act} {id : Uuid} (h : db.Retired id)
    (htr : Trace Step db acts db') : db'.Retired id := by
  obtain ⟨w, hw, hstatus⟩ := h
  obtain rfl := Table.key_of_get? hw
  obtain ⟨w', hw', hlater⟩ := htr.invariant (Db.Retains · w) (fun _ _ _ => Db.Retains.step)
    (Db.Retains.of_get? hw)
  exact ⟨w', hw', fun ha => hstatus (hlater.active ha)⟩

/-- An entry stays the entry of its watch over a trace. -/
theorem Db.HasEntry.trace {db' : Db} {acts : List Act} {key : WatchKey} {ref : WatchRef}
    (h : db.HasEntry chain key ref) (htr : Trace Step db acts db') : db'.HasEntry chain key ref := by
  obtain ⟨w, hw, home, hentry⟩ := h
  obtain ⟨w', hw', hlater⟩ := htr.invariant (Db.Retains · w) (fun _ _ _ => Db.Retains.step)
    (Db.Retains.of_get? hw)
  refine ⟨w', ?_, hlater.same.chainId.trans home, (slimEntry_of_same hlater.same).trans hentry⟩
  rw [hlater.same.id]
  exact hw'

/-! ## The instances -/

/-- An entry that an instance has read and not yet put into its cache. -/
structure Held where
  node : Nat
  key : WatchKey
  ref : WatchRef
deriving DecidableEq, Repr

/-- A sweep that has the row of the cursor `FOR UPDATE`, up to its matching. -/
structure Loading where
  node : Nat
  /-- `last_seq`, when it was bound to the query. -/
  bound : Nat
  /-- What the query returned and is still to be put into the cache. -/
  rows : Option (List (WatchKey × WatchRef)) := none
  discovered : List WatchKey := []
deriving DecidableEq, Repr

/-- Instances of the indexer on one chain, sharing a database. -/
structure Cluster where
  db : Db := .empty
  caches : Nat → WatchCache := fun _ => .new
  /-- The numbers of the registrations on the chain that have not committed. -/
  drawn : List Nat := []
  held : List Held := []
  loading : Option Loading := none

inductive ClusterStep
  | draw
  | commit (i : Nat) (id : Uuid) (new : NewWatch)
  | rollBack (i : Nat)
  | load (node : Nat) (id : Uuid)
  | hydrate (node : Nat)
  | raise (i : Nat)
  | insert (i : Nat)
  | lose (i : Nat)
  | remove (node : Nat) (id : Uuid)
  | restart (node : Nat)
  | bind (node expectedCursor : Nat)
  | query
  | fill
  | finish (toBlock : Nat) (logs : List Log)
  | abandon
  | fastForward (target : Nat)
  | store (op : Op)

/-- The operations that the other steps do not stand for. -/
def Op.Elsewhere (chain : ChainSpec) : Op → Prop
  | .createWatch _ new => new.chainId ≠ chain.chainId
  | .commitWatch _ _ new => new.chainId ≠ chain.chainId
  | .applySweep other _ _ _ _ => other.chainId ≠ chain.chainId
  | .fastForwardCursor chainId _ => chainId ≠ chain.chainId
  | _ => True

instance (chain : ChainSpec) : (op : Op) → Decidable (op.Elsewhere chain)
  | .createWatch _ _ => inferInstanceAs (Decidable (_ ≠ _))
  | .commitWatch _ _ _ => inferInstanceAs (Decidable (_ ≠ _))
  | .applySweep _ _ _ _ _ => inferInstanceAs (Decidable (_ ≠ _))
  | .fastForwardCursor _ _ => inferInstanceAs (Decidable (_ ≠ _))
  | .ensureCursor _ _ => isTrue trivial
  | .applyBackfill _ _ _ _ => isTrue trivial
  | .cancelWatch _ => isTrue trivial
  | .expireWatches _ _ _ => isTrue trivial
  | .recordPending _ _ => isTrue trivial
  | .tick _ => isTrue trivial
  | .draw _ => isTrue trivial

/-- An operation for other chains registers no watch here. -/
theorem Op.Elsewhere.creates {op : Op} {id : Uuid} {new : NewWatch} (h : op.Elsewhere chain)
    (creates : op.Creates id new) : new.chainId ≠ chain.chainId := by
  cases op <;> try contradiction
  all_goals
    obtain ⟨rfl, rfl⟩ := creates
    exact h

namespace Cluster

variable (chain : ChainSpec) (c : Cluster)

def withCache (node : Nat) (cache : WatchCache) : Cluster :=
  { c with caches := Function.update c.caches node cache }

/-- A registration takes the row of the cursor `FOR SHARE`, unless a sweep has
it, and draws its number; the sequence moves on whether it commits or not. -/
def draw : Cluster :=
  match c.loading with
  | none => { c with db := exec c.db (.draw 1), drawn := c.drawn ++ [c.db.watchesSeq + 1] }
  | some _ => c

/-- The `INSERT` with the number that was drawn, and the commit.  The cursor is
still what it was: no sweep ran in between. -/
def commit (i : Nat) (id : Uuid) (new : NewWatch) : Cluster :=
  match c.drawn[i]? with
  | some seq =>
      if new.chainId = chain.chainId then
        { c with db := exec c.db (.commitWatch seq id new), drawn := c.drawn.eraseIdx i }
      else c
  | none => c

/-- An instance reads a watch: the row of its own registration, or
`load_watch_entry` for a `NOTIFY`. -/
def load (node : Nat) (id : Uuid) : Cluster :=
  match loadWatchEntry c.db chain id with
  | some (key, ref) => { c with held := c.held ++ [⟨node, key, ref⟩] }
  | none => c

/-- The rows that `hydrate` streams. -/
def hydrate (node : Nat) : Cluster :=
  { c with held := c.held ++ (GumIndexer.hydrate c.db chain).map fun e => ⟨node, e.1, e.2⟩ }

/-- `WatchCache::insert` up to the write to the map. -/
def raise (i : Nat) : Cluster :=
  match c.held[i]? with
  | some e => c.withCache e.node ⟨(c.caches e.node).map, max (c.caches e.node).lastSeq e.ref.seq⟩
  | none => c

/-- `WatchCache::insert`. -/
def insert (i : Nat) : Cluster :=
  match c.held[i]? with
  | some e =>
      { c.withCache e.node ((c.caches e.node).insert e.key e.ref).1 with held := c.held.eraseIdx i }
  | none => c

/-- A watch that is no longer active leaves the cache: it was cancelled, it
expired, or a sweep or a backfill that has committed completed it. -/
def remove (node : Nat) (id : Uuid) : Cluster :=
  match c.db.watches.get? id with
  | some w =>
      match w.status, slimEntry chain w with
      | .active, _ => c
      | _, some (key, _) => c.withCache node ((c.caches node).remove key id).1
      | _, none => c
  | none => c

/-- The process comes back with an empty cache, and a sweep of its is rolled
back. -/
def restart (node : Nat) : Cluster :=
  { c.withCache node .new with
    held := c.held.filter fun e => e.node ≠ node
    loading := c.loading.filter fun l => l.node ≠ node }

/-- A sweep gets as far as its delta load: it has the row of the cursor
`FOR UPDATE`, and nobody moved the cursor. -/
def Loads (expectedCursor : Nat) : Prop :=
  c.drawn = [] ∧ c.loading = none ∧ c.db.CursorAt chain.chainId expectedCursor

instance (expectedCursor : Nat) : Decidable (c.Loads chain expectedCursor) :=
  inferInstanceAs (Decidable (_ ∧ _ ∧ _))

/-- The sweep binds `last_seq` to its query. -/
def bind (node expectedCursor : Nat) : Cluster :=
  if c.Loads chain expectedCursor then
    { c with loading := some { node, bound := (c.caches node).lastSeq } }
  else c

/-- The query returns. -/
def query : Cluster :=
  match c.loading with
  | some ⟨node, bound, none, discovered⟩ =>
      let rows := (activeRows c.db chain bound).filterMap (slimEntry chain)
      { c with loading := some ⟨node, bound, some rows, discovered⟩ }
  | _ => c

/-- The next row of the delta load. -/
def fill : Cluster :=
  match c.loading with
  | some ⟨node, bound, some (e :: rows), discovered⟩ =>
      let (cache, discovered) := loadEntry (c.caches node, discovered) e
      { c.withCache node cache with loading := some ⟨node, bound, some rows, discovered⟩ }
  | _ => c

/-- The sweep goes on from its delta load to its commit.  What it completed
leaves the cache afterwards, by `remove`. -/
def finish (toBlock : Nat) (logs : List Log) : Cluster :=
  match c.loading with
  | some ⟨node, _, some [], discovered⟩ =>
      match sweepRest c.db chain (c.caches node) discovered toBlock logs with
      | .ok (_, db) => { c with db, loading := none }
      | .error _ => { c with loading := none }
  | _ => c

/-- `fast_forward_cursor` takes the row of the cursor as a sweep does. -/
def fastForward (target : Nat) : Cluster :=
  if c.drawn = [] ∧ c.loading = none then
    { c with db := exec c.db (.fastForwardCursor chain.chainId target) }
  else c

/-- One step of one of the instances. -/
def step : ClusterStep → Cluster
  | .draw => c.draw
  | .commit i id new => c.commit chain i id new
  | .rollBack i => { c with drawn := c.drawn.eraseIdx i }
  | .load node id => c.load chain node id
  | .hydrate node => c.hydrate chain node
  | .raise i => c.raise i
  | .insert i => c.insert i
  | .lose i => { c with held := c.held.eraseIdx i }
  | .remove node id => c.remove chain node id
  | .restart node => c.restart node
  | .bind node expectedCursor => c.bind chain node expectedCursor
  | .query => c.query chain
  | .fill => c.fill
  | .finish toBlock logs => c.finish chain toBlock logs
  | .abandon => { c with loading := none }
  | .fastForward target => c.fastForward chain target
  | .store op => if op.Elsewhere chain then { c with db := exec c.db op } else c

/-- What a step may do to the cluster. -/
inductive Effect : ClusterStep → Cluster → Prop
  | idle {i : ClusterStep} (alive : ∀ node, i ≠ .restart node) : Effect i c
  | draws (free : c.loading = none) :
      Effect .draw
        { c with db := exec c.db (.draw 1), drawn := c.drawn ++ [c.db.watchesSeq + 1] }
  | registers {i seq : Nat} {id : Uuid} {new : NewWatch} (drawn : c.drawn[i]? = some seq) :
      Effect (.commit i id new)
        { c with db := exec c.db (.commitWatch seq id new), drawn := c.drawn.eraseIdx i }
  | rollsBack {i : Nat} : Effect (.rollBack i) { c with drawn := c.drawn.eraseIdx i }
  | reads {i : ClusterStep} {es : List Held} (alive : ∀ node, i ≠ .restart node)
      (entries : ∀ e ∈ es, c.db.HasEntry chain e.key e.ref) :
      Effect i { c with held := c.held ++ es }
  | raises {i : Nat} {e : Held} :
      Effect (.raise i)
        (c.withCache e.node ⟨(c.caches e.node).map, max (c.caches e.node).lastSeq e.ref.seq⟩)
  | inserts {i : Nat} {e : Held} (held : c.held[i]? = some e) :
      Effect (.insert i)
        { c.withCache e.node ((c.caches e.node).insert e.key e.ref).1 with
          held := c.held.eraseIdx i }
  | loses {i : Nat} : Effect (.lose i) { c with held := c.held.eraseIdx i }
  | removes {node : Nat} {id : Uuid} {key : WatchKey} (retired : c.db.Retired id) :
      Effect (.remove node id) (c.withCache node ((c.caches node).remove key id).1)
  | restarts {node : Nat} : Effect (.restart node) (c.restart node)
  | binds {node expectedCursor : Nat} (loads : c.Loads chain expectedCursor) :
      Effect (.bind node expectedCursor)
        { c with loading := some { node, bound := (c.caches node).lastSeq } }
  | queries {node bound : Nat} {discovered : List WatchKey}
      (loading : c.loading = some ⟨node, bound, none, discovered⟩) :
      Effect .query { c with loading := some ⟨node, bound,
        some ((activeRows c.db chain bound).filterMap (slimEntry chain)), discovered⟩ }
  | fills {node bound : Nat} {key : WatchKey} {ref : WatchRef}
      {rows : List (WatchKey × WatchRef)} {discovered discovered' : List WatchKey}
      (loading : c.loading = some ⟨node, bound, some ((key, ref) :: rows), discovered⟩) :
      Effect .fill { c.withCache node ((c.caches node).insert key ref).1 with
        loading := some ⟨node, bound, some rows, discovered'⟩ }
  | commits {node toBlock : Nat} {discovered : List WatchKey} {logs : List Log}
      {out : SweepOutcome} {db : Db}
      (rest : sweepRest c.db chain (c.caches node) discovered toBlock logs = .ok (out, db)) :
      Effect (.finish toBlock logs) { c with db, loading := none }
  | ends {i : ClusterStep} : Effect i { c with loading := none }
  | runs {i : ClusterStep} {op : Op} (alive : ∀ node, i ≠ .restart node)
      (elsewhere : ∀ id new, op.Creates id new → new.chainId ≠ chain.chainId) :
      Effect i { c with db := exec c.db op }

/-- An entry of a row that is there. -/
theorem hasEntry_of_active {key : WatchKey} {ref : WatchRef} {lastSeq : Nat}
    (h : (key, ref) ∈ (activeRows db chain lastSeq).filterMap (slimEntry chain)) :
    db.HasEntry chain key ref := by
  obtain ⟨w, hw, home, -, -, hentry⟩ := mem_deltaEntries.mp h
  exact ⟨w, hw, home, hentry⟩

/-- What `load_watch_entry` returns is the entry of a watch. -/
theorem hasEntry_of_load {key : WatchKey} {ref : WatchRef} {id : Uuid}
    (h : loadWatchEntry db chain id = some (key, ref)) : db.HasEntry chain key ref := by
  unfold loadWatchEntry at h
  split at h
  · rename_i w hw
    split at h
    · rename_i hon
      obtain rfl := Table.key_of_get? hw
      exact ⟨w, hw, hon.1, h⟩
    · contradiction
  · contradiction

/-- **What each step does.** -/
theorem step_effect (i : ClusterStep) : Effect chain c i (c.step chain i) := by
  cases i with
  | draw =>
      rw [step, draw]
      split
      · exact .draws ‹_›
      · exact .idle (by simp)
  | commit i id new =>
      rw [step, commit]
      split
      · split
        · exact .registers ‹_›
        · exact .idle (by simp)
      · exact .idle (by simp)
  | rollBack i => exact .rollsBack
  | load node id =>
      rw [step, load]
      split
      · rename_i key ref hload
        refine .reads (by simp) fun e he => ?_
        rw [List.mem_singleton.mp he]
        exact hasEntry_of_load chain hload
      · exact .idle (by simp)
  | hydrate node =>
      refine .reads (by simp) fun e he => ?_
      obtain ⟨entry, hentry, rfl⟩ := List.mem_map.mp he
      exact hasEntry_of_active chain hentry
  | raise i =>
      rw [step, raise]
      split
      · exact .raises
      · exact .idle (by simp)
  | insert i =>
      rw [step, insert]
      split
      · exact .inserts ‹_›
      · exact .idle (by simp)
  | lose i => exact .loses
  | remove node id =>
      rw [step, remove]
      split
      · rename_i w hw
        split
        · exact .idle (by simp)
        · refine .removes ⟨w, hw, fun ha => ?_⟩
          simp_all
        · exact .idle (by simp)
      · exact .idle (by simp)
  | restart node => exact .restarts
  | bind node expectedCursor =>
      rw [step, bind]
      split
      · exact .binds ‹_›
      · exact .idle (by simp)
  | query =>
      rw [step, query]
      split
      · exact .queries ‹_›
      · exact .idle (by simp)
  | fill =>
      rw [step, fill]
      split
      · exact .fills ‹_›
      · exact .idle (by simp)
  | finish toBlock logs =>
      rw [step, finish]
      split
      · split
        · exact .commits ‹_›
        · exact .ends
      · exact .idle (by simp)
  | abandon => exact .ends
  | fastForward target =>
      rw [step, fastForward]
      split
      · exact @Effect.runs _ _ _ (.fastForwardCursor chain.chainId target) (by simp)
          fun _ _ creates => creates.elim
      · exact .idle (by simp)
  | store op =>
      rw [step]
      split
      · exact .runs (by simp) fun _ _ creates => Op.Elsewhere.creates ‹_› creates
      · exact .idle (by simp)

/-! ## The database -/

/-- **Every step is at most one transaction.** -/
theorem step_trace (i : ClusterStep) :
    ∃ acts, Trace Step c.db acts (c.step chain i).db := by
  have hexec : ∀ op, ∃ acts, Trace Step c.db acts (exec c.db op) := fun op => by
    obtain ⟨acts, htr, -⟩ := exec_trace c.db op
    exact ⟨acts, htr⟩
  have heffect := step_effect chain c i
  generalize c.step chain i = c' at heffect ⊢
  cases heffect with
  | draws _ => exact hexec (.draw 1)
  | registers _ => exact hexec (.commitWatch _ _ _)
  | runs _ _ => exact hexec _
  | @commits node toBlock discovered logs out _ rest =>
      rcases sweepRest_cases c.db chain (c.caches node) discovered toBlock logs with
        ⟨tx, d, htx, hflush, he⟩ | ⟨e, -, he⟩
      · rw [he] at rest
        cases rest
        obtain ⟨mid, cs, -, -, htr, htr'⟩ := sweepTx_trace htx
        obtain ⟨stats, rfl⟩ := flushStats_frame hflush
        have hmove : Step tx.db .moveCursor (setCursor { tx.db with stats } chain.chainId toBlock) :=
          .moveCursor rfl rfl rfl rfl
        exact ⟨_, (htr.append htr').append (.cons hmove (.nil _))⟩
      · rw [he] at rest
        contradiction
  | _ => exact ⟨[], .nil _⟩

variable {chain c}

/-- The database of a cluster is sound after every step. -/
theorem sound_step (i : ClusterStep) (inv : Sound c.db) : Sound (c.step chain i).db := by
  obtain ⟨acts, htr⟩ := step_trace chain c i
  exact htr.invariant Sound (fun _ _ _ => Sound.step) inv

/-- No step revives a watch. -/
theorem retired_step {id : Uuid} (i : ClusterStep) (h : c.db.Retired id) :
    (c.step chain i).db.Retired id := by
  obtain ⟨acts, htr⟩ := step_trace chain c i
  exact h.trace htr

/-- No step makes an entry stale. -/
theorem hasEntry_step {key : WatchKey} {ref : WatchRef} (i : ClusterStep)
    (h : c.db.HasEntry chain key ref) : (c.step chain i).db.HasEntry chain key ref := by
  obtain ⟨acts, htr⟩ := step_trace chain c i
  exact h.trace htr

/-- What was a watch before the step is the same watch after it. -/
theorem same_watch {i : ClusterStep} {u w : Watch} (hu : c.db.watches.get? w.id = some u)
    (hw : (c.step chain i).db.watches.get? w.id = some w) :
    c.db.watches.get? u.id = some u ∧ u.Later w := by
  have hid : u.id = w.id := Table.key_of_get? hu
  rw [← hid] at hu hw
  obtain ⟨acts, htr⟩ := step_trace chain c i
  obtain ⟨w', hw', hlater⟩ := htr.invariant (Db.Retains · u) (fun _ _ _ => Db.Retains.step)
    (Db.Retains.of_get? hu)
  rw [hw] at hw'
  obtain rfl := Option.some.inj hw'
  exact ⟨hu, hlater⟩

/-- A new watch of the chain is active and has a number that was drawn. -/
theorem drawn_of_new_watch {i : ClusterStep} {id : Uuid} {w : Watch}
    (hnone : c.db.watches.get? id = none) (hw : (c.step chain i).db.watches.get? id = some w)
    (home : w.chainId = chain.chainId) :
    ∃ j new, i = .commit j id new ∧ c.drawn[j]? = some w.seq ∧ w.status = .active ∧
      w.chainId = new.chainId ∧ w.tokenAddress = new.tokenAddress ∧
      w.paymentAddress = new.paymentAddress := by
  have habsurd : c.db.watches.get? id ≠ some w := by simp [hnone]
  have heffect := step_effect chain c i
  generalize c.step chain i = c' at heffect hw
  cases heffect with
  | draws _ =>
      obtain ⟨new, seq, cur, -, -, registers⟩ := exec_new_watch hnone hw
      exact registers.creates.elim
  | @registers j seq id' new drawn =>
      obtain ⟨new', seq', cur, -, rfl, registers⟩ := exec_new_watch hnone hw
      cases registers
      exact ⟨j, new, rfl, drawn, rfl, rfl, rfl, rfl⟩
  | @commits node toBlock discovered logs out _ rest =>
      rcases sweepRest_cases c.db chain (c.caches node) discovered toBlock logs with
        ⟨tx, d, htx, hflush, he⟩ | ⟨e, -, he⟩
      · rw [he] at rest
        cases rest
        obtain ⟨stats, rfl⟩ := flushStats_frame hflush
        have hnone' := sweepTx_no_new_watch htx hnone
        have hsome : tx.db.watches.get? id = some w := hw
        rw [hnone'] at hsome
        contradiction
      · rw [he] at rest
        contradiction
  | runs _ elsewhere =>
      obtain ⟨new, seq, cur, -, rfl, registers⟩ := exec_new_watch hnone hw
      exact absurd home (elsewhere _ _ registers.creates)
  | _ => exact absurd hw habsurd

/-- **While no registration is open the active watches are those there were.** -/
theorem active_before {i : ClusterStep} {w : Watch} (hdrawn : c.drawn = [])
    (hw : (c.step chain i).db.watches.get? w.id = some w) (home : w.chainId = chain.chainId)
    (active : w.status = .active) :
    ∃ u, c.db.watches.get? u.id = some u ∧ u.id = w.id ∧ u.chainId = chain.chainId ∧
      u.status = .active ∧ slimEntry chain u = slimEntry chain w := by
  cases hu : c.db.watches.get? w.id with
  | none =>
      obtain ⟨j, new, -, hj, -⟩ := drawn_of_new_watch hu hw home
      rw [hdrawn] at hj
      contradiction
  | some u =>
      obtain ⟨hu', hlater⟩ := same_watch hu hw
      exact ⟨u, hu', Table.key_of_get? hu, hlater.same.chainId.symm.trans home,
        hlater.active active, (slimEntry_of_same hlater.same).symm⟩

/-- No number is drawn while a sweep has the row of the cursor. -/
theorem drawn_step {i : ClusterStep} (hdrawn : c.drawn = []) (hdraw : i = .draw → c.loading ≠ none) :
    (c.step chain i).drawn = [] := by
  have herase : ∀ j, c.drawn.eraseIdx j = [] := fun j => by rw [hdrawn]; rfl
  have heffect := step_effect chain c i
  generalize c.step chain i = c' at heffect ⊢
  cases heffect with
  | draws free => exact absurd free (hdraw rfl)
  | registers _ => exact herase _
  | rollsBack => exact herase _
  | _ => exact hdrawn

end Cluster

/-! ## The caches -/

namespace WatchCache.Genuine

/-- Inserting the entry of a watch keeps a cache genuine. -/
theorem insert {key : WatchKey} {ref : WatchRef} (genuine : cache.Genuine db chain)
    (h : db.HasEntry chain key ref) : (cache.insert key ref).1.Genuine db chain := by
  intro key' ref' hget
  rw [get_insert] at hget
  split at hget
  · rename_i hk
    subst hk
    obtain rfl := Option.some.inj hget
    exact h
  · exact genuine key' ref' hget

/-- Removing an entry keeps it so. -/
theorem remove (genuine : cache.Genuine db chain) (key : WatchKey) (id : Uuid) :
    (cache.remove key id).1.Genuine db chain := by
  intro key' ref hget
  rw [get_remove] at hget
  split at hget
  · contradiction
  · exact genuine key' ref hget

end WatchCache.Genuine

namespace Cluster

variable {c : Cluster}

/-- The step puts this entry into a cache. -/
inductive Puts (c : Cluster) (node : Nat) (key : WatchKey) (ref : WatchRef) : ClusterStep → Prop
  | insert {i : Nat} (held : c.held[i]? = some ⟨node, key, ref⟩) : Puts c node key ref (.insert i)
  | fill {bound : Nat} {rows : List (WatchKey × WatchRef)} {discovered : List WatchKey}
      (loading : c.loading = some ⟨node, bound, some ((key, ref) :: rows), discovered⟩) :
      Puts c node key ref .fill

/-- The cache that a step may leave an instance with. -/
inductive Caches (c : Cluster) (node : Nat) : ClusterStep → WatchCache → Prop
  | keeps {i : ClusterStep} : Caches c node i (c.caches node)
  | raises {i : ClusterStep} {lastSeq : Nat} : Caches c node i ⟨(c.caches node).map, lastSeq⟩
  | puts {i : ClusterStep} {key : WatchKey} {ref : WatchRef} (put : c.Puts node key ref i) :
      Caches c node i ((c.caches node).insert key ref).1
  | removes {id : Uuid} {key : WatchKey} (retired : c.db.Retired id) :
      Caches c node (.remove node id) ((c.caches node).remove key id).1
  | restarts : Caches c node (.restart node) .new

/-- **What one step can do to the cache of an instance.** -/
theorem step_caches (chain : ChainSpec) (c : Cluster) (i : ClusterStep) (node : Nat) :
    Caches c node i ((c.step chain i).caches node) := by
  -- at most one cache is replaced
  have hput : ∀ n cache, Caches c n i cache →
      Caches c node i ((c.withCache n cache).caches node) := by
    intro n cache h
    change Caches c node i (Function.update c.caches n cache node)
    by_cases hn : node = n
    · subst hn
      rw [Function.update_self]
      exact h
    · rw [Function.update_of_ne hn]
      exact .keeps
  have heffect := step_effect chain c i
  generalize c.step chain i = c' at heffect ⊢
  cases heffect with
  | raises => exact hput _ _ .raises
  | inserts held => exact hput _ _ (.puts (.insert held))
  | removes retired => exact hput _ _ (.removes retired)
  | restarts => exact hput _ _ .restarts
  | fills loading => exact hput _ _ (.puts (.fill loading))
  | _ => exact .keeps

/-- What is under a key of an instance after a step. -/
inductive Refreshes (c : Cluster) (i : ClusterStep) (node : Nat) (key : WatchKey) :
    Option WatchRef → Prop
  | keeps : Refreshes c i node key ((c.caches node).get key)
  | puts {ref : WatchRef} (put : c.Puts node key ref i) : Refreshes c i node key (some ref)
  | evicts {ref : WatchRef} (was : (c.caches node).get key = some ref)
      (retired : c.db.Retired ref.id) : Refreshes c i node key none
  | restarts (step : i = .restart node) : Refreshes c i node key none

/-- **What a step puts under a key.** -/
theorem refreshes_step (chain : ChainSpec) (c : Cluster) (i : ClusterStep) (node : Nat)
    (key : WatchKey) : Refreshes c i node key (((c.step chain i).caches node).get key) := by
  have hcaches := step_caches chain c i node
  generalize (c.step chain i).caches node = cache at hcaches ⊢
  cases hcaches with
  | keeps => exact .keeps
  | raises => exact .keeps
  | puts put =>
      rw [WatchCache.get_insert]
      split
      · next hk => exact hk ▸ .puts put
      · exact .keeps
  | @removes id key' retired =>
      rw [WatchCache.get_remove]
      split
      · next h =>
          obtain ⟨rfl, hany⟩ := h
          obtain ⟨ref, hget, hid⟩ := (Option.any_eq_true ..).mp hany
          have hid' : ref.id = id := by simpa using hid
          exact .evicts hget (hid' ▸ retired)
      · exact .keeps
  | restarts => exact .restarts rfl

/-- A watch that is cached stays cached or is retired, unless another entry is
put in its place. -/
theorem names_step (chain : ChainSpec) {i : ClusterStep} {node : Nat} {key : WatchKey} {id : Uuid}
    (hrestart : i ≠ .restart node)
    (hput : ∀ ref, c.Puts node key ref i → (c.step chain i).db.Retired id ∨ ref.id = id)
    (hnames : (c.caches node).Names key id) :
    (c.step chain i).db.Retired id ∨ ((c.step chain i).caches node).Names key id := by
  obtain ⟨ref, hget, rfl⟩ := Option.map_eq_some_iff.mp hnames
  unfold WatchCache.Names
  have hrefreshes := refreshes_step chain c i node key
  generalize ((c.step chain i).caches node).get key = after at hrefreshes ⊢
  cases hrefreshes with
  | keeps => exact .inr (by rw [hget]; rfl)
  | puts put => exact (hput _ put).imp_right fun hsame => congrArg some hsame
  | evicts was retired =>
      rw [hget] at was
      cases was
      exact .inl (retired_step i retired)
  | restarts hi => exact absurd hi hrestart

/-- What an instance has cached, or is about to cache, are entries of watches. -/
structure Genuine (chain : ChainSpec) (c : Cluster) : Prop where
  caches : ∀ node, (c.caches node).Genuine c.db chain
  held : ∀ e ∈ c.held, c.db.HasEntry chain e.key e.ref
  rows : ∀ l ∈ c.loading, ∀ rows ∈ l.rows, ∀ e ∈ rows, c.db.HasEntry chain e.1 e.2

/-- What a step puts into a cache is the entry of a watch. -/
theorem Genuine.puts {node : Nat} {key : WatchKey} {ref : WatchRef} {i : ClusterStep}
    (inv : c.Genuine chain) (put : c.Puts node key ref i) : c.db.HasEntry chain key ref := by
  cases put with
  | insert held => exact inv.held _ (List.mem_of_getElem? held)
  | fill loading => exact inv.rows _ loading _ rfl _ List.mem_cons_self

/-- Every cache is genuine after a step. -/
theorem Genuine.caches_step (inv : c.Genuine chain) (i : ClusterStep) (node : Nat) :
    ((c.step chain i).caches node).Genuine c.db chain := by
  have genuine := inv.caches node
  have hcaches := step_caches chain c i node
  generalize (c.step chain i).caches node = cache at hcaches ⊢
  cases hcaches with
  | keeps => exact genuine
  | raises => exact genuine
  | puts put => exact genuine.insert (inv.puts put)
  | removes _ => exact genuine.remove _ _
  | restarts => exact fun key ref h => by contradiction

/-- So is every entry that a handler has in hand. -/
theorem Genuine.held_step (inv : c.Genuine chain) (i : ClusterStep) :
    ∀ e ∈ (c.step chain i).held, c.db.HasEntry chain e.key e.ref := by
  have herase : ∀ j, ∀ e ∈ c.held.eraseIdx j, c.db.HasEntry chain e.key e.ref :=
    fun j e he => inv.held e (List.mem_of_mem_eraseIdx he)
  have heffect := step_effect chain c i
  generalize c.step chain i = c' at heffect ⊢
  cases heffect with
  | reads _ entries => exact fun e he => (List.mem_append.mp he).elim (inv.held e) (entries e)
  | inserts _ => exact herase _
  | loses => exact herase _
  | restarts => exact fun e he => inv.held e (List.mem_filter.mp he).1
  | _ => exact inv.held

/-- How far the sweep of the chain is after a step. -/
inductive Progresses (chain : ChainSpec) (c : Cluster) : ClusterStep → Option Loading → Prop
  | keeps {i : ClusterStep} (alive : ∀ l ∈ c.loading, i ≠ .restart l.node) :
      Progresses chain c i c.loading
  | binds {node expectedCursor : Nat} (loads : c.Loads chain expectedCursor) :
      Progresses chain c (.bind node expectedCursor)
        (some { node, bound := (c.caches node).lastSeq })
  | queries {node bound : Nat} {discovered : List WatchKey}
      (loading : c.loading = some ⟨node, bound, none, discovered⟩) :
      Progresses chain c .query (some ⟨node, bound,
        some ((activeRows c.db chain bound).filterMap (slimEntry chain)), discovered⟩)
  | fills {node bound : Nat} {key : WatchKey} {ref : WatchRef}
      {rows : List (WatchKey × WatchRef)} {discovered discovered' : List WatchKey}
      (loading : c.loading = some ⟨node, bound, some ((key, ref) :: rows), discovered⟩) :
      Progresses chain c .fill (some ⟨node, bound, some rows, discovered'⟩)
  | ends {i : ClusterStep} : Progresses chain c i none

/-- **What one step can do to the delta load under way.** -/
theorem step_loading (chain : ChainSpec) (c : Cluster) (i : ClusterStep) :
    Progresses chain c i (c.step chain i).loading := by
  have heffect := step_effect chain c i
  generalize c.step chain i = c' at heffect ⊢
  cases heffect with
  | idle alive => exact .keeps fun l _ => alive l.node
  | reads alive _ => exact .keeps fun l _ => alive l.node
  | runs alive _ => exact .keeps fun l _ => alive l.node
  | @restarts node =>
      change Progresses chain c _ (c.loading.filter fun l => l.node ≠ node)
      cases hl : c.loading with
      | none => exact .ends
      | some l =>
          by_cases hn : l.node = node
          · simp only [Option.filter, hn, ne_eq, not_true_eq_false, decide_false]
            exact .ends
          · simp only [Option.filter, ne_eq, hn, not_false_eq_true, decide_true, if_true]
            rw [← hl]
            refine .keeps fun l' hl' heq => ?_
            rw [hl] at hl'
            cases hl'
            exact hn (ClusterStep.restart.inj heq).symm
  | binds loads => exact .binds loads
  | queries loading => exact .queries loading
  | fills loading => exact .fills loading
  | commits _ => exact .ends
  | ends => exact .ends
  | _ => exact .keeps fun _ _ => by simp

/-- And so are the rows a delta load has read. -/
theorem Genuine.rows_step (inv : c.Genuine chain) (i : ClusterStep) :
    ∀ l ∈ (c.step chain i).loading, ∀ rows ∈ l.rows, ∀ e ∈ rows, c.db.HasEntry chain e.1 e.2 := by
  have hprogress := step_loading chain c i
  generalize (c.step chain i).loading = loading at hprogress ⊢
  intro l hl rows hrows e he
  cases hprogress with
  | keeps _ => exact inv.rows l hl rows hrows e he
  | binds _ =>
      cases hl
      contradiction
  | queries _ =>
      cases hl
      cases hrows
      exact hasEntry_of_active chain he
  | fills loading =>
      cases hl
      cases hrows
      exact inv.rows _ loading _ rfl e (List.mem_cons_of_mem _ he)
  | ends => contradiction

/-- **The caches stay genuine**, whatever the next step is. -/
theorem Genuine.step (inv : c.Genuine chain) (i : ClusterStep) : (c.step chain i).Genuine chain where
  caches node key ref h := hasEntry_step i (inv.caches_step i node key ref h)
  held e he := hasEntry_step i (inv.held_step i e he)
  rows l hl rows hrows e he := hasEntry_step i (inv.rows_step i l hl rows hrows e he)

/-- **Every cache of every instance holds entries of watches and nothing else**,
in every run. -/
theorem genuine_run (steps : List ClusterStep) : (run (Cluster.step chain) {} steps).Genuine chain :=
  invariant_run (Genuine chain) (fun _ i inv => inv.step i)
    ⟨fun _ _ _ h => by contradiction, fun _ he => by contradiction, fun _ hl => by contradiction⟩ steps

end Cluster

/-! ## The delta load -/

/-- A sweep that binds `last_seq` finds it a watermark, and what is put into the
cache of a sweeping instance is of a watch that is active. -/
def ClusterStep.Watermarked (chain : ChainSpec) (c : Cluster) : ClusterStep → Prop
  | .bind node expectedCursor =>
      c.Loads chain expectedCursor → (c.caches node).Marked c.db chain
  | .insert i => ∀ e ∈ c.held[i]?, ∀ l ∈ c.loading, l.node = e.node → c.db.Active e.ref.id
  | _ => True

instance (c : Cluster) (i : ClusterStep) : Decidable (i.Watermarked chain c) := by
  unfold ClusterStep.Watermarked
  split <;> infer_instance

/-- The entry is still to come: the query will return it, or has. -/
def Loading.Awaits (l : Loading) (key : WatchKey) (ref : WatchRef) : Prop :=
  match l.rows with
  | none => l.bound < ref.seq
  | some rows => (key, ref) ∈ rows

namespace Cluster

variable {c : Cluster}

/-- While a sweep loads, no registration is open, every active watch is in the
cache or still to come, and what is still to come under its key is of that
watch. -/
structure Catching (chain : ChainSpec) (c : Cluster) (l : Loading) : Prop where
  closed : c.drawn = []
  known : ∀ w, c.db.watches.get? w.id = some w → w.chainId = chain.chainId → w.status = .active →
    ∀ key ref, slimEntry chain w = some (key, ref) →
      (c.caches l.node).Names key w.id ∨ l.Awaits key ref
  own : ∀ rows ∈ l.rows, ∀ e ∈ rows, ∀ w, c.db.watches.get? w.id = some w →
    w.chainId = chain.chainId → w.status = .active →
      ∀ ref, slimEntry chain w = some (e.1, ref) → e.2.id = w.id

/-- An active watch that the sweeping instance has stays in its cache. -/
theorem Catching.names {l : Loading} {i : ClusterStep} {u w : Watch} {key : WatchKey} {ref : WatchRef}
    (inv : c.Catching chain l) (sound : Sound c.db) (genuine : c.Genuine chain)
    (watermarked : i.Watermarked chain c) (hl : c.loading = some l) (alive : i ≠ .restart l.node)
    (hu : c.db.watches.get? u.id = some u) (hid : u.id = w.id) (home : u.chainId = chain.chainId)
    (huactive : u.status = .active) (hentry : slimEntry chain u = some (key, ref))
    (hw : (c.step chain i).db.watches.get? w.id = some w) (active : w.status = .active)
    (hnames : (c.caches l.node).Names key w.id) :
    ((c.step chain i).caches l.node).Names key w.id := by
  refine (names_step chain alive (fun ref' put => .inr ?_) hnames).resolve_left ?_
  · have hhas := genuine.puts put
    cases put with
    | insert held =>
        -- what is inserted is of an active watch, and that is the one on the target
        obtain ⟨v, hv, hvhome, hvactive, hventry⟩ :=
          hhas.active_watch (watermarked _ held l hl rfl)
        obtain rfl := sound.entry_unique hv hu hvhome home hvactive huactive hventry hentry
        rw [slimEntry_ref hventry]
        exact hid
    | fill loading =>
        rw [hl] at loading
        have hrows := congrArg Loading.rows (Option.some.inj loading)
        exact (inv.own _ hrows _ List.mem_cons_self u hu home huactive ref hentry).trans hid
  · rintro ⟨w', hw', hstatus⟩
    rw [hw] at hw'
    obtain rfl := Option.some.inj hw'
    exact hstatus active

/-- A step that is not about the load keeps what the sweep knows. -/
theorem Catching.keeps {l : Loading} {i : ClusterStep} (inv : c.Catching chain l) (sound : Sound c.db)
    (genuine : c.Genuine chain) (watermarked : i.Watermarked chain c) (hl : c.loading = some l)
    (alive : i ≠ .restart l.node) : (c.step chain i).Catching chain l := by
  refine ⟨drawn_step inv.closed fun _ => by rw [hl]; simp, fun w hw home active key ref hentry => ?_,
    fun rows hrows e he w hw home active ref hentry => ?_⟩
  · obtain ⟨u, hu, hid, huhome, huactive, hslim⟩ := active_before inv.closed hw home active
    rcases inv.known u hu huhome huactive key ref (hslim.trans hentry) with hnames | hawaits
    · exact .inl (inv.names sound genuine watermarked hl alive hu hid huhome huactive
        (hslim.trans hentry) hw active (hid ▸ hnames))
    · exact .inr hawaits
  · obtain ⟨u, hu, hid, huhome, huactive, hslim⟩ := active_before inv.closed hw home active
    exact (inv.own rows hrows e he u hu huhome huactive ref (hslim.trans hentry)).trans hid

/-- When `last_seq` is bound, the watermark says what the cache has. -/
theorem Catching.binds {node expectedCursor : Nat} (loads : c.Loads chain expectedCursor)
    (marked : (c.caches node).Marked c.db chain) :
    (c.step chain (.bind node expectedCursor)).Catching chain
      { node, bound := (c.caches node).lastSeq } := by
  have hdrawn : (c.step chain (.bind node expectedCursor)).drawn = [] :=
    drawn_step loads.1 fun heq => by simp at heq
  have hsame : c.step chain (.bind node expectedCursor) =
      { c with loading := some { node, bound := (c.caches node).lastSeq } } := by
    rw [Cluster.step, bind, if_pos loads]
  refine ⟨hdrawn, fun w hw home active key ref hentry => ?_, fun rows hrows => by contradiction⟩
  rw [hsame] at hw ⊢
  rcases Nat.lt_or_ge (c.caches node).lastSeq w.seq with hlt | hle
  · refine .inr ?_
    rw [slimEntry_ref hentry]
    exact hlt
  · exact .inl (marked w (Table.mem_of_get? hw) home active hle (key, ref) hentry)

/-- The query returns what was still to come. -/
theorem Catching.queries {node bound : Nat} {discovered : List WatchKey}
    (inv : c.Catching chain ⟨node, bound, none, discovered⟩) (sound : Sound c.db)
    (loading : c.loading = some ⟨node, bound, none, discovered⟩) :
    (c.step chain .query).Catching chain
      ⟨node, bound, some ((activeRows c.db chain bound).filterMap (slimEntry chain)), discovered⟩ := by
  have hsame : c.step chain .query = { c with loading := some ⟨node, bound,
      some ((activeRows c.db chain bound).filterMap (slimEntry chain)), discovered⟩ } := by
    rw [Cluster.step, query, loading]
  refine ⟨drawn_step inv.closed fun _ => by rw [loading]; simp,
    fun w hw home active key ref hentry => ?_, fun rows hrows e he w hw home active ref hentry => ?_⟩
  · rw [hsame] at hw ⊢
    rcases inv.known w hw home active key ref hentry with hnames | hawaits
    · exact .inl hnames
    · refine .inr (mem_deltaEntries.mpr ⟨w, hw, home, active, ?_, hentry⟩)
      have hlt : bound < ref.seq := hawaits
      rw [slimEntry_ref hentry] at hlt
      exact hlt
  · cases hrows
    rw [hsame] at hw
    obtain ⟨u, hu, huhome, huactive, -, huentry⟩ := mem_deltaEntries.mp he
    obtain rfl := sound.entry_unique hu hw huhome home huactive active huentry hentry
    rw [slimEntry_ref huentry]

/-- A row that is put into the cache is no longer to come. -/
theorem Catching.fills {node bound : Nat} {key₁ : WatchKey} {ref₁ : WatchRef}
    {rows : List (WatchKey × WatchRef)} {discovered : List WatchKey}
    (inv : c.Catching chain ⟨node, bound, some ((key₁, ref₁) :: rows), discovered⟩) (sound : Sound c.db)
    (genuine : c.Genuine chain) (watermarked : ClusterStep.fill.Watermarked chain c)
    (loading : c.loading = some ⟨node, bound, some ((key₁, ref₁) :: rows), discovered⟩)
    (discovered' : List WatchKey) :
    (c.step chain .fill).Catching chain ⟨node, bound, some rows, discovered'⟩ := by
  refine ⟨drawn_step inv.closed fun _ => by rw [loading]; simp,
    fun w hw home active key ref hentry => ?_, fun rows' hrows e' he' w hw home active ref hentry => ?_⟩
  · obtain ⟨u, hu, hid, huhome, huactive, hslim⟩ := active_before inv.closed hw home active
    rcases inv.known u hu huhome huactive key ref (hslim.trans hentry) with hnames | hawaits
    · exact .inl (inv.names sound genuine watermarked loading (by simp) hu hid huhome huactive
        (hslim.trans hentry) hw active (hid ▸ hnames))
    · rcases List.mem_cons.mp hawaits with heq | hmem
      · -- the row of the watch itself
        obtain ⟨rfl, rfl⟩ := Prod.mk.inj heq
        left
        have hput : ((c.step chain .fill).caches node).get key = some ref := by
          rw [Cluster.step, fill, loading]
          change (Function.update c.caches node ((c.caches node).insert key ref).1 node).get key = _
          rw [Function.update_self, WatchCache.get_insert_self]
        rw [WatchCache.Names, hput, Option.map_some, slimEntry_ref hentry]
      · exact .inr hmem
  · cases hrows
    obtain ⟨u, hu, hid, huhome, huactive, hslim⟩ := active_before inv.closed hw home active
    exact (inv.own _ rfl e' (List.mem_cons_of_mem _ he') u hu huhome huactive ref
      (hslim.trans hentry)).trans hid

/-- **What a sweep knows while it loads.** -/
theorem Catching.step {i : ClusterStep} (sound : Sound c.db) (genuine : c.Genuine chain)
    (watermarked : i.Watermarked chain c) (inv : ∀ l ∈ c.loading, c.Catching chain l) :
    ∀ l ∈ (c.step chain i).loading, (c.step chain i).Catching chain l := by
  intro l hl
  have hprogress := step_loading chain c i
  rw [hl] at hprogress
  generalize hafter : some l = after at hprogress
  cases hprogress with
  | keeps alive =>
      have hbefore := hafter.symm
      exact (inv l hbefore).keeps sound genuine watermarked hbefore (alive l hbefore)
  | binds loads =>
      obtain rfl := Option.some.inj hafter
      exact .binds loads (watermarked loads)
  | queries loading =>
      obtain rfl := Option.some.inj hafter
      exact (inv _ loading).queries sound loading
  | fills loading =>
      obtain rfl := Option.some.inj hafter
      exact (inv _ loading).fills sound genuine watermarked loading _
  | ends => contradiction

end Cluster

/-- **No sweep misses a watch** in a run in which every sweep finds a watermark
when it binds `last_seq`, and nothing about a retired watch is put into its
cache before it goes on: from the moment its rows are in, the cache of the
sweeping instance has every active watch under its key. -/
theorem delta_load_complete (steps : List ClusterStep)
    (watermarked : Along (Cluster.step chain) (fun c i => i.Watermarked chain c) {} steps) :
    ∀ pre post, steps = pre ++ post → ∀ node bound discovered,
      (run (Cluster.step chain) {} pre).loading = some ⟨node, bound, some [], discovered⟩ →
        ((run (Cluster.step chain) {} pre).caches node).Complete
          (run (Cluster.step chain) {} pre).db chain := by
  rintro pre post rfl node bound discovered hl
  rw [along_append] at watermarked
  have inv := invariant_along (fun c : Cluster => (Sound c.db ∧ c.Genuine chain) ∧
    ∀ l ∈ c.loading, c.Catching chain l)
    (fun c i _ inv hi => ⟨⟨Cluster.sound_step i inv.1.1, inv.1.2.step i⟩,
      Cluster.Catching.step inv.1.1 inv.1.2 hi inv.2⟩)
    ⟨⟨.empty, Cluster.genuine_run []⟩, fun l hl => by contradiction⟩ watermarked.1
  rintro w hw home active ⟨key, ref⟩ hentry
  exact ((inv.2 _ hl).known w (Table.get?_of_mem hw) home active key ref hentry).resolve_right
    fun hawaits => List.not_mem_nil hawaits

/-- One instance registers a watch.  Another has cached a second one when it
learns of the first by a late `NOTIFY`, and then sweeps. -/
def lateNotify : List ClusterStep :=
  [.store (.ensureCursor baseChain.chainId 100), .draw, .commit 0 1 watchOrder,
    .draw, .commit 0 2 { watchOrder with paymentAddress := 10 }, .load 0 2, .insert 0, .load 0 1,
    .insert 0, .bind 0 100, .query]

/-- The sweep knows both. -/
theorem delta_load_complete_late :
    ((run (Cluster.step baseChain) {} lateNotify).caches 0).Complete
        (run (Cluster.step baseChain) {} lateNotify).db baseChain ∧
      ((run (Cluster.step baseChain) {} lateNotify).caches 0).Names ⟨0, 9⟩ 1 := by
  have hloading : (run (Cluster.step baseChain) {} lateNotify).loading = some ⟨0, 2, some [], []⟩ := by
    decide +kernel
  exact ⟨delta_load_complete lateNotify (by decide +kernel) lateNotify [] (List.append_nil _).symm 0 2
    [] hloading, by decide +kernel⟩

/-- One instance registers a watch and its `NOTIFY` is lost.  Another registers
a second one, caches it, and sweeps. -/
def lostNotify : List ClusterStep :=
  [.store (.ensureCursor baseChain.chainId 100), .draw, .commit 0 1 watchOrder,
    .draw, .commit 0 2 { watchOrder with paymentAddress := 10 }, .load 0 2, .insert 0,
    .bind 0 100, .query]

/-- The sweep loads what is above the second watch, and misses the first. -/
theorem delta_load_misses_lostNotify :
    (run (Cluster.step baseChain) {} lostNotify).loading = some ⟨0, 2, some [], []⟩ ∧
      ¬ ((run (Cluster.step baseChain) {} lostNotify).caches 0).Complete
        (run (Cluster.step baseChain) {} lostNotify).db baseChain := by
  decide +kernel

end GumIndexer
