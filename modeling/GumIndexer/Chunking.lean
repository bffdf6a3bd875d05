import GumIndexer.Chunk
import GumIndexer.Reconcile

/-!
# GumIndexer.Chunking

Does it matter how the range of a sweep is cut?

A provider that refuses a range makes the sweeper ask for less, so where one
sweep ends and the next begins is arbitrary.  Cut at a block, the matches fall
apart into those of the two parts (`sweepMatches_split`), and a watch that took
the first part goes on with the second (`Halves.takes`); if the first part
completed it, it was evicted, and takes nothing from the second either way.
The rows that the first sweep leaves alone are those above the cut
(`Halves.row_above`), and a second delta load finds nothing (`deltaLoad_again`).
So the two sweeps end where one over the whole range does, unless the volume on
record has room for the first part only (`sweep_in_two_iff`).
-/

namespace GumIndexer

open Base

variable {db db₁ : Db} {chain : ChainSpec} {cache : WatchCache} {discovered : List WatchKey}
  {toBlock : Nat} {logs : List Log} {tx : SweepTx}

/-! ## Evictions -/

/-- The status of a watch. -/
def Db.statusOf (db : Db) (id : Uuid) : Option WatchStatus := (db.watches.get? id).map Watch.status

/-- The key a match was found under. -/
def MatchedTransfer.key (m : MatchedTransfer) : WatchKey := ⟨m.tokenIdx, m.dst⟩

/-- Replacing a watch changes its own status only. -/
theorem statusOf_replace {u u' : Watch} {watches : Table Watch Watch.id}
    (hfound : db.watches.get? u.id = some u) (hid : u'.id = u.id)
    (hwatches : watches = db.watches.replace u') (id : Uuid) :
    (watches.get? id).map Watch.status = if u.id = id then some u'.status else db.statusOf id := by
  rw [hwatches, Table.get?_replace, hid]
  split
  · next heq => rw [← heq, hfound]; rfl
  · rfl

/-- A turn of the counting loop retires the watch of its match, or none. -/
theorem Counted.retired {tx tx' : SweepTx} {m : MatchedTransfer} (h : Counted chain tx m tx') :
    (tx'.out.completed = tx.out.completed ∧ ∀ id, tx'.db.statusOf id = tx.db.statusOf id) ∨
      (tx'.out.completed = tx.out.completed ++ [(m.key, m.watch.id)] ∧
        tx.db.statusOf m.watch.id = some .active ∧
        ∀ id, tx'.db.statusOf id = if m.watch.id = id then some .completed else tx.db.statusOf id) := by
  cases h with
  | inactive _ => exact .inl ⟨rfl, fun _ => rfl⟩
  | settled _ => exact .inl ⟨rfl, fun _ => rfl⟩
  | @below _ w counts below _ completed =>
      obtain ⟨_, -, post⟩ := counts.step
      refine .inl ⟨completed, fun id => ?_⟩
      rw [Db.statusOf, statusOf_replace post.found post.sameId post.watches]
      split
      · next heq => rw [← heq, Db.statusOf, post.found]; rfl
      · rfl
  | @reached _ d w counts reached post' _ completed =>
      obtain ⟨_, -, post⟩ := id counts.step
      have hwatches : tx'.db.watches =
          tx.db.watches.replace ((w.credit m.amount.toNat).retire .completed d.now) := by
        rw [post'.watches, post.watches]
        exact Table.replace_replace rfl
      refine .inr ⟨by rw [completed, counts.watch]; rfl, ?_, fun id => ?_⟩
      · rw [counts.watch, Db.statusOf, post.found, Option.map_some, counts.active]
      · have hid : ((w.credit m.amount.toNat).retire .completed d.now).id = w.id := rfl
        rw [Db.statusOf, statusOf_replace post.found hid hwatches, counts.watch]
        rfl

/-- **The counting loop retires the watches it lists**, all of them active
before, and no others. -/
theorem countAll_retired {tx tx' : SweepTx} {ms : List MatchedTransfer}
    (h : ms.foldlM (countConfirmed chain) tx = .ok tx') :
    ∃ last : List MatchedTransfer, last ⊆ ms ∧
      tx'.out.completed = tx.out.completed ++ last.map (fun m => (m.key, m.watch.id)) ∧
      (∀ m ∈ last, tx.db.statusOf m.watch.id = some .active) ∧
      ∀ id, tx'.db.statusOf id =
        if id ∈ last.map (·.watch.id) then some .completed else tx.db.statusOf id := by
  induction ms generalizing tx with
  | nil =>
      cases h
      exact ⟨[], List.Subset.refl _, (List.append_nil _).symm, by simp, by simp⟩
  | cons m ms ih =>
      rw [List.foldlM_cons] at h
      cases hm : countConfirmed chain tx m with
      | error e => rw [hm] at h; cases h
      | ok tx₁ =>
          rw [hm] at h
          obtain ⟨last, hsub, hcompleted, hactive, hstatus⟩ := ih h
          rcases (countConfirmed_ok hm).retired with ⟨hsame, hkept⟩ | ⟨hnew, hwas, hset⟩
          · refine ⟨last, fun x hx => List.mem_cons_of_mem m (hsub hx), by rw [hcompleted, hsame],
              fun x hx => (hkept _).symm.trans (hactive x hx), fun id => ?_⟩
            rw [hstatus id, hkept id]
          · -- the watch is completed now, so it is not retired again
            have hother : ∀ x ∈ last, m.watch.id ≠ x.watch.id := by
              intro x hx heq
              have hx' := hactive x hx
              rw [hset, if_pos heq] at hx'
              contradiction
            refine ⟨m :: last, List.cons_subset_cons m hsub, ?_, fun x hx => ?_, fun id => ?_⟩
            · rw [hcompleted, hnew, List.append_assoc]
              rfl
            · rcases List.mem_cons.mp hx with rfl | hx
              · exact hwas
              · rw [← hactive x hx, hset, if_neg (hother x hx)]
            · rw [hstatus id, hset id, List.map_cons]
              simp only [List.mem_cons]
              by_cases hid : m.watch.id = id
              · simp [hid]
              · simp [hid, Ne.symm hid]

/-- Resolving the leftovers retires no watch. -/
theorem resolveAll_statusOf {canonical : List (B256 × Nat)} {ts : List Transfer} {db' : Db}
    (h : Trace Step db (ts.map (resolveAct canonical)) db') (id : Uuid) :
    db'.statusOf id = db.statusOf id := by
  cases hw : db.watches.get? id with
  | none =>
      have hnone : db'.watches.get? id = none := by
        refine Trace.no_new_watch h (fun a ha w => ?_) hw
        obtain ⟨t, -, rfl⟩ := List.mem_map.mp ha
        exact resolveAct_ne_register canonical t w
      rw [Db.statusOf, hnone, Db.statusOf, hw]
  | some w =>
      obtain rfl := Table.key_of_get? hw
      obtain ⟨n, hn, -⟩ := resolveAll_watch h hw
      rw [Db.statusOf, hn, Db.statusOf, hw]
      rfl

/-- Evicting removes the entries it names. -/
theorem get_evict (es : List (WatchKey × Uuid)) (cache : WatchCache) (key : WatchKey) :
    (es.foldl (fun cache e => (cache.remove e.1 e.2).1) cache).get key =
      (cache.get key).filter fun ref => (key, ref.id) ∉ es := by
  induction es generalizing cache with
  | nil => cases hget : cache.get key <;> simp [hget, Option.filter]
  | cons e es ih =>
      rw [List.foldl_cons, ih, WatchCache.get_remove]
      obtain ⟨key', id⟩ := e
      cases hget : cache.get key with
      | none => split <;> simp
      | some ref =>
          by_cases hk : key' = key
          · subst hk
            by_cases hid : ref.id = id
            · simp [hget, hid, Option.filter]
            · simp [hget, hid, Option.filter]
          · simp [hk, Ne.symm hk]

/-- Eviction does not lower `last_seq`. -/
theorem lastSeq_evict (es : List (WatchKey × Uuid)) (cache : WatchCache) :
    (es.foldl (fun cache e => (cache.remove e.1 e.2).1) cache).lastSeq = cache.lastSeq := by
  induction es generalizing cache with
  | nil => rfl
  | cons e es ih => rw [List.foldl_cons, ih, WatchCache.lastSeq_remove]

/-- **What is left of the cache after a sweep**: the entries of the watches
that it did not complete. -/
theorem get_evictCompleted (genuine : cache.Genuine db chain)
    (h : sweepTx db chain cache discovered toBlock logs = .ok tx) (key : WatchKey) :
    (evictCompleted cache tx.out).get key = (cache.get key).filter fun ref =>
      ¬ (db.statusOf ref.id = some .active ∧ tx.db.statusOf ref.id = some .completed) := by
  obtain ⟨mid, hcount, hresolve⟩ := sweepTx_phases h
  obtain ⟨last, hsub, hcompleted, hactive, hstatus⟩ := countAll_retired hcount
  obtain ⟨htr, -, hout⟩ := resolveAll_trace (lists_leftovers _ _ _) hresolve
  have hlist : tx.out.completed = last.map fun m => (m.key, m.watch.id) := by
    rw [hout, hcompleted]
    rfl
  unfold evictCompleted
  rw [get_evict, hlist]
  cases hget : cache.get key with
  | none => rfl
  | some ref =>
      have hmem : (key, ref.id) ∈ last.map (fun m => (m.key, m.watch.id)) ↔
          ref.id ∈ last.map (·.watch.id) := by
        constructor
        · intro hx
          obtain ⟨m, hm, heq⟩ := List.mem_map.mp hx
          exact List.mem_map.mpr ⟨m, hm, (Prod.mk.inj heq).2⟩
        · intro hx
          obtain ⟨m, hm, heq⟩ := List.mem_map.mp hx
          -- an entry is under the key of its watch
          obtain ⟨p, -, ref', hget', -, hmp⟩ := mem_matchedOf.mp (mem_sweepMatches.mp (hsub hm))
          obtain ⟨w, hw, -, hentry⟩ := genuine key ref hget
          have hid' : ref'.id = w.id := by
            have hrid : ref.id = w.id := by rw [slimEntry_ref hentry]
            rw [← hrid, ← heq, hmp]
            rfl
          have hentry' := (genuine.of_id hw hget' hid').2
          rw [hentry] at hentry'
          have hkey : m.key = key := by
            rw [(Prod.mk.inj (Option.some.inj hentry')).1, hmp]
            rfl
          exact List.mem_map.mpr ⟨m, hm, Prod.ext hkey heq⟩
      rw [Option.filter_some, Option.filter_some]
      have hiff : (key, ref.id) ∉ last.map (fun m => (m.key, m.watch.id)) ↔
          ¬ (db.statusOf ref.id = some .active ∧ tx.db.statusOf ref.id = some .completed) := by
        rw [hmem, resolveAll_statusOf htr, hstatus]
        refine not_congr ⟨fun hin => ?_, fun hboth => ?_⟩
        · obtain ⟨m, hm, heq⟩ := List.mem_map.mp hin
          rw [if_pos hin]
          exact ⟨heq ▸ hactive m hm, rfl⟩
        · by_contra hout
          rw [if_neg hout] at hboth
          have hclash := hboth.1.symm.trans hboth.2
          contradiction
      simp only [hiff]

/-! ## The cut -/

/-- The log is of a block up to `b`. -/
def Log.upTo (b : Nat) (l : Log) : Bool := l.blockNumber.any (· ≤ b)

/-- Cutting the matches at a block is cutting the logs there. -/
theorem matchedOf_cut (chain : ChainSpec) (cache : WatchCache) (logs : List Log) (keep : Bool → Bool)
    (b : Nat) :
    (matchedOf chain cache logs).filter (fun m => keep (decide (m.blockNumber ≤ b))) =
      matchedOf chain cache (logs.filter fun l => keep (l.upTo b)) := by
  unfold matchedOf
  rw [filter_filterMap_comm (s := fun l => keep (l.upTo b)), List.filter_filter, List.filter_filter]
  · simp only [Bool.and_comm]
  · intro l m hm
    obtain ⟨hnumber, -⟩ := matchLog_place hm
    rw [Log.upTo, hnumber]
    rfl

/-- **The matches of a range are those up to the cut and those above it.** -/
theorem sweepMatches_split (chain : ChainSpec) (cache : WatchCache) (logs : List Log) (b : Nat) :
    sweepMatches chain cache logs =
      sweepMatches chain cache (logs.filter (Log.upTo b)) ++
        sweepMatches chain cache (logs.filter fun l => !l.upTo b) := by
  have hsorted : (sweepMatches chain cache logs).Pairwise
      fun m m' => decide (m'.blockNumber ≤ b) = true → decide (m.blockNumber ≤ b) = true := by
    refine (List.pairwise_insertionSort Before _).imp fun {m m'} hbefore hle => ?_
    rw [decide_eq_true_eq] at hle ⊢
    unfold Before at hbefore
    omega
  have hcut : ∀ keep : Bool → Bool,
      (sweepMatches chain cache logs).filter (fun m => keep (decide (m.blockNumber ≤ b))) =
        sweepMatches chain cache (logs.filter fun l => keep (l.upTo b)) := by
    intro keep
    unfold sweepMatches
    rw [filter_insertionSort, matchedOf_cut]
  rw [← filter_append_filter_not hsorted]
  exact congrArg₂ (· ++ ·) (hcut id) (hcut not)

/-- A match of the logs up to the cut, or above it. -/
theorem mem_sweepMatches_cut {m : MatchedTransfer} {b : Nat} (keep : Bool → Bool)
    (hm : m ∈ sweepMatches chain cache (logs.filter fun l => keep (l.upTo b))) :
    m ∈ matchedOf chain cache logs ∧ keep (decide (m.blockNumber ≤ b)) = true := by
  rw [mem_sweepMatches, ← matchedOf_cut] at hm
  exact List.mem_filter.mp hm

/-- The matches of a watch depend on its own entries only. -/
theorem sweepMatches_congr {cache' : WatchCache} {id : Uuid}
    (h : ∀ key ref, ref.id = id → (cache.get key = some ref ↔ cache'.get key = some ref)) :
    (sweepMatches chain cache logs).filter (fun m => m.watch.id = id) =
      (sweepMatches chain cache' logs).filter (fun m => m.watch.id = id) := by
  unfold sweepMatches
  rw [filter_insertionSort, filter_insertionSort, matchedOf_eq, matchedOf_eq, List.filter_filterMap,
    List.filter_filterMap]
  congr 2
  funext p
  have hentry : ∀ {c c' : WatchCache} {m : MatchedTransfer},
      (∀ key ref, ref.id = id → (c.get key = some ref ↔ c'.get key = some ref)) →
      (p.match? c false).filter (fun m => m.watch.id = id) = some m →
      (p.match? c' false).filter (fun m => m.watch.id = id) = some m := by
    intro c c' m hcc hm
    obtain ⟨hmatch, hid⟩ := Option.filter_eq_some_iff.mp hm
    obtain ⟨ref, hget, hstart, rfl⟩ := Payment.match?_eq_some_iff.mp hmatch
    have href : ref.id = id := of_decide_eq_true hid
    exact Option.filter_eq_some_iff.mpr
      ⟨Payment.match?_eq_some_iff.mpr ⟨ref, (hcc _ ref href).mp hget, hstart, rfl⟩, hid⟩
  exact Option.ext fun m => ⟨hentry h, hentry fun key ref href => (h key ref href).symm⟩

/-! ## The first half -/

/-- A sweep up to the cut, of a cache and logs that are as they should be. -/
structure Halves (db db₁ : Db) (chain : ChainSpec) (height : Nat → B256 → Nat) (cache : WatchCache)
    (logs : List Log) (b : Nat) (tx₁ : SweepTx) : Prop where
  sound : Sound db
  events : EventLogs db
  heights : db.Heights height
  genuine : cache.Genuine db chain
  once : (logs.map fun l => (l.blockHash, l.logIndex)).Nodup
  mined : ∀ l ∈ logs, ∃ n, l.blockNumber = some n ∧ ∀ h ∈ l.blockHash, n = height chain.chainId h
  first : ∃ discovered, sweepTx db chain cache discovered b (logs.filter (Log.upTo b)) = .ok tx₁
  watches : db₁.watches = tx₁.db.watches
  transfers : db₁.transfers = tx₁.db.transfers

/-- A part of the logs has no log twice. -/
theorem once_filter {p : Log → Bool} (once : (logs.map fun l => (l.blockHash, l.logIndex)).Nodup) :
    ((logs.filter p).map fun l => (l.blockHash, l.logIndex)).Nodup :=
  once.sublist (List.Sublist.map _ List.filter_sublist)

/-- What a watch gains is what it took. -/
theorem Watch.took_gain (w : Watch) (ms : List MatchedTransfer) (n now : Nat) :
    w.Took (w.gain (total MatchedTransfer.units ms) n now) ms :=
  ⟨⟨rfl, rfl, rfl, rfl, rfl, rfl, rfl, rfl, rfl⟩, rfl, rfl, rfl⟩

/-- The watch after a sweep. -/
theorem sweepTx_took {w : Watch} (inv : Sound db) (events : EventLogs db)
    (once : (logs.map fun l => (l.blockHash, l.logIndex)).Nodup)
    (h : sweepTx db chain cache discovered toBlock logs = .ok tx)
    (hw : db.watches.get? w.id = some w) :
    ∃ w', tx.db.watches.get? w.id = some w' ∧ w.Took w' (db.takes chain cache logs w) := by
  obtain ⟨news, -, -, hrow⟩ := sweepTx_watch inv events once h hw
  exact ⟨_, hrow, w.took_gain _ _ _⟩

/-- A sweep counts what its watches take. -/
theorem mem_confirmed {m : MatchedTransfer} (inv : Sound db) (genuine : cache.Genuine db chain)
    (once : (logs.map fun l => (l.blockHash, l.logIndex)).Nodup)
    (h : sweepTx db chain cache discovered toBlock logs = .ok tx) :
    m ∈ tx.out.confirmed ↔
      ∃ w, db.watches.get? w.id = some w ∧ m ∈ db.takes chain cache logs w := by
  constructor
  · intro hm
    obtain ⟨mid, cs, hcs, hout, -, -⟩ := sweepTx_trace h
    obtain ⟨p, -, ref, hget, -, hmp⟩ := mem_matchedOf.mp (mem_sweepMatches.mp (hcs.mem (hout ▸ hm)))
    obtain ⟨w, hw, -, hentry⟩ := genuine _ ref hget
    have hid : m.watch.id = w.id := by rw [hmp, slimEntry_ref hentry]; rfl
    exact ⟨w, hw, (mem_confirmed_iff inv once h hw hid).mp hm⟩
  · rintro ⟨w, hw, hm⟩
    refine (mem_confirmed_iff inv once h hw ?_).mpr hm
    have hshare : m ∈ db.share chain.chainId w.id (sweepMatches chain cache logs) := by
      unfold Db.takes Watch.take at hm
      split at hm
      · exact (isPrefix_fill _ _ _).mem hm
      · exact absurd hm List.not_mem_nil
    exact (of_decide_eq_true (List.mem_filter.mp hshare).2).1

section Halves

variable {height : Nat → B256 → Nat} {b : Nat} {tx₁ : SweepTx}

/-- The block of a match is the one its hash names. -/
theorem Halves.height_eq (s : Halves db db₁ chain height cache logs b tx₁) {cache' : WatchCache}
    {m : MatchedTransfer} (hm : m ∈ matchedOf chain cache' logs) :
    m.blockNumber = height chain.chainId m.blockHash := by
  obtain ⟨l, hl, hnumber, hhash, -⟩ := log_of_mem_matchedOf hm
  obtain ⟨n, hn, hheight⟩ := s.mined l hl
  rw [hnumber] at hn
  exact (Option.some.inj hn).trans (hheight _ hhash)

/-- **The rows above the cut are left alone.** -/
theorem Halves.row_above (s : Halves db db₁ chain height cache logs b tx₁) {log : LogId}
    (hchain : log.chainId = chain.chainId) (above : b < height chain.chainId log.blockHash) :
    db₁.transfers.get? log = db.transfers.get? log := by
  obtain ⟨discovered, h⟩ := s.first
  have hlog : log ∉ tx₁.out.confirmed.map (·.logId chain.chainId) := by
    intro hmem
    obtain ⟨m, hm, rfl⟩ := List.mem_map.mp hmem
    obtain ⟨mid, cs, hcs, hout, -, -⟩ := sweepTx_trace h
    obtain ⟨hmatch, hle⟩ := mem_sweepMatches_cut id (hcs.mem (hout ▸ hm))
    have hle' : m.blockNumber ≤ b := of_decide_eq_true hle
    have habove : b < height chain.chainId m.blockHash := above
    rw [← s.height_eq hmatch] at habove
    omega
  rw [s.transfers, (sweepTx_rows (once_filter s.once) h).2 log hlog]
  cases hrow : db.transfers.get? log with
  | none => rfl
  | some t =>
      have hkey : t.key = log := Table.key_of_get? hrow
      have hhash : t.blockHash = log.blockHash := congrArg LogId.blockHash hkey
      have htchain : t.chainId = chain.chainId := (congrArg LogId.chainId hkey).trans hchain
      have hblock : b < t.blockNumber := by
        rw [s.heights log t hrow, hhash, htchain]
        exact above
      rw [Option.map_some, Transfer.afterSweep, if_neg fun hleft => by omega]

/-- The watch after the first half. -/
theorem Halves.watch (s : Halves db db₁ chain height cache logs b tx₁) {w : Watch}
    (hw : db.watches.get? w.id = some w) :
    ∃ w₁, db₁.watches.get? w.id = some w₁ ∧
      w.Took w₁ (db.takes chain cache (logs.filter (Log.upTo b)) w) := by
  obtain ⟨discovered, h⟩ := s.first
  rw [s.watches]
  exact sweepTx_took s.sound s.events (once_filter s.once) h hw

/-- No watch is new. -/
theorem Halves.watch_before (s : Halves db db₁ chain height cache logs b tx₁) {id : Uuid} {w₁ : Watch}
    (hw₁ : db₁.watches.get? id = some w₁) : ∃ w, db.watches.get? id = some w := by
  obtain ⟨discovered, h⟩ := s.first
  cases hw : db.watches.get? id with
  | some w => exact ⟨w, rfl⟩
  | none =>
      rw [s.watches, sweepTx_no_new_watch h hw] at hw₁
      contradiction

/-- A watch after the first half, and what it was before. -/
theorem Halves.watch_took (s : Halves db db₁ chain height cache logs b tx₁) {w₁ : Watch}
    (hw₁ : db₁.watches.get? w₁.id = some w₁) :
    ∃ w, db.watches.get? w.id = some w ∧ db₁.watches.get? w.id = some w₁ ∧
      w.Took w₁ (db.takes chain cache (logs.filter (Log.upTo b)) w) := by
  obtain ⟨w, hw⟩ := s.watch_before hw₁
  have hid : w.id = w₁.id := Table.key_of_get? hw
  rw [← hid] at hw hw₁
  obtain ⟨w', hw', took⟩ := s.watch hw
  rw [hw₁] at hw'
  exact ⟨w, hw, hw₁, Option.some.inj hw' ▸ took⟩

/-- **A watch takes from the whole what it takes from the first half and then
from the second.** -/
theorem Halves.takes (s : Halves db db₁ chain height cache logs b tx₁) {w w₁ : Watch}
    (hw : db.watches.get? w.id = some w) (hw₁ : db₁.watches.get? w.id = some w₁) :
    db.takes chain cache logs w =
      db.takes chain cache (logs.filter (Log.upTo b)) w ++
        db₁.takes chain (evictCompleted cache tx₁.out) (logs.filter fun l => !l.upTo b) w₁ := by
  obtain ⟨w₁', hw₁', took⟩ := s.watch hw
  rw [hw₁] at hw₁'
  obtain rfl := Option.some.inj hw₁'
  have hid : w₁.id = w.id := took.same.id
  unfold Db.takes at took ⊢
  rw [sweepMatches_split chain cache logs b]
  have hshare : db.share chain.chainId w.id (sweepMatches chain cache (logs.filter (Log.upTo b)) ++
      sweepMatches chain cache (logs.filter fun l => !l.upTo b)) =
        db.share chain.chainId w.id (sweepMatches chain cache (logs.filter (Log.upTo b))) ++
          db.share chain.chainId w.id (sweepMatches chain cache (logs.filter fun l => !l.upTo b)) :=
    List.filter_append ..
  rw [hshare, Watch.take_append took]
  congr 1
  by_cases active : w₁.status = .active
  · -- a watch that is still active was not evicted, and its rows are as before
    congr 1
    obtain ⟨discovered, h⟩ := s.first
    have hkept : ∀ key ref, ref.id = w.id → (cache.get key = some ref ↔
        (evictCompleted cache tx₁.out).get key = some ref) := by
      intro key ref href
      have hstatus : tx₁.db.statusOf ref.id = some .active := by
        rw [href, Db.statusOf, ← s.watches, hw₁, Option.map_some, active]
      rw [get_evictCompleted s.genuine h, Option.filter_eq_some_iff, hstatus]
      simp
    have hrows : ∀ m ∈ sweepMatches chain (evictCompleted cache tx₁.out)
        (logs.filter fun l => !l.upTo b),
        db₁.transfers.get? (m.logId chain.chainId) = db.transfers.get? (m.logId chain.chainId) := by
      intro m hm
      obtain ⟨hmatch, habove⟩ := mem_sweepMatches_cut not hm
      refine s.row_above rfl ?_
      change b < height chain.chainId m.blockHash
      rw [← s.height_eq hmatch]
      simpa using habove
    rw [hid, share_congr hrows]
    have hshares : ∀ ms : List MatchedTransfer, db.share chain.chainId w.id ms =
        (ms.filter fun m => m.watch.id = w.id).filter fun m => db.Countable (m.logId chain.chainId) := by
      intro ms
      rw [List.filter_filter, Db.share]
      refine List.filter_congr fun m _ => ?_
      rw [Bool.decide_and, Bool.and_comm]
    rw [hshares, hshares, sweepMatches_congr hkept]
  · rw [Watch.take_of_inactive active, Watch.take_of_inactive active]

/-- If there is room for the whole, there is room for the second half. -/
theorem Halves.room (s : Halves db db₁ chain height cache logs b tx₁)
    (room : ∀ w, db.watches.get? w.id = some w →
      w.confirmedAmount + total MatchedTransfer.units (db.takes chain cache logs w) < 2 ^ 256)
    {w₁ : Watch} (hw₁ : db₁.watches.get? w₁.id = some w₁) :
    w₁.confirmedAmount + total MatchedTransfer.units (db₁.takes chain (evictCompleted cache tx₁.out)
      (logs.filter fun l => !l.upTo b) w₁) < 2 ^ 256 := by
  obtain ⟨w, hw, hw₁, took⟩ := s.watch_took hw₁
  have hroom := room w hw
  rw [s.takes hw hw₁, total_append, ← Nat.add_assoc, ← took.amount] at hroom
  exact hroom

/-- The delta load of the second half. -/
theorem Halves.reload {cache₀ : WatchCache}
    (s : Halves db db₁ chain height (deltaLoad db chain cache₀).1 logs b tx₁) :
    deltaLoad db₁ chain (evictCompleted (deltaLoad db chain cache₀).1 tx₁.out) =
      (evictCompleted (deltaLoad db chain cache₀).1 tx₁.out, []) := by
  refine deltaLoad_again (Nat.le_of_eq (lastSeq_evict _ _).symm) fun w₁ hw₁ active => ?_
  obtain ⟨w, hw, -, took⟩ := s.watch_took hw₁
  refine ⟨w, hw, ?_, took.same⟩
  have hstatus := took.status
  rw [active] at hstatus
  split at hstatus
  · contradiction
  · exact hstatus.symm

/-- A log is canonical in its own half. -/
theorem Halves.mem_allCanonical (s : Halves db db₁ chain height cache logs b tx₁)
    (keep : Bool → Bool) (hash : B256) (index : Nat) :
    (hash, index) ∈ allCanonical (logs.filter fun l => keep (l.upTo b)) ↔
      (hash, index) ∈ allCanonical logs ∧ keep (decide (height chain.chainId hash ≤ b)) = true := by
  have hcut : ∀ l ∈ logs, l.blockHash = some hash →
      l.upTo b = decide (height chain.chainId hash ≤ b) := by
    intro l hl hhash
    obtain ⟨n, hn, hheight⟩ := s.mined l hl
    rw [Log.upTo, hn, hheight hash hhash]
    rfl
  rw [GumIndexer.mem_allCanonical, GumIndexer.mem_allCanonical]
  constructor
  · rintro ⟨l, hl, hr, hhash, hindex⟩
    obtain ⟨hl, hkeep⟩ := List.mem_filter.mp hl
    rw [hcut l hl hhash] at hkeep
    exact ⟨⟨l, hl, hr, hhash, hindex⟩, hkeep⟩
  · rintro ⟨⟨l, hl, hr, hhash, hindex⟩, hkeep⟩
    rw [← hcut l hl hhash] at hkeep
    exact ⟨l, List.mem_filter.mpr ⟨hl, hkeep⟩, hr, hhash, hindex⟩

/-- A row that is not counted ends the same way. -/
theorem Halves.afterSweep (s : Halves db db₁ chain height cache logs b tx₁) {t : Transfer}
    (ht : t.blockNumber = height t.chainId t.blockHash) (hcut : b < toBlock) :
    (t.afterSweep chain.chainId b (allCanonical (logs.filter (Log.upTo b)))).afterSweep chain.chainId
        toBlock (allCanonical (logs.filter fun l => !l.upTo b)) =
      t.afterSweep chain.chainId toBlock (allCanonical logs) := by
  by_cases hleft : t.chainId = chain.chainId ∧ t.status = .pending
  · have hheight : height chain.chainId t.blockHash = t.blockNumber := by rw [ht, hleft.1]
    by_cases hb : t.blockNumber ≤ b
    · have hmem := s.mem_allCanonical id t.blockHash t.logIndex
      have hfirst : t.afterSweep chain.chainId b (allCanonical (logs.filter (Log.upTo b))) =
          t.resolved (allCanonical logs) := by
        rw [Transfer.afterSweep, if_pos ⟨hleft.1, hleft.2, hb⟩, Transfer.resolved, Transfer.resolved]
        have hiff : (t.blockHash, t.logIndex) ∈ allCanonical (logs.filter (Log.upTo b)) ↔
            (t.blockHash, t.logIndex) ∈ allCanonical logs :=
          hmem.trans (and_iff_left (decide_eq_true (by omega)))
        simp only [hiff]
      rw [hfirst, Transfer.afterSweep, if_neg fun hp => t.resolved_not_pending _ hp.2.1,
        Transfer.afterSweep, if_pos ⟨hleft.1, hleft.2, by omega⟩]
    · have hmem := s.mem_allCanonical not t.blockHash t.logIndex
      have hfirst : t.afterSweep chain.chainId b (allCanonical (logs.filter (Log.upTo b))) = t := by
        rw [Transfer.afterSweep, if_neg fun hp => hb hp.2.2]
      have hiff : (t.blockHash, t.logIndex) ∈ allCanonical (logs.filter fun l => !l.upTo b) ↔
          (t.blockHash, t.logIndex) ∈ allCanonical logs := by
        refine hmem.trans (and_iff_left ?_)
        simp [hheight, hb]
      rw [hfirst, Transfer.afterSweep, Transfer.afterSweep, Transfer.resolved, Transfer.resolved]
      simp only [hiff]
  · have hkept : ∀ k canonical, t.afterSweep chain.chainId k canonical = t := fun k canonical =>
      if_neg fun hp => hleft ⟨hp.1, hp.2.1⟩
    rw [hkept, hkept, hkept]

/-! ## The second half -/

section Second

variable {discovered₂ : List WatchKey} {tx₂ : SweepTx}
  (s : Halves db db₁ chain height cache logs b tx₁) (sound₁ : Sound db₁)
  (genuine₁ : (evictCompleted cache tx₁.out).Genuine db₁ chain)
  (h : sweepTx db chain cache discovered toBlock logs = .ok tx)
  (h₂ : sweepTx db₁ chain (evictCompleted cache tx₁.out) discovered₂ toBlock
    (logs.filter fun l => !l.upTo b) = .ok tx₂)

include s sound₁ h h₂

/-- **A watch ends the same way.** -/
theorem Halves.watch_end (events₁ : EventLogs db₁) {w : Watch} (hw : db.watches.get? w.id = some w) :
    ∃ w₁ w₂ w', db₁.watches.get? w.id = some w₁ ∧ tx₂.db.watches.get? w.id = some w₂ ∧
      tx.db.watches.get? w.id = some w' ∧
      w.Took w₁ (db.takes chain cache (logs.filter (Log.upTo b)) w) ∧
      w₁.Took w₂ (db₁.takes chain (evictCompleted cache tx₁.out) (logs.filter fun l => !l.upTo b) w₁) ∧
      w₂.status = w'.status ∧ w₂.confirmedAmount = w'.confirmedAmount := by
  obtain ⟨w', hw', took⟩ := sweepTx_took s.sound s.events s.once h hw
  obtain ⟨w₁, hw₁, took₁⟩ := s.watch hw
  have hid : w₁.id = w.id := took₁.same.id
  obtain ⟨w₂, hw₂, took₂⟩ := sweepTx_took sound₁ events₁ (once_filter s.once) h₂ (hid ▸ hw₁)
  rw [s.takes hw hw₁] at took
  obtain ⟨hamount, hstatus⟩ := took.unique (took₁.trans took₂)
  exact ⟨w₁, w₂, w', hw₁, hid ▸ hw₂, hw', took₁, took₂, hstatus, hamount⟩

/-- **Watches end the same**: what the first half takes and what the second half
adds is what the whole takes. -/
theorem Halves.watches_end (events₁ : EventLogs db₁) (id : Uuid) :
    (tx₂.db.watches.get? id).map (fun w => (w.status, w.confirmedAmount)) =
      (tx.db.watches.get? id).map fun w => (w.status, w.confirmedAmount) := by
  cases hw : db.watches.get? id with
  | some w =>
      obtain rfl := Table.key_of_get? hw
      obtain ⟨w₁, w₂, w', -, hw₂, hw', -, -, hstatus, hamount⟩ := s.watch_end sound₁ h h₂ events₁ hw
      rw [hw₂, hw', Option.map_some, Option.map_some, hstatus, hamount]
  | none =>
      have hnone₁ : db₁.watches.get? id = none := by
        cases hw₁ : db₁.watches.get? id with
        | none => rfl
        | some w₁ =>
            obtain ⟨w, hw'⟩ := s.watch_before hw₁
            rw [hw] at hw'
            contradiction
      rw [sweepTx_no_new_watch h hw, sweepTx_no_new_watch h₂ hnone₁]

include genuine₁

/-- What is counted is counted in one of the halves. -/
theorem Halves.confirmed {m : MatchedTransfer} :
    m ∈ tx.out.confirmed ↔ m ∈ tx₁.out.confirmed ∨ m ∈ tx₂.out.confirmed := by
  obtain ⟨discovered₁, h₁⟩ := s.first
  rw [mem_confirmed s.sound s.genuine s.once h, mem_confirmed s.sound s.genuine (once_filter s.once) h₁,
    mem_confirmed sound₁ genuine₁ (once_filter s.once) h₂]
  constructor
  · rintro ⟨w, hw, hm⟩
    obtain ⟨w₁, hw₁, took₁⟩ := s.watch hw
    rw [s.takes hw hw₁] at hm
    rcases List.mem_append.mp hm with hm | hm
    · exact .inl ⟨w, hw, hm⟩
    · exact .inr ⟨w₁, took₁.same.id ▸ hw₁, hm⟩
  · rintro (⟨w, hw, hm⟩ | ⟨w₁, hw₁, hm⟩)
    · obtain ⟨w₁, hw₁, -⟩ := s.watch hw
      exact ⟨w, hw, by rw [s.takes hw hw₁]; exact List.mem_append_left _ hm⟩
    · obtain ⟨w, hw⟩ := s.watch_before hw₁
      have hid : w.id = w₁.id := Table.key_of_get? hw
      rw [← hid] at hw hw₁
      exact ⟨w, hw, by rw [s.takes hw hw₁]; exact List.mem_append_right _ hm⟩

/-- **The rows end the same way.** -/
theorem Halves.row_end (hcut : b < toBlock) (log : LogId) :
    tx₂.db.transfers.get? log = tx.db.transfers.get? log := by
  obtain ⟨discovered₁, h₁⟩ := s.first
  have hconfirmed := fun m => s.confirmed sound₁ genuine₁ h h₂ (m := m)
  obtain ⟨hcounted, hkept⟩ := sweepTx_rows s.once h
  obtain ⟨hcounted₁, hkept₁⟩ := sweepTx_rows (once_filter s.once) h₁
  obtain ⟨hcounted₂, hkept₂⟩ := sweepTx_rows (once_filter s.once) h₂
  have habove : ∀ m ∈ tx₂.out.confirmed, b < height chain.chainId m.blockHash := by
    intro m hm
    obtain ⟨mid, cs, hcs, hout, -, -⟩ := sweepTx_trace h₂
    obtain ⟨hmatch, hgt⟩ := mem_sweepMatches_cut not (hcs.mem (hout ▸ hm))
    rw [← s.height_eq hmatch]
    simpa using hgt
  by_cases hlog : log ∈ tx.out.confirmed.map (·.logId chain.chainId)
  · obtain ⟨m, hm, rfl⟩ := List.mem_map.mp hlog
    rw [hcounted m hm]
    rcases (hconfirmed m).mp hm with hm₁ | hm₂
    · -- counted in the first half, and settled for the second
      have hnot : m.logId chain.chainId ∉ tx₂.out.confirmed.map (·.logId chain.chainId) := by
        intro hmem
        obtain ⟨m₂, hm₂, heq⟩ := List.mem_map.mp hmem
        have hgt := habove m₂ hm₂
        have hhash : m₂.blockHash = m.blockHash := congrArg LogId.blockHash heq
        obtain ⟨mid, cs, hcs, hout, -, -⟩ := sweepTx_trace h₁
        obtain ⟨hmatch, hle⟩ := mem_sweepMatches_cut id (hcs.mem (hout ▸ hm₁))
        have hle' : m.blockNumber ≤ b := of_decide_eq_true hle
        rw [hhash, ← s.height_eq hmatch] at hgt
        omega
      rw [hkept₂ _ hnot, s.transfers, hcounted₁ m hm₁, Option.map_some, Transfer.afterSweep, if_neg]
      rintro ⟨-, hpending, -⟩
      exact absurd hpending (by simp [MatchedTransfer.confirmedRow, Transfer.withStatus])
    · rw [hcounted₂ m hm₂, s.row_above rfl (habove m hm₂)]
  · have hnone : ∀ m, (m ∈ tx₁.out.confirmed ∨ m ∈ tx₂.out.confirmed) → m.logId chain.chainId ≠ log :=
      fun m hm heq => hlog (heq ▸ List.mem_map_of_mem ((hconfirmed m).mpr hm))
    have hnot₁ : log ∉ tx₁.out.confirmed.map (·.logId chain.chainId) := fun hmem => by
      obtain ⟨m, hm, heq⟩ := List.mem_map.mp hmem
      exact hnone m (.inl hm) heq
    have hnot₂ : log ∉ tx₂.out.confirmed.map (·.logId chain.chainId) := fun hmem => by
      obtain ⟨m, hm, heq⟩ := List.mem_map.mp hmem
      exact hnone m (.inr hm) heq
    rw [hkept log hlog, hkept₂ log hnot₂, s.transfers, hkept₁ log hnot₁, Option.map_map]
    cases hrow : db.transfers.get? log with
    | none => rfl
    | some t => exact congrArg some (s.afterSweep (s.heights log t hrow) hcut)

/-- **The cache ends the same way**: what the halves completed is evicted. -/
theorem Halves.cache_end (events₁ : EventLogs db₁) (key : WatchKey) :
    (evictCompleted (evictCompleted cache tx₁.out) tx₂.out).get key =
      (evictCompleted cache tx.out).get key := by
  obtain ⟨discovered₁, h₁⟩ := s.first
  rw [get_evictCompleted genuine₁ h₂, get_evictCompleted s.genuine h₁, get_evictCompleted s.genuine h]
  cases hget : cache.get key with
  | none => rfl
  | some ref =>
      obtain ⟨w, hw, -, hentry⟩ := s.genuine key ref hget
      have hid : ref.id = w.id := by rw [slimEntry_ref hentry]
      obtain ⟨w₁, w₂, w', hw₁, hw₂, hw', took₁, took₂, hstatus, -⟩ :=
        s.watch_end sound₁ h h₂ events₁ hw
      have hstatus₁ := took₁.status
      have hstatus₂ := took₂.status
      have hof : ∀ {d : Db} {u : Watch}, d.watches.get? w.id = some u →
          d.statusOf ref.id = some u.status := fun hu => by rw [hid, Db.statusOf, hu, Option.map_some]
      have hof₁ := hof hw₁
      have hof₁' := hof (s.watches ▸ hw₁)
      have hof' := hof hw'
      rw [← hstatus] at hof'
      -- an active watch is completed in the first half, in the second, or not at all
      by_cases active : w.status = .active
      · by_cases reached : w.threshold ≤ w₁.confirmedAmount
        · rw [if_pos ⟨active, reached⟩] at hstatus₁
          rw [hstatus₁, if_neg (by simp)] at hstatus₂
          simp [Option.filter, hof hw, hof₁', hof', active, hstatus₁, hstatus₂]
        · rw [if_neg fun hr => reached hr.2, active] at hstatus₁
          simp [Option.filter, hof hw, hof hw₂, hof₁, hof₁', hof', active, hstatus₁]
      · rw [if_neg fun hr => active hr.1] at hstatus₁
        simp [Option.filter, hof hw, hof₁, hof₁', hof', active, hstatus₁]

end Second

end Halves

/-! ## Two sweeps and one -/

/-- The databases and caches agree, up to the events and what is derived from
them. -/
structure SameEnd (db db' : Db) (cache cache' : WatchCache) : Prop where
  cursors : db'.cursors = db.cursors
  watches : ∀ id, (db'.watches.get? id).map (fun w => (w.status, w.confirmedAmount)) =
    (db.watches.get? id).map fun w => (w.status, w.confirmedAmount)
  transfers : ∀ log, db'.transfers.get? log = db.transfers.get? log
  entries : ∀ key, cache'.get key = cache.get key
  lastSeq : cache'.lastSeq = cache.lastSeq
  confirmedCount : ∀ c token, (db'.rollup c token).confirmedCount = (db.rollup c token).confirmedCount
  confirmedVolume : ∀ c token,
    (db'.rollup c token).confirmedVolume = (db.rollup c token).confirmedVolume
  thresholdsReached : ∀ c token,
    (db'.rollup c token).thresholdsReached = (db.rollup c token).thresholdsReached

/-- A measure that is not about events depends on the rows and on the totals
and statuses of the watches. -/
theorem measure_eq_of_same {db' : Db} {on : Uuid → Bool} {s : Stat} (hs : ∀ type, s.ofType type = 0)
    (hwatches : ∀ id, (db'.watches.get? id).map (fun w => (w.status, w.confirmedAmount)) =
      (db.watches.get? id).map fun w => (w.status, w.confirmedAmount))
    (htransfers : ∀ log, db'.transfers.get? log = db.transfers.get? log) :
    db'.measure on s = db.measure on s := by
  have hwatch : ∀ {w w' : Watch}, (w'.status, w'.confirmedAmount) = (w.status, w.confirmedAmount) →
      s.ofWatch w' = s.ofWatch w := by
    intro w w' heq
    obtain ⟨hstatus, hamount⟩ := Prod.mk.inj heq
    cases s <;> simp [Stat.ofWatch, hstatus, hamount]
  have hsum : db'.watches.sumOf (fun w => included (on w.id) (s.ofWatch w)) =
      db.watches.sumOf fun w => included (on w.id) (s.ofWatch w) := by
    refine Table.sumOf_eq_of_get? fun id => ?_
    have hid := hwatches id
    cases hw' : db'.watches.get? id with
    | none =>
        rw [hw', Option.map_none] at hid
        rw [Option.map_eq_none_iff.mp hid.symm]
    | some w' =>
        rw [hw', Option.map_some] at hid
        obtain ⟨w, hw, heq⟩ := Option.map_eq_some_iff.mp hid.symm
        have hkey : w'.id = w.id := (Table.key_of_get? hw').trans (Table.key_of_get? hw).symm
        rw [hw, Option.map_some, Option.map_some, hkey, hwatch heq.symm]
  have hrows : rowsOn s on db'.transfers = rowsOn s on db.transfers :=
    Table.sumOf_eq_of_get? fun log => by rw [htransfers]
  unfold Db.measure
  rw [hsum, hrows]
  simp only [hs, sumOf_included_zero]

theorem nodup_confirmed (once : (logs.map fun l => (l.blockHash, l.logIndex)).Nodup)
    (h : sweepTx db chain cache discovered toBlock logs = .ok tx) : tx.out.confirmed.Nodup := by
  obtain ⟨mid, cs, hcs, hout, -, -⟩ := sweepTx_trace h
  rw [hout]
  exact (List.Nodup.of_map _ (nodup_sweepMatches once)).sublist hcs

/-- Counting fewer matches counts no more. -/
theorem counted_le {tx' : SweepTx} {on : Uuid → Bool} (distinct : tx'.out.confirmed.Nodup)
    (hsub : ∀ m ∈ tx'.out.confirmed, m ∈ tx.out.confirmed) : tx'.counted on ≤ tx.counted on := by
  refine total_le_of_subset (distinct.filter _) fun m hm => ?_
  obtain ⟨hmem, hon⟩ := List.mem_filter.mp hm
  exact List.mem_filter.mpr ⟨hsub m hmem, hon⟩

theorem Log.Agree.filter {tokenOf : LogId → Address} {p : Log → Bool}
    (agree : Log.Agree tokenOf chain logs) : Log.Agree tokenOf chain (logs.filter p) :=
  fun l hl => agree l (List.mem_of_mem_filter hl)

/-- The transaction of a sweep with room for what it counts. -/
theorem sweepTx_of_room (discovered : List WatchKey) (toBlock : Nat) (inv : db.Healthy)
    (once : (logs.map fun l => (l.blockHash, l.logIndex)).Nodup)
    (room : ∀ w, db.watches.get? w.id = some w →
      w.confirmedAmount + total MatchedTransfer.units (db.takes chain cache logs w) < 2 ^ 256) :
    ∃ tx, sweepTx db chain cache discovered toBlock logs = .ok tx := by
  rw [sweepTx_ok_iff_counts inv, countAll_ok_iff inv.sound inv.events (nodup_sweepMatches once)]
  exact room

/-- The operation commits the transaction of a sweep. -/
structure CommitsSweep (db : Db) (op : Op) (chain : ChainSpec) (toBlock : Nat) (tx : SweepTx) : Prop where
  flushed : ∃ db', flushStats chain tx = .ok db' ∧ exec db op = setCursor db' chain.chainId toBlock
  credits : creditsOf db op = tx.out.confirmed.map (·.toCredit chain.chainId)
  quiet : ∀ id new, ¬ op.Creates id new

namespace CommitsSweep

variable {op : Op} (h : CommitsSweep db op chain toBlock tx)

include h

/-- What the operation leaves is what the transaction made, but for the
statistics. -/
theorem state : ∃ stats, exec db op = setCursor { tx.db with stats } chain.chainId toBlock := by
  obtain ⟨db', hflush, hstate⟩ := h.flushed
  obtain ⟨stats, rfl⟩ := flushStats_frame hflush
  exact ⟨stats, hstate⟩

theorem watches : (exec db op).watches = tx.db.watches := by
  obtain ⟨stats, hstate⟩ := h.state
  rw [hstate]
  rfl

theorem transfers : (exec db op).transfers = tx.db.transfers := by
  obtain ⟨stats, hstate⟩ := h.state
  rw [hstate]
  rfl

theorem cursors : (exec db op).cursors = tx.db.cursors.replace ⟨chain.chainId, toBlock⟩ := by
  obtain ⟨stats, hstate⟩ := h.state
  rw [hstate]
  rfl

/-- What it reports as counted is what the transaction counted. -/
theorem counted (on : Uuid → Bool) :
    total Credit.amount ((creditsOf db op).filter fun cr => on cr.watchId) = tx.counted on := by
  rw [h.credits, counted_eq_credits]

/-- The volume of a token grows by what was counted for it. -/
theorem confirmedVolume (volumes : Volumes db tx) (hstats : tx.db.stats = db.stats) (token : Address) :
    ((exec db op).rollup chain.chainId token).confirmedVolume =
      (db.rollup chain.chainId token).confirmedVolume +
        db.paidIn token tx.out.confirmed % 2 ^ 256 := by
  obtain ⟨db', hflush, hstate⟩ := h.flushed
  have hrollup := rollup_flush hflush chain.chainId token
  rw [if_pos rfl, Db.rollup, Db.rollup, hstats] at hrollup
  rw [hstate]
  change (db'.rollup chain.chainId token).confirmedVolume = _
  rw [Db.rollup, hrollup]
  change (db.rollup chain.chainId token).confirmedVolume + (tx.delta token).volume.toNat = _
  rw [volumes.volume, BitVec.toNat_ofNat]

end CommitsSweep

/-- A sweep from the cursor that commits. -/
theorem commitsSweep_at {cursor : Nat} {db' : Db} (hat : db.CursorAt chain.chainId cursor)
    (h : sweepTx db chain (deltaLoad db chain cache).1 (deltaLoad db chain cache).2 toBlock logs = .ok tx)
    (hflush : flushStats chain tx = .ok db') :
    CommitsSweep db (.applySweep chain cache cursor toBlock logs) chain toBlock tx ∧
      (applySweep db chain cache cursor toBlock logs).1 =
        evictCompleted (deltaLoad db chain cache).1 tx.out := by
  have happly := applySweep_of_ok hat h hflush
  refine ⟨⟨⟨db', hflush, ?_⟩, ?_, fun _ _ creates => creates⟩, by rw [happly]⟩
  · simp only [exec, happly, committed]
  · simp only [creditsOf, happly]

/-- What two operations add to the statistics is what one adds, if they move
the measures alike. -/
theorem rollup_in_two {tokenOf : LogId → Address} {op op₁ op₂ : Op} {c : Nat} {token : Address}
    {s : Stat} (rooted : Rooted tokenOf db) (suited : op.Suited tokenOf db)
    (suited₁ : op₁.Suited tokenOf db) (suited₂ : op₂.Suited tokenOf (exec db op₁))
    (hop₁ : ∀ id new, ¬ op₁.Creates id new)
    (hsum : total Credit.amount
      ((creditsOf db op).filter fun cr => db.onToken c token cr.watchId) < 2 ^ 256)
    (hsum₁ : total Credit.amount
      ((creditsOf db op₁).filter fun cr => db.onToken c token cr.watchId) < 2 ^ 256)
    (hsum₂ : total Credit.amount
      ((creditsOf (exec db op₁) op₂).filter fun cr => db.onToken c token cr.watchId) < 2 ^ 256)
    (hmeasure : (exec (exec db op₁) op₂).measure (db.onToken c token) s =
      (exec db op).measure (db.onToken c token) s) :
    ((exec (exec db op₁) op₂).rollup c token).get s = ((exec db op).rollup c token).get s := by
  have marks := marks_onToken db c token
  have marks₁ : Marks (db.onToken c token) c token (exec db op₁) := by
    rw [← onToken_eq hop₁]
    exact marks_onToken _ c token
  have hwhole := exec_balance suited marks rooted hsum s
  have hfirst := exec_balance suited₁ marks rooted hsum₁ s
  have hsecond := exec_balance suited₂ marks₁ (rooted.exec suited₁) hsum₂ s
  omega

/-- With genuine entries a sweep counts only for watches of the tokens of its
logs. -/
theorem suited_sweep {tokenOf : LogId → Address} (genuine : cache.Genuine db chain)
    (agree : Log.Agree tokenOf chain logs) (cursor toBlock : Nat) :
    Op.Suited tokenOf db (.applySweep chain cache cursor toBlock logs) := by
  refine Op.Wired.suited ⟨genuine, agree⟩ fun _ _ _ _ heq => ?_
  exact Op.noConfusion heq

/-- A watch takes no more from the first half than from the whole. -/
theorem takes_first_le (w : Watch) (b : Nat) :
    total MatchedTransfer.units (db.takes chain cache (logs.filter (Log.upTo b)) w) ≤
      total MatchedTransfer.units (db.takes chain cache logs w) := by
  unfold Db.takes
  rw [sweepMatches_split chain cache logs b]
  have hshare : ∀ ms ms' : List MatchedTransfer, db.share chain.chainId w.id (ms ++ ms') =
      db.share chain.chainId w.id ms ++ db.share chain.chainId w.id ms' :=
    fun ms ms' => List.filter_append ..
  rw [hshare]
  exact total_le_of_sublist (Watch.take_isPrefix w _ _).sublist

/-- What is counted for the watches of a token of one chain is paid in the
token. -/
theorem counted_le_paidIn (db : Db) (c : Nat) (token : Address) (tx : SweepTx) :
    tx.counted (db.onToken c token) ≤ db.paidIn token tx.out.confirmed := by
  refine total_le_of_sublist (List.monotone_filter_right _ fun m hm => ?_)
  unfold Db.onToken at hm
  unfold Db.watchToken
  cases hw : db.watches.get? m.watch.id with
  | none => rw [hw] at hm; contradiction
  | some w =>
      rw [hw, Option.any_some, decide_eq_true_eq] at hm
      rw [Option.map_some, hm.2, decide_eq_true rfl]

/-- **The two halves end where the whole does.** -/
theorem Halves.sameEnd {height : Nat → B256 → Nat} {tokenOf : LogId → Address} {op op₁ op₂ : Op} {b : Nat}
    {tx₁ tx₂ : SweepTx} {discovered₂ : List WatchKey}
    (s : Halves db (exec db op₁) chain height cache logs b tx₁) (inv₁ : (exec db op₁).Healthy)
    (genuine₁ : (evictCompleted cache tx₁.out).Genuine (exec db op₁) chain) (below : b < toBlock)
    (h : sweepTx db chain cache discovered toBlock logs = .ok tx)
    (h₂ : sweepTx (exec db op₁) chain (evictCompleted cache tx₁.out) discovered₂ toBlock
      (logs.filter fun l => !l.upTo b) = .ok tx₂)
    (hop : CommitsSweep db op chain toBlock tx) (hop₁ : CommitsSweep db op₁ chain b tx₁)
    (hop₂ : CommitsSweep (exec db op₁) op₂ chain toBlock tx₂) (rooted : Rooted tokenOf db)
    (suited : op.Suited tokenOf db) (suited₁ : op₁.Suited tokenOf db)
    (suited₂ : op₂.Suited tokenOf (exec db op₁))
    (summed : ∀ token, db.paidIn token tx.out.confirmed < 2 ^ 256) :
    SameEnd (exec db op) (exec (exec db op₁) op₂) (evictCompleted cache tx.out)
      (evictCompleted (evictCompleted cache tx₁.out) tx₂.out) := by
  obtain ⟨discovered₁, h₁⟩ := s.first
  have hwatches : ∀ id, ((exec (exec db op₁) op₂).watches.get? id).map
      (fun w => (w.status, w.confirmedAmount)) =
        ((exec db op).watches.get? id).map fun w => (w.status, w.confirmedAmount) := by
    rw [hop.watches, hop₂.watches]
    exact s.watches_end inv₁.sound h h₂ inv₁.events
  have htransfers : ∀ log, (exec (exec db op₁) op₂).transfers.get? log =
      (exec db op).transfers.get? log := by
    rw [hop.transfers, hop₂.transfers]
    exact s.row_end inv₁.sound genuine₁ h h₂ below
  -- each half counts a part of what the whole counts
  have hpart : ∀ {tx' : SweepTx} {on : Uuid → Bool}, tx'.out.confirmed.Nodup →
      (∀ m ∈ tx'.out.confirmed, m ∈ tx₁.out.confirmed ∨ m ∈ tx₂.out.confirmed) →
      tx'.counted on ≤ tx.counted on := fun distinct hsub =>
    counted_le distinct fun m hm => (s.confirmed inv₁.sound genuine₁ h h₂).mpr (hsub m hm)
  have hrollup : ∀ c token (stat : Stat), (∀ type, stat.ofType type = 0) →
      ((exec (exec db op₁) op₂).rollup c token).get stat = ((exec db op).rollup c token).get stat := by
    intro c token stat hstat
    have hsum : tx.counted (db.onToken c token) < 2 ^ 256 :=
      Nat.lt_of_le_of_lt (counted_le_paidIn db c token tx) (summed token)
    refine rollup_in_two rooted suited suited₁ suited₂ hop₁.quiet ?_ ?_ ?_
      (measure_eq_of_same hstat hwatches htransfers)
    · rw [hop.counted]
      exact hsum
    · rw [hop₁.counted]
      exact Nat.lt_of_le_of_lt (hpart (nodup_confirmed (once_filter s.once) h₁) fun m => .inl) hsum
    · rw [hop₂.counted]
      exact Nat.lt_of_le_of_lt (hpart (nodup_confirmed (once_filter s.once) h₂) fun m => .inr) hsum
  exact
    { cursors := by
        rw [hop.cursors, hop₂.cursors, sweepTx_cursors h, sweepTx_cursors h₂, hop₁.cursors,
          sweepTx_cursors h₁]
        exact Table.replace_replace rfl
      watches := hwatches
      transfers := htransfers
      entries := s.cache_end inv₁.sound genuine₁ h h₂ inv₁.events
      lastSeq := by
        unfold evictCompleted
        rw [lastSeq_evict, lastSeq_evict, lastSeq_evict]
      confirmedCount := fun c token => hrollup c token .counted fun _ => rfl
      confirmedVolume := fun c token => hrollup c token .volume fun _ => rfl
      thresholdsReached := fun c token => hrollup c token .thresholds fun _ => rfl }

/-! ## The volume on record -/

/-- The volumes on record have room for what a sweep with this cache counts. -/
def Db.SweepFits (db : Db) (chain : ChainSpec) (cache : WatchCache) (logs : List Log) : Prop :=
  db.VolumeFits chain.chainId (db.gains chain.chainId (sweepMatches chain cache logs))

instance (db : Db) (chain : ChainSpec) (cache : WatchCache) (logs : List Log) :
    Decidable (db.SweepFits chain cache logs) :=
  inferInstanceAs (Decidable (db.VolumeFits _ _))

/-- What a sweep counts for a token is what its watches take. -/
theorem paidIn_sweepTx (inv : Sound db)
    (once : (logs.map fun l => (l.blockHash, l.logIndex)).Nodup)
    (h : sweepTx db chain cache discovered toBlock logs = .ok tx) (token : Address) :
    db.paidIn token tx.out.confirmed =
      db.volume (db.gains chain.chainId (sweepMatches chain cache logs)) token := by
  obtain ⟨mid, hcount, hresolve⟩ := sweepTx_phases h
  obtain ⟨-, hconfirmed, -⟩ := resolveAll_trace (lists_leftovers _ _ _) hresolve
  rw [hconfirmed]
  exact paidIn_countAll inv (nodup_sweepMatches once) hcount token

/-- Smaller gains make a smaller volume. -/
theorem volume_mono {gain gain' : Watch → Nat} (h : ∀ w, gain' w ≤ gain w) (token : Address) :
    db.volume gain' token ≤ db.volume gain token := by
  unfold Db.volume
  exact List.sum_le_sum fun w _ => h w

/-- If there is room for the whole, there is room for the first half. -/
theorem sweepFits_first {b : Nat}
    (summed : ∀ token, db.volume (db.gains chain.chainId (sweepMatches chain cache logs)) token < 2 ^ 256)
    (h : db.SweepFits chain cache logs) : db.SweepFits chain cache (logs.filter (Log.upTo b)) := by
  intro u hu
  have hle : db.volume
        (db.gains chain.chainId (sweepMatches chain cache (logs.filter (Log.upTo b)))) u.tokenAddress ≤
      db.volume (db.gains chain.chainId (sweepMatches chain cache logs)) u.tokenAddress :=
    volume_mono (fun w => takes_first_le w b) u.tokenAddress
  have hlt := summed u.tokenAddress
  have hfits := h u hu
  rw [Nat.mod_eq_of_lt hlt] at hfits
  exact Nat.lt_of_le_of_lt (Nat.add_le_add_left ((Nat.mod_le _ _).trans hle) _) hfits

/-- **If the whole can be flushed, so can the second half after the first.** -/
theorem Halves.flush_second {height : Nat → B256 → Nat} {b : Nat} {tx₁ tx₂ : SweepTx}
    {discovered₂ : List WatchKey} (s : Halves db db₁ chain height cache logs b tx₁)
    (sound₁ : Sound db₁) (genuine₁ : (evictCompleted cache tx₁.out).Genuine db₁ chain)
    (h : sweepTx db chain cache discovered toBlock logs = .ok tx)
    (h₂ : sweepTx db₁ chain (evictCompleted cache tx₁.out) discovered₂ toBlock
      (logs.filter fun l => !l.upTo b) = .ok tx₂)
    (capped : db.Capped) (capped₁ : db₁.Capped)
    (summed : ∀ token, db.paidIn token tx.out.confirmed < 2 ^ 256)
    (grown : ∀ token, (db₁.rollup chain.chainId token).confirmedVolume =
      (db.rollup chain.chainId token).confirmedVolume + db.paidIn token tx₁.out.confirmed % 2 ^ 256)
    (whole : ∃ d, flushStats chain tx = .ok d) : ∃ d, flushStats chain tx₂ = .ok d := by
  obtain ⟨discovered₁, h₁⟩ := s.first
  rw [flushStats_ok_iff (sweepTx_volumes h) (sweepTx_stats h) capped] at whole
  rw [flushStats_ok_iff (sweepTx_volumes h₂) (sweepTx_stats h₂) capped₁]
  intro u₁ hu₁
  obtain ⟨u, hu, -, took⟩ := s.watch_took (Table.get?_of_mem hu₁)
  have hfits := whole u (Table.mem_of_get? hu)
  rw [Nat.mod_eq_of_lt (summed _), ← took.same.tokenAddress] at hfits
  have htoken : ∀ id, db₁.watchToken id = db.watchToken id := fun id => by
    rw [← (sweepTx_volumes h₁).tokens, Db.watchToken, s.watches, Db.watchToken]
  have hparts : db.paidIn u₁.tokenAddress tx₁.out.confirmed +
      db₁.paidIn u₁.tokenAddress tx₂.out.confirmed ≤ db.paidIn u₁.tokenAddress tx.out.confirmed := by
    unfold Db.paidIn
    simp only [htoken]
    rw [← total_append, ← List.filter_append]
    have hapart : (tx₁.out.confirmed ++ tx₂.out.confirmed).Nodup := by
      refine List.nodup_append.mpr ⟨nodup_confirmed (once_filter s.once) h₁,
        nodup_confirmed (once_filter s.once) h₂, fun m hm m' hm' heq => ?_⟩
      -- no match is both up to the cut and above it
      obtain ⟨mid₁, cs₁, hcs₁, hout₁, -, -⟩ := sweepTx_trace h₁
      obtain ⟨mid₂, cs₂, hcs₂, hout₂, -, -⟩ := sweepTx_trace h₂
      obtain ⟨-, hle⟩ := mem_sweepMatches_cut id (hcs₁.mem (hout₁ ▸ hm))
      obtain ⟨-, hgt⟩ := mem_sweepMatches_cut not (hcs₂.mem (hout₂ ▸ hm'))
      rw [← heq] at hgt
      have hle' : decide (m.blockNumber ≤ b) = true := hle
      rw [hle'] at hgt
      contradiction
    refine total_le_of_subset (hapart.filter _) fun m hm => ?_
    obtain ⟨hmem, htoken⟩ := List.mem_filter.mp hm
    exact List.mem_filter.mpr ⟨(s.confirmed sound₁ genuine₁ h h₂).mpr (List.mem_append.mp hmem), htoken⟩
  rw [grown]
  have hmod₁ := Nat.mod_le (db.paidIn u₁.tokenAddress tx₁.out.confirmed) (2 ^ 256)
  have hmod₂ := Nat.mod_le (db₁.paidIn u₁.tokenAddress tx₂.out.confirmed) (2 ^ 256)
  omega

/-! ## One sweep or two -/

/-- The cache and the database after a sweep. -/
def sweptTo (chain : ChainSpec) (cursor toBlock : Nat) (logs : List Log) (s : WatchCache × Db) :
    WatchCache × Db :=
  let r := applySweep s.2 chain s.1 cursor toBlock logs
  (r.1, committed s.2 r.2)

/-- A sweep without room for its volume loads its cache and changes nothing
else. -/
theorem sweptTo_of_unfit {cursor : Nat} (inv : Sound db) (capped : db.Capped)
    (once : (logs.map fun l => (l.blockHash, l.logIndex)).Nodup)
    (hat : db.CursorAt chain.chainId cursor)
    (h : sweepTx db chain (deltaLoad db chain cache).1 (deltaLoad db chain cache).2 toBlock logs = .ok tx)
    (unfit : ¬ db.SweepFits chain (deltaLoad db chain cache).1 logs) :
    sweptTo chain cursor toBlock logs (cache, db) = ((deltaLoad db chain cache).1, db) := by
  unfold Db.SweepFits at unfit
  rw [← flush_sweepTx_ok_iff inv capped (nodup_sweepMatches once) h] at unfit
  cases hflush : flushStats chain tx with
  | ok db' => exact absurd ⟨db', hflush⟩ unfit
  | error e =>
      unfold sweptTo
      simp only [applySweep_of_flush_error hat h hflush, committed]

/-- A sweep from the cursor leaves it where it is or moves it to its end. -/
theorem cursorAt_sweptTo {cursor : Nat} (cache : WatchCache) (toBlock : Nat) (logs : List Log)
    (hat : db.CursorAt chain.chainId cursor) :
    (sweptTo chain cursor toBlock logs (cache, db)).2.CursorAt chain.chainId cursor ∨
      (sweptTo chain cursor toBlock logs (cache, db)).2.CursorAt chain.chainId toBlock := by
  unfold sweptTo
  rcases applySweep_cases db chain cache cursor toBlock logs with
    ⟨tx, db', -, htx, hflush, he⟩ | ⟨actual, -, he⟩ | he | ⟨e, -, he⟩
  · simp only [he, committed]
    exact .inr (Db.cursorAt_setCursor (sweepTx_cursorAt htx hflush hat) toBlock)
  all_goals
    simp only [he, committed]
    exact .inl hat

/-- A sweep with room for its volume moves it. -/
theorem cursorAt_sweptTo_of_ok {cursor : Nat} {db' : Db} (hat : db.CursorAt chain.chainId cursor)
    (h : sweepTx db chain (deltaLoad db chain cache).1 (deltaLoad db chain cache).2 toBlock logs = .ok tx)
    (hflush : flushStats chain tx = .ok db') :
    (sweptTo chain cursor toBlock logs (cache, db)).2.CursorAt chain.chainId toBlock := by
  unfold sweptTo
  simp only [applySweep_of_ok hat h hflush, committed]
  exact Db.cursorAt_setCursor (sweepTx_cursorAt h hflush hat) toBlock

theorem SameEnd.refl (db : Db) (cache : WatchCache) : SameEnd db db cache cache :=
  ⟨rfl, fun _ => rfl, fun _ => rfl, fun _ => rfl, rfl, fun _ _ => rfl, fun _ _ => rfl, fun _ _ => rfl⟩

/-- The sweep of the second half, after that of the first. -/
def sweptInTwo (chain : ChainSpec) (cursor b toBlock : Nat) (logs : List Log) (s : WatchCache × Db) :
    WatchCache × Db :=
  sweptTo chain b toBlock (logs.filter fun l => !l.upTo b)
    (sweptTo chain cursor b (logs.filter (Log.upTo b)) s)

section InTwo

variable {cursor b : Nat} {tx₁ : SweepTx}

/-- With room for the whole range, both halves commit and end where the whole
does. -/
theorem sameEnd_of_fits {height : Nat → B256 → Nat} {tokenOf : LogId → Address} (inv : db.Healthy)
    (capped : db.Capped) (heights : db.Heights height) (rooted : Rooted tokenOf db)
    (hat : db.CursorAt chain.chainId cursor) (below : b < toBlock) (genuine : cache.Genuine db chain)
    (mined : ∀ l ∈ logs, ∃ n, l.blockNumber = some n ∧ ∀ h ∈ l.blockHash, n = height chain.chainId h)
    (once : (logs.map fun l => (l.blockHash, l.logIndex)).Nodup) (agree : Log.Agree tokenOf chain logs)
    (room : ∀ w, db.watches.get? w.id = some w → w.confirmedAmount +
      total MatchedTransfer.units (db.takes chain (deltaLoad db chain cache).1 logs w) < 2 ^ 256)
    (summed : ∀ token, db.volume (db.gains chain.chainId
      (sweepMatches chain (deltaLoad db chain cache).1 logs)) token < 2 ^ 256)
    (h : sweepTx db chain (deltaLoad db chain cache).1 (deltaLoad db chain cache).2 toBlock logs = .ok tx)
    (h₁ : sweepTx db chain (deltaLoad db chain cache).1 (deltaLoad db chain cache).2 b
      (logs.filter (Log.upTo b)) = .ok tx₁)
    (fits : db.SweepFits chain (deltaLoad db chain cache).1 logs) :
    SameEnd (sweptTo chain cursor toBlock logs (cache, db)).2
      (sweptInTwo chain cursor b toBlock logs (cache, db)).2
      (sweptTo chain cursor toBlock logs (cache, db)).1
      (sweptInTwo chain cursor b toBlock logs (cache, db)).1 := by
  have genuine₀ := genuine.deltaLoad
  obtain ⟨d, hd⟩ := (flush_sweepTx_ok_iff inv.sound capped (nodup_sweepMatches once) h).mpr fits
  obtain ⟨d₁, hd₁⟩ := (flush_sweepTx_ok_iff inv.sound capped (nodup_sweepMatches (once_filter once))
    h₁).mpr (sweepFits_first summed fits)
  obtain ⟨hop, hcache⟩ := commitsSweep_at hat h hd
  obtain ⟨hop₁, hcache₁⟩ := commitsSweep_at hat h₁ hd₁
  have summed' : ∀ token, db.paidIn token tx.out.confirmed < 2 ^ 256 := fun token => by
    rw [paidIn_sweepTx inv.sound once h]
    exact summed token
  have suited₁ := suited_sweep genuine (agree.filter (p := Log.upTo b)) cursor b
  have hfirst : sweptTo chain cursor b (logs.filter (Log.upTo b)) (cache, db) =
      (evictCompleted (deltaLoad db chain cache).1 tx₁.out,
        exec db (.applySweep chain cache cursor b (logs.filter (Log.upTo b)))) :=
    Prod.ext hcache₁ rfl
  have inv₁ := exec_invariant Db.Healthy (fun _ _ _ => Db.Healthy.step) inv
    (.applySweep chain cache cursor b (logs.filter (Log.upTo b)))
  have capped₁ := capped.exec (.applySweep chain cache cursor b (logs.filter (Log.upTo b)))
  have hcursor₁ := cursorAt_sweptTo_of_ok hat h₁ hd₁
  rw [sweptInTwo]
  rw [hfirst] at hcursor₁ ⊢
  generalize Op.applySweep chain cache cursor b (logs.filter (Log.upTo b)) = op₁ at *
  have s : Halves db (exec db op₁) chain height (deltaLoad db chain cache).1 logs b tx₁ :=
    { sound := inv.sound
      events := inv.events
      heights
      genuine := genuine₀
      once
      mined
      first := ⟨_, h₁⟩
      watches := hop₁.watches
      transfers := hop₁.transfers }
  -- the second half, from where the first ended
  have genuine₁ : (evictCompleted (deltaLoad db chain cache).1 tx₁.out).Genuine (exec db op₁) chain := by
    intro key ref hget
    rw [get_evictCompleted genuine₀ h₁] at hget
    exact genuine₀.exec key ref (Option.filter_eq_some_iff.mp hget).1
  obtain ⟨tx₂, h₂⟩ := sweepTx_of_room [] toBlock inv₁ (once_filter once) fun w₁ hw₁ => s.room room hw₁
  obtain ⟨d₂, hd₂⟩ := s.flush_second inv₁.sound genuine₁ h h₂ capped capped₁ summed'
    (hop₁.confirmedVolume (sweepTx_volumes h₁) (sweepTx_stats h₁)) ⟨d, hd⟩
  obtain ⟨hop₂, hcache₂⟩ := commitsSweep_at hcursor₁ (by rw [s.reload]; exact h₂) hd₂
  rw [s.reload] at hcache₂
  have hend := s.sameEnd inv₁ genuine₁ below h h₂ hop hop₁ hop₂ rooted
    (suited_sweep genuine agree cursor toBlock) suited₁ (suited_sweep genuine₁ agree.filter b toBlock)
    summed'
  rw [← hcache, ← hcache₂] at hend
  exact hend

/-- With room for the first half only, it moves the cursor and the whole does
not. -/
theorem not_sameEnd_of_first_fits {d₁ : Db} (hat : db.CursorAt chain.chainId cursor)
    (above : cursor < b) (below : b < toBlock)
    (h₁ : sweepTx db chain (deltaLoad db chain cache).1 (deltaLoad db chain cache).2 b
      (logs.filter (Log.upTo b)) = .ok tx₁) (hd₁ : flushStats chain tx₁ = .ok d₁) (cache' : WatchCache) :
    ¬ SameEnd db (sweptInTwo chain cursor b toBlock logs (cache, db)).2 cache'
      (sweptInTwo chain cursor b toBlock logs (cache, db)).1 := by
  intro hend
  have hat' : (sweptInTwo chain cursor b toBlock logs (cache, db)).2.CursorAt chain.chainId cursor := by
    rw [Db.CursorAt, hend.cursors]
    exact hat
  rcases cursorAt_sweptTo (sweptTo chain cursor b (logs.filter (Log.upTo b)) (cache, db)).1 toBlock
    (logs.filter fun l => !l.upTo b) (cursorAt_sweptTo_of_ok hat h₁ hd₁) with hb | ht
  · exact absurd (hat'.unique hb) (by omega)
  · exact absurd (hat'.unique ht) (by omega)

/-- Without room for the first half, the second finds the cursor elsewhere and
nothing is committed. -/
theorem sweptInTwo_of_unfit (inv : Sound db) (capped : db.Capped)
    (once : (logs.map fun l => (l.blockHash, l.logIndex)).Nodup)
    (hat : db.CursorAt chain.chainId cursor) (above : cursor < b)
    (h₁ : sweepTx db chain (deltaLoad db chain cache).1 (deltaLoad db chain cache).2 b
      (logs.filter (Log.upTo b)) = .ok tx₁)
    (unfit : ¬ db.SweepFits chain (deltaLoad db chain cache).1 (logs.filter (Log.upTo b))) :
    sweptInTwo chain cursor b toBlock logs (cache, db) = ((deltaLoad db chain cache).1, db) := by
  rw [sweptInTwo, sweptTo_of_unfit inv capped (once_filter once) hat h₁ unfit]
  unfold sweptTo
  simp only [applySweep_of_ne hat (Nat.ne_of_gt above), committed]

end InTwo

/-- **When it matters how a range is cut.**  In every reachable state with the
cursor at `cursor`, a sweep over canonical logs up to `toBlock` and two sweeps
that meet at a block `b` end with the same cursors, the same totals and statuses
of the watches, the same transfers, the same cache and the same counts, volume
and thresholds in the statistics, exactly if the volumes on record have room for
the whole range or not even for its first part.  The numbers of events differ: a
watch may hear of an orphan in the first half and be completed in the second. -/
theorem sweep_in_two_iff (ops : List Op) (height : Nat → B256 → Nat) (tokenOf : LogId → Address)
    (planned : Planned ops) (ranged : ∀ op ∈ ops, op.Ranged height)
    (wired : Along exec (fun db op => op.Wired tokenOf db) Db.empty ops) (chain : ChainSpec)
    (cache : WatchCache) (cursor b toBlock : Nat) (logs : List Log)
    (hat : (run exec Db.empty ops).CursorAt chain.chainId cursor) (above : cursor < b)
    (below : b < toBlock) (genuine : cache.Genuine (run exec Db.empty ops) chain)
    (mined : ∀ l ∈ logs, ∃ n, l.blockNumber = some n ∧ ∀ h ∈ l.blockHash, n = height chain.chainId h)
    (once : (logs.map fun l => (l.blockHash, l.logIndex)).Nodup)
    (agree : Log.Agree tokenOf chain logs)
    (room : ∀ w ∈ (run exec Db.empty ops).watches.rows,
      w.confirmedAmount + total MatchedTransfer.units ((run exec Db.empty ops).takes chain
        (deltaLoad (run exec Db.empty ops) chain cache).1 logs w) < 2 ^ 256)
    (summed : ∀ token, (run exec Db.empty ops).volume ((run exec Db.empty ops).gains chain.chainId
      (sweepMatches chain (deltaLoad (run exec Db.empty ops) chain cache).1 logs)) token < 2 ^ 256) :
    let start := (cache, run exec Db.empty ops)
    let whole := sweptTo chain cursor toBlock logs start
    let halves := sweptTo chain b toBlock (logs.filter fun l => !l.upTo b)
      (sweptTo chain cursor b (logs.filter (Log.upTo b)) start)
    SameEnd whole.2 halves.2 whole.1 halves.1 ↔
      (run exec Db.empty ops).SweepFits chain (deltaLoad (run exec Db.empty ops) chain cache).1 logs ∨
        ¬ (run exec Db.empty ops).SweepFits chain (deltaLoad (run exec Db.empty ops) chain cache).1
          (logs.filter (Log.upTo b)) := by
  have inv := healthy_run ops
  have capped := capped_run ops
  have heights := (settled_run ops planned ranged).1
  have rooted := rooted_run ops planned wired
  generalize run exec Db.empty ops = db at *
  intro start whole halves
  have room' : ∀ w, db.watches.get? w.id = some w → w.confirmedAmount +
      total MatchedTransfer.units (db.takes chain (deltaLoad db chain cache).1 logs w) < 2 ^ 256 :=
    fun w hw => room w (Table.mem_of_get? hw)
  -- both sweeps from the cursor count without an error
  obtain ⟨tx, h⟩ := sweepTx_of_room (deltaLoad db chain cache).2 toBlock inv once room'
  obtain ⟨tx₁, h₁⟩ := sweepTx_of_room (deltaLoad db chain cache).2 b inv (once_filter once)
    fun w hw => Nat.lt_of_le_of_lt
      (Nat.add_le_add_left (takes_first_le w b) w.confirmedAmount) (room' w hw)
  by_cases hfits : db.SweepFits chain (deltaLoad db chain cache).1 logs
  · exact iff_of_true (sameEnd_of_fits inv capped heights rooted hat below genuine mined once agree room'
      summed h h₁ hfits) (.inl hfits)
  · have hwhole : whole = ((deltaLoad db chain cache).1, db) :=
      sweptTo_of_unfit inv.sound capped once hat h hfits
    rw [hwhole]
    by_cases hfits₁ : db.SweepFits chain (deltaLoad db chain cache).1 (logs.filter (Log.upTo b))
    · obtain ⟨d₁, hd₁⟩ := (flush_sweepTx_ok_iff inv.sound capped
        (nodup_sweepMatches (once_filter once)) h₁).mpr hfits₁
      exact iff_of_false (not_sameEnd_of_first_fits hat above below h₁ hd₁ _)
        fun hor => hor.elim hfits fun hno => hno hfits₁
    · have hhalves : halves = ((deltaLoad db chain cache).1, db) :=
        sweptInTwo_of_unfit inv.sound capped once hat above h₁ hfits₁
      rw [hhalves]
      exact iff_of_true (.refl _ _) (.inr hfits₁)

/-- A watch for 100 units. -/
def oneWatch : List Op := [.ensureCursor baseChain.chainId 100, .createWatch 1 watchOrder]

/-- A payment that completes the watch, and one after it. -/
def paidTwice : List Log := [transferLog 7 9 100 101 0, transferLog 7 9 30 104 0]

/-- Swept at once or with a cut between the payments, the first of them is
counted and the second is not. -/
theorem sweep_in_two_paid :
    let start := (WatchCache.new, run exec Db.empty oneWatch)
    let whole := sweptTo baseChain 100 106 paidTwice start
    let halves := sweptTo baseChain 102 106 (paidTwice.filter fun l => !l.upTo 102)
      (sweptTo baseChain 100 102 (paidTwice.filter (Log.upTo 102)) start)
    whole.2.watches.rows.map Watch.confirmedAmount = [100] ∧
      SameEnd whole.2 halves.2 whole.1 halves.1 := by
  have hplanned : Planned oneWatch := planned_of_no_backfill (by simp [oneWatch])
  have hranged : ∀ op ∈ oneWatch, op.Ranged fun _ hash => hash.toNat := by
    intro op hop
    simp only [oneWatch, List.mem_cons, List.not_mem_nil, or_false] at hop
    rcases hop with rfl | rfl <;> trivial
  have htoken : ∀ l ∈ paidTwice, ∀ p ∈ payment? baseChain l, p.token.address = usdc.address := by
    decide +kernel
  refine ⟨by decide +kernel, (sweep_in_two_iff oneWatch (fun _ hash => hash.toNat)
    (fun _ => usdc.address) hplanned hranged ⟨trivial, trivial, trivial⟩ baseChain .new 100 102 106
    paidTwice (by decide +kernel) (by decide) (by decide) (fun key ref h => by contradiction)
    (fun l hl => ?_) (by decide) htoken (by decide +kernel) (fun token => ?_)).mpr
    (.inl (by decide +kernel))⟩
  · simp only [paidTwice, List.mem_cons, List.not_mem_nil, or_false] at hl
    rcases hl with rfl | rfl
    · exact ⟨101, rfl, fun hash hh => by cases hh; decide⟩
    · exact ⟨104, rfl, fun hash hh => by cases hh; decide⟩
  · have hall : ((run exec Db.empty oneWatch).watches.rows.map
        ((run exec Db.empty oneWatch).gains baseChain.chainId (sweepMatches baseChain
          (deltaLoad (run exec Db.empty oneWatch) baseChain .new).1 paidTwice))).sum < 2 ^ 256 := by
      decide +kernel
    exact Nat.lt_of_le_of_lt ((List.filter_sublist.map _).sum_le_sum fun _ _ => Nat.zero_le _) hall

/-- A payment of 5 units and one of almost all that a `uint256` holds. -/
def smallAndHuge : List Log := [transferLog 7 8 5 109 0, transferLog 7 8 (2 ^ 256 - 10) 111 0]

/-- **A cut can save a part of the range.**  With eight watches paid in full the
volume has room for the first payment and not for both: swept at once nothing is
counted and the cursor stays, with a cut between the payments it moves to the
cut. -/
theorem sweep_in_two_full_volume :
    let start := (WatchCache.new, run exec Db.empty (paidInFull 8))
    let whole := sweptTo baseChain 108 112 smallAndHuge start
    let halves := sweptTo baseChain 110 112 (smallAndHuge.filter fun l => !l.upTo 110)
      (sweptTo baseChain 108 110 (smallAndHuge.filter (Log.upTo 110)) start)
    start.2.CursorAt baseChain.chainId 108 ∧ whole.2.CursorAt baseChain.chainId 108 ∧
      halves.2.CursorAt baseChain.chainId 110 ∧
      (whole.2.watches.get? 8).map Watch.confirmedAmount = some 0 ∧
      (halves.2.watches.get? 8).map Watch.confirmedAmount = some 5 ∧
      ¬ SameEnd whole.2 halves.2 whole.1 halves.1 := by
  have hwhole : (sweptTo baseChain 108 112 smallAndHuge
      (.new, run exec Db.empty (paidInFull 8))).2.CursorAt baseChain.chainId 108 := by decide +kernel
  have hhalves : (sweptTo baseChain 110 112 (smallAndHuge.filter fun l => !l.upTo 110)
      (sweptTo baseChain 108 110 (smallAndHuge.filter (Log.upTo 110))
        (.new, run exec Db.empty (paidInFull 8)))).2.CursorAt baseChain.chainId 110 := by
    decide +kernel
  refine ⟨by decide +kernel, hwhole, hhalves, by decide +kernel, by decide +kernel, fun hend => ?_⟩
  rw [Db.CursorAt, hend.cursors] at hhalves
  exact absurd (hwhole.unique hhalves) (by decide)

end GumIndexer
