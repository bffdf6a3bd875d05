import GumIndexer.Backfill

/-!
# GumIndexer.Watchlist

The cache of an instance and the watches of the database.

An entry of the cache is that of a watch of the chain (`Genuine`), and a sweep
relies on the cache to hold every active watch of a configured token, or to
learn of it by the delta load (`Covers`).  Then, after the delta load, the
matches of an active watch are the payments to its target
(`sweepMatches_of_watch`).
-/

namespace GumIndexer

open Base

variable {db : Db} {chain : ChainSpec} {cache : WatchCache}

/-- Every entry of the cache is that of a watch of the chain. -/
def WatchCache.Genuine (cache : WatchCache) (db : Db) (chain : ChainSpec) : Prop :=
  ∀ key ref, cache.get key = some ref → ∃ w, db.watches.get? w.id = some w ∧
    w.chainId = chain.chainId ∧ slimEntry chain w = some (key, ref)

/-- Every active watch of a configured token is in the cache, or newer than
all the cache was ever given. -/
def WatchCache.Covers (cache : WatchCache) (db : Db) (chain : ChainSpec) : Prop :=
  ∀ w, db.watches.get? w.id = some w → w.chainId = chain.chainId → w.status = .active →
    ∀ key ref, slimEntry chain w = some (key, ref) → cache.get key = some ref ∨ cache.lastSeq < w.seq

/-! ## The delta load -/

/-- What is under a key after a load: the last entry for it, or what was there
before. -/
theorem get_loadEntries (es : List (WatchKey × WatchRef)) (acc : WatchCache × List WatchKey)
    (key : WatchKey) :
    ((es.foldl loadEntry acc).1.get key = acc.1.get key ∧ ∀ e ∈ es, e.1 ≠ key) ∨
      ∃ e ∈ es, e.1 = key ∧ (es.foldl loadEntry acc).1.get key = some e.2 := by
  induction es generalizing acc with
  | nil => exact .inl ⟨rfl, fun e he => absurd he List.not_mem_nil⟩
  | cons e es ih =>
      rw [List.foldl_cons]
      rcases ih (loadEntry acc e) with ⟨hget, hne⟩ | ⟨e', he', hk, hget⟩
      · have hload : (loadEntry acc e).1.get key = if e.1 = key then some e.2 else acc.1.get key :=
          WatchCache.get_insert acc.1 e.1 key e.2
        by_cases hk : e.1 = key
        · right
          rw [if_pos hk] at hload
          exact ⟨e, List.mem_cons_self, hk, hget.trans hload⟩
        · left
          rw [if_neg hk] at hload
          refine ⟨hget.trans hload, fun e' he' => ?_⟩
          rcases List.mem_cons.mp he' with rfl | he'
          · exact hk
          · exact hne e' he'
      · exact .inr ⟨e', List.mem_cons_of_mem e he', hk, hget⟩

/-- A load raises `lastSeq` to the newest entry. -/
theorem lastSeq_loadEntries (es : List (WatchKey × WatchRef)) (acc : WatchCache × List WatchKey) :
    acc.1.lastSeq ≤ (es.foldl loadEntry acc).1.lastSeq ∧
      ∀ e ∈ es, e.2.seq ≤ (es.foldl loadEntry acc).1.lastSeq := by
  induction es generalizing acc with
  | nil => exact ⟨Nat.le_refl _, fun e he => absurd he List.not_mem_nil⟩
  | cons e es ih =>
      obtain ⟨hle, hall⟩ := ih (loadEntry acc e)
      have hload : (loadEntry acc e).1.lastSeq = max acc.1.lastSeq e.2.seq := rfl
      rw [List.foldl_cons]
      refine ⟨by omega, fun e' he' => ?_⟩
      rcases List.mem_cons.mp he' with rfl | he'
      · omega
      · exact hall e' he'

theorem mem_activeRows {w : Watch} {lastSeq : Nat} :
    w ∈ activeRows db chain lastSeq ↔
      w ∈ db.watches.rows ∧ w.chainId = chain.chainId ∧ w.status = .active ∧ lastSeq < w.seq := by
  simp [activeRows, List.mem_insertionSort]

/-- An entry of the delta load is that of a new active watch. -/
theorem mem_deltaEntries {e : WatchKey × WatchRef} {lastSeq : Nat} :
    e ∈ (activeRows db chain lastSeq).filterMap (slimEntry chain) ↔
      ∃ w, db.watches.get? w.id = some w ∧ w.chainId = chain.chainId ∧ w.status = .active ∧
        lastSeq < w.seq ∧ slimEntry chain w = some e := by
  rw [List.mem_filterMap]
  refine exists_congr fun w => ?_
  rw [mem_activeRows, Table.mem_rows_iff, and_assoc, and_assoc, and_assoc]

/-- Watches under one key are on one target. -/
theorem slimEntry_shares {u w : Watch} {key : WatchKey} {ref ref' : WatchRef}
    (hchain : u.chainId = w.chainId) (hu : slimEntry chain u = some (key, ref))
    (hw : slimEntry chain w = some (key, ref')) : u.Shares w := by
  obtain ⟨htoken, hpayment⟩ := key?_inj (key?_pendingBackfill 0 hu) (key?_pendingBackfill 0 hw)
  exact ⟨hchain, htoken, hpayment⟩

/-- **After the delta load every active watch is in the cache.** -/
theorem WatchCache.Covers.deltaLoad {w : Watch} {key : WatchKey} {ref : WatchRef} (inv : Sound db)
    (covers : cache.Covers db chain) (hw : db.watches.get? w.id = some w)
    (home : w.chainId = chain.chainId) (active : w.status = .active)
    (hentry : slimEntry chain w = some (key, ref)) :
    (deltaLoad db chain cache).1.get key = some ref := by
  unfold GumIndexer.deltaLoad
  rcases get_loadEntries ((activeRows db chain cache.lastSeq).filterMap (slimEntry chain))
    (cache, []) key with ⟨hget, hne⟩ | ⟨⟨key', ref'⟩, he, rfl, hget⟩
  · rw [hget]
    rcases covers w hw home active key ref hentry with hcached | hnew
    · exact hcached
    · exact absurd rfl (hne (key, ref) (mem_deltaEntries.mpr ⟨w, hw, home, active, hnew, hentry⟩))
  · -- the entry is of the active watch on the same target
    obtain ⟨u, hu, huchain, huactive, -, huentry⟩ := mem_deltaEntries.mp he
    have huw : u = w := inv.active_unique hu hw huactive active
      (slimEntry_shares (huchain.trans home.symm) huentry hentry)
    rw [huw, hentry] at huentry
    rw [hget, (Prod.mk.inj (Option.some.inj huentry)).2]

theorem WatchCache.Genuine.deltaLoad (genuine : cache.Genuine db chain) :
    (deltaLoad db chain cache).1.Genuine db chain := by
  intro key ref h
  unfold GumIndexer.deltaLoad at h
  rcases get_loadEntries ((activeRows db chain cache.lastSeq).filterMap (slimEntry chain))
    (cache, []) key with ⟨hget, -⟩ | ⟨⟨key', ref'⟩, he, rfl, hget⟩
  · exact genuine key ref (hget.symm.trans h)
  · obtain ⟨u, hu, huchain, -, -, huentry⟩ := mem_deltaEntries.mp he
    obtain rfl : ref' = ref := Option.some.inj (hget.symm.trans h)
    exact ⟨u, hu, huchain, huentry⟩

theorem slimEntry_of_same {w w' : Watch} (h : w.Same w') : slimEntry chain w' = slimEntry chain w := by
  rw [slimEntry, slimEntry, h.tokenAddress, h.paymentAddress, h.id, h.seq, h.startBlock]

/-- The scope of a batch that was read earlier is a cache of watches too. -/
theorem genuine_scope {db₀ : Db} {limit : Nat} (follows : db.Follows db₀) :
    (backfillScope chain (pendingBackfills db₀ chain.chainId limit)).cache.Genuine db chain := by
  intro key ref h
  rcases scope_get_cases h with hnone | ⟨b, hb, hkey, rfl⟩
  · contradiction
  · obtain ⟨w₀, hw₀, hchain, -, hbw⟩ := mem_pendingBackfills hb
    obtain ⟨w, hw, hlater⟩ := follows w₀ hw₀
    have hid : w.id = w₀.id := hlater.same.id
    refine ⟨w, by rw [hid]; exact hw, hlater.same.chainId.trans hchain, ?_⟩
    rw [slimEntry_of_same hlater.same]
    obtain ⟨token, htoken, rfl⟩ := Option.map_eq_some_iff.mp hkey
    rw [hbw] at htoken ⊢
    exact Option.map_eq_some_iff.mpr ⟨token, htoken, rfl⟩

/-- The entry is of a watch of the chain. -/
def Db.HasEntry (db : Db) (chain : ChainSpec) (key : WatchKey) (ref : WatchRef) : Prop :=
  ∃ w, db.watches.get? w.id = some w ∧ w.chainId = chain.chainId ∧ slimEntry chain w = some (key, ref)

/-- Rows stay, and what a cache keeps of them does not change. -/
theorem Db.HasEntry.exec {op : Op} {key : WatchKey} {ref : WatchRef}
    (h : db.HasEntry chain key ref) : (exec db op).HasEntry chain key ref := by
  obtain ⟨w, hw, home, hentry⟩ := h
  obtain ⟨w', hw', hlater⟩ := (Db.Retains.of_get? hw).run [op]
  refine ⟨w', ?_, hlater.same.chainId.trans home, (slimEntry_of_same hlater.same).trans hentry⟩
  rw [hlater.same.id]
  exact hw'

theorem WatchCache.Genuine.exec {op : Op} (genuine : cache.Genuine db chain) :
    cache.Genuine (exec db op) chain :=
  fun key ref h => Db.HasEntry.exec (genuine key ref h)

/-- **A second delta load finds nothing**, if no watch was registered in
between. -/
theorem deltaLoad_again {db' : Db} {cache' : WatchCache}
    (hseq : (deltaLoad db chain cache).1.lastSeq ≤ cache'.lastSeq)
    (hold : ∀ w, db'.watches.get? w.id = some w → w.status = .active →
      ∃ u, db.watches.get? u.id = some u ∧ u.status = .active ∧ u.Same w) :
    deltaLoad db' chain cache' = (cache', []) := by
  have hnil : (activeRows db' chain cache'.lastSeq).filterMap (slimEntry chain) = [] := by
    refine List.eq_nil_iff_forall_not_mem.mpr fun e he => ?_
    obtain ⟨w, hw, home, active, hnew, hentry⟩ := mem_deltaEntries.mp he
    obtain ⟨u, hu, huactive, hsame⟩ := hold w hw active
    obtain ⟨hle, hall⟩ : cache.lastSeq ≤ (deltaLoad db chain cache).1.lastSeq ∧
        ∀ e ∈ (activeRows db chain cache.lastSeq).filterMap (slimEntry chain),
          e.2.seq ≤ (deltaLoad db chain cache).1.lastSeq := lastSeq_loadEntries _ (cache, [])
    have huseq := hsame.seq
    -- the watch is as new now as it was then
    have hloaded := hall e (mem_deltaEntries.mpr ⟨u, hu, hsame.chainId.symm.trans home, huactive,
      by omega, (slimEntry_of_same hsame).symm.trans hentry⟩)
    have href : e.2 = ⟨w.id, w.seq, w.startBlock⟩ := @slimEntry_ref chain w e.1 e.2 hentry
    rw [href] at hloaded
    change w.seq ≤ _ at hloaded
    omega
  unfold deltaLoad
  rw [hnil]
  rfl

/-! ## Matches -/

/-- The watch of an entry. -/
theorem WatchCache.Genuine.of_id {w : Watch} {key : WatchKey} {ref : WatchRef}
    (genuine : cache.Genuine db chain) (hw : db.watches.get? w.id = some w)
    (hget : cache.get key = some ref) (hid : ref.id = w.id) :
    w.chainId = chain.chainId ∧ slimEntry chain w = some (key, ref) := by
  obtain ⟨u, hu, hchain, hentry⟩ := genuine key ref hget
  have huid : u.id = w.id := by
    rw [← hid, slimEntry_ref hentry]
  rw [huid, hw] at hu
  obtain rfl := Option.some.inj hu
  exact ⟨hchain, hentry⟩

variable {logs : List Log} {w : Watch} {toBlock : Nat}

/-- A watch that is not in the cache has no matches. -/
theorem sweepMatches_of_absent (h : ∀ key ref, cache.get key = some ref → ref.id ≠ w.id) :
    (sweepMatches chain cache logs).filter (fun m => m.watch.id = w.id) = [] := by
  rw [List.filter_eq_nil_iff]
  intro m hm hid
  obtain ⟨p, -, ref, hget, -, rfl⟩ := mem_matchedOf.mp (mem_sweepMatches.mp hm)
  exact h _ ref hget (of_decide_eq_true hid)

/-- **The matches of an active watch in a sweep are the payments to it**, in
the order of the chain. -/
theorem sweepMatches_of_watch (inv : Sound db) (genuine : cache.Genuine db chain)
    (covers : cache.Covers db chain) (hw : db.watches.get? w.id = some w)
    (home : w.chainId = chain.chainId) (active : w.status = .active)
    (upTo : ∀ p ∈ paymentsOf chain logs, p.blockNumber ≤ toBlock) :
    (sweepMatches chain (deltaLoad db chain cache).1 logs).filter (fun m => m.watch.id = w.id) =
      (paymentsTo chain logs w w.startBlock toBlock).map
        fun p => p.toWatch ⟨w.id, w.seq, w.startBlock⟩ false := by
  cases hentry : slimEntry chain w with
  | none =>
      rw [paymentsTo_of_dormant hentry, List.map_nil]
      refine sweepMatches_of_absent fun key ref hget hid => ?_
      rw [(genuine.deltaLoad.of_id hw hget hid).2] at hentry
      contradiction
  | some e =>
      obtain ⟨key, ref⟩ := e
      obtain rfl := slimEntry_ref hentry
      have honly : ∀ key' ref', (deltaLoad db chain cache).1.get key' = some ref' → ref'.id = w.id →
          key' = key := by
        intro key' ref' hget hid
        have hentry' := (genuine.deltaLoad.of_id hw hget hid).2
        rw [hentry] at hentry'
        exact (Prod.mk.inj (Option.some.inj hentry')).1.symm
      unfold sweepMatches paymentsTo
      rw [filter_insertionSort,
        matchedOf_of_entry hentry (covers.deltaLoad inv hw home active hentry) honly,
        insertionSort_map_toWatch]
      congr 2
      refine List.filter_congr fun p hp => decide_eq_decide.mpr (and_congr_right fun _ => ?_)
      exact ⟨fun h => ⟨h, upTo p hp⟩, fun h => h.1⟩

end GumIndexer
