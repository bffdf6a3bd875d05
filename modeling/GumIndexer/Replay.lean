import GumIndexer.Base.Replay
import GumIndexer.Settlement

/-!
# GumIndexer.Replay

Only the set of logs matters.

A counting transaction sorts its matches, and `count_confirmed` skips a match
whose row is settled or whose watch is retired.  Since a match is one of the
two once it was counted, the loop absorbs replays (`absorbs_countConfirmed`):
neither the order of the logs a provider returns, nor repetitions, nor logs
that were settled before make any difference to a sweep or a backfill
(`replay_is_noop`).
-/

namespace GumIndexer

open Base

variable {db db' : Db} {chain : ChainSpec} {a : Act} {log : LogId}

/-! ## What is spent stays spent -/

/-- Counting the match changes nothing: its watch is retired, or its row is
settled. -/
def Db.Spent (db : Db) (chainId : Nat) (m : MatchedTransfer) : Prop :=
  db.Inactive m.watch.id ∨ ¬ db.Countable (m.logId chainId)

theorem Step.not_countable (h : Step db a db') (hn : ¬ db.Countable log) : ¬ db'.Countable log := by
  unfold Db.Countable at hn ⊢
  push Not at hn ⊢
  obtain ⟨t, ht, hs⟩ := hn
  obtain ⟨t', ht', rfl | ⟨hp, -⟩⟩ := h.settles ht
  · exact ⟨t', ht', hs⟩
  · exact absurd hp hs

theorem Step.inactive {id : Uuid} (h : Step db a db') (hreg : ∀ w, a ≠ .register w)
    (hin : db.Inactive id) : db'.Inactive id := by
  intro w' hw' ha
  rcases h.watch_update hw' with hold | hreg' | ⟨w, hw, hupdate⟩
  · exact hin w' hold ha
  · exact hreg w' hreg'
  · exact hin w hw (hupdate.active_of_active ha)

/-- A counted match is spent. -/
theorem Counts.spent {w : Watch} {m : MatchedTransfer} (h : Counts chain db w m db') :
    ¬ db'.Countable (m.logId chain.chainId) :=
  fun hc => hc.not_confirmed (h.confirmed_iff.mpr (.inr rfl))

/-- **The counting loop absorbs replays.** -/
theorem absorbs_countConfirmed (chain : ChainSpec) :
    Absorbs (countConfirmed chain) (fun tx => Sound tx.db ∧ EventLogs tx.db)
      (fun tx m => tx.db.Spent chain.chainId m) where
  inv tx m tx' inv h := ⟨(countConfirmed_ok h).sound inv.1, (countConfirmed_ok h).eventLogs inv.2⟩
  skip tx m inv hspent := by
    rcases countConfirmed_cases chain tx m with ⟨tx', hcounted, he⟩ |
      ⟨w, hid, hw, ha, ⟨hcorrupt, -⟩ | ⟨htaken, -⟩⟩
    · have hcounts : ∀ {u : Watch} {d : Db}, ¬ Counts chain tx.db u m d := by
        intro u d counts
        rcases hspent with hin | hn
        · obtain ⟨_, -, post⟩ := counts.step
          rw [counts.watch] at hin
          exact hin u post.found counts.active
        · exact hn counts.countable
      cases hcounted with
      | inactive _ => exact he
      | settled _ => exact he
      | below counts _ _ _ => exact absurd counts hcounts
      | reached counts _ _ _ _ => exact absurd counts hcounts
    · rcases hspent with hin | hn
      · exact absurd ha (hin w (by rw [hid]; exact hw))
      · rcases hcorrupt with hfits | ⟨hcountable, -⟩
        · exact absurd (inv.1.fits w.id w hw) hfits
        · exact absurd hcountable hn
    · exact absurd htaken (inv.2.log w.id w hw).seq_free
  mark tx m tx' inv h := by
    cases countConfirmed_ok h with
    | inactive hin => exact .inl hin
    | settled hn => exact .inr hn
    | below counts _ _ _ => exact .inr counts.spent
    | reached counts _ post _ _ =>
        right
        rw [Db.Countable, post.transfers]
        exact counts.spent
  keep tx m tx' m' inv h hspent := by
    obtain ⟨cs, -, -, htr⟩ := (countConfirmed_ok h).trace
    refine htr.invariant_mem (fun d => d.Spent chain.chainId m') (fun d a d' ha hstep hd => ?_) hspent
    obtain ⟨c, -, rfl⟩ := List.mem_map.mp ha
    exact hd.imp (hstep.inactive fun _ => Act.noConfusion) hstep.not_countable

/-! ## Logs -/

/-- The row of the log is there and no longer pending. -/
def Log.Settled (l : Log) (db : Db) (chainId : Nat) : Prop :=
  ∃ hash ∈ l.blockHash, ∃ index ∈ l.logIndex, ¬ db.Countable ⟨chainId, hash, index⟩

/-- The lists have the same logs, up to retracted ones and settled ones. -/
def SameLogs (db : Db) (chainId : Nat) (logs logs' : List Log) : Prop :=
  ∀ l, l.removed = false → ¬ l.Settled db chainId → (l ∈ logs ↔ l ∈ logs')

/-- Different logs are at different places of the chain. -/
def Placed (logs : List Log) : Prop :=
  ∀ l ∈ logs, ∀ l' ∈ logs, l.removed = false → l'.removed = false → ∀ number index,
    l.blockNumber = some number → l'.blockNumber = some number →
    l.logIndex = some index → l'.logIndex = some index → l = l'

variable {cache : WatchCache} {logs logs' : List Log} {m : MatchedTransfer}

theorem mem_matchedOf_log :
    m ∈ matchedOf chain cache logs ↔
      ∃ l ∈ logs, l.removed = false ∧ (matchLog chain cache l).toOption = some m := by
  simp [matchedOf, and_assoc]

/-- What a match says of its log. -/
theorem matchLog_place {l : Log} (h : (matchLog chain cache l).toOption = some m) :
    l.blockNumber = some m.blockNumber ∧ l.blockHash = some m.blockHash ∧
      l.logIndex = some m.logIndex := by
  rw [matchLog_toOption] at h
  obtain ⟨p, hp, hm⟩ := Option.bind_eq_some_iff.mp h
  obtain ⟨ref, -, -, rfl⟩ := Payment.match?_eq_some_iff.mp hm
  obtain ⟨-, -, -, -, -, hnumber, hhash, hindex, -⟩ := payment?_spec hp
  exact ⟨hnumber, hhash, hindex⟩

theorem not_settled_of_match {l : Log} (h : (matchLog chain cache l).toOption = some m)
    (hc : db.Countable (m.logId chain.chainId)) : ¬ l.Settled db chain.chainId := by
  obtain ⟨-, hhash, hindex⟩ := matchLog_place h
  rintro ⟨hash, hh, index, hi, hn⟩
  obtain rfl : m.blockHash = hash := Option.some.inj (hhash.symm.trans hh)
  obtain rfl : m.logIndex = index := Option.some.inj (hindex.symm.trans hi)
  exact hn hc

/-- The lists have the same matches, up to settled ones. -/
theorem SameLogs.mem_matchedOf (h : SameLogs db chain.chainId logs logs')
    (hc : db.Countable (m.logId chain.chainId)) :
    m ∈ matchedOf chain cache logs ↔ m ∈ matchedOf chain cache logs' := by
  rw [mem_matchedOf_log, mem_matchedOf_log]
  refine exists_congr fun l => ?_
  constructor
  · rintro ⟨hl, hr, hm⟩
    exact ⟨(h l hr (not_settled_of_match hm hc)).mp hl, hr, hm⟩
  · rintro ⟨hl, hr, hm⟩
    exact ⟨(h l hr (not_settled_of_match hm hc)).mpr hl, hr, hm⟩

/-- Matches at one place are one match. -/
theorem Placed.antisymm {m' : MatchedTransfer} (h : Placed logs)
    (hm : m ∈ matchedOf chain cache logs) (hm' : m' ∈ matchedOf chain cache logs)
    (hb : Before m m') (hb' : Before m' m) : m = m' := by
  obtain ⟨l, hl, hr, hmatch⟩ := mem_matchedOf_log.mp hm
  obtain ⟨l', hl', hr', hmatch'⟩ := mem_matchedOf_log.mp hm'
  obtain ⟨hn, -, hi⟩ := matchLog_place hmatch
  obtain ⟨hn', -, hi'⟩ := matchLog_place hmatch'
  have hplace : m.blockNumber = m'.blockNumber ∧ m.logIndex = m'.logIndex := by
    unfold Before at hb hb'
    omega
  obtain rfl := h l hl l' hl' hr hr' m.blockNumber m.logIndex hn (hplace.1 ▸ hn') hi (hplace.2 ▸ hi')
  exact Option.some.inj (hmatch.symm.trans hmatch')

/-- Counting sorted matches of either list is the same. -/
theorem SameLogs.countAll (h : SameLogs db chain.chainId logs logs') (placed : Placed logs)
    (cache : WatchCache) (tx : SweepTx) (hdb : tx.db = db) (inv : Sound db) (events : EventLogs db)
    (p : MatchedTransfer → Bool) :
    (((matchedOf chain cache logs).filter p).insertionSort Before).foldlM (countConfirmed chain) tx =
      (((matchedOf chain cache logs').filter p).insertionSort Before).foldlM
        (countConfirmed chain) tx := by
  subst hdb
  refine (absorbs_countConfirmed chain).foldlM_eq_of_sorted ⟨inv, events⟩
    (List.pairwise_insertionSort Before _) (List.pairwise_insertionSort Before _) (fun m hm => ?_) ?_
  · have hc : tx.db.Countable (m.logId chain.chainId) := not_not.mp fun hn => hm (.inr hn)
    rw [List.mem_insertionSort, List.mem_insertionSort, List.mem_filter, List.mem_filter,
      h.mem_matchedOf hc]
  · intro m hm m' hm' _ _ hb hb'
    rw [List.mem_insertionSort, List.mem_filter] at hm hm'
    exact placed.antisymm hm.1 hm'.1 hb hb'

/-! ## The leftovers -/

theorem mem_allCanonical {hash : B256} {index : Nat} :
    (hash, index) ∈ allCanonical logs ↔
      ∃ l ∈ logs, l.removed = false ∧ l.blockHash = some hash ∧ l.logIndex = some index := by
  simp only [allCanonical, List.mem_filterMap, List.mem_filter, decide_eq_true_eq, and_assoc]
  refine exists_congr fun l => and_congr_right fun _ => and_congr_right fun _ => ?_
  cases l.blockHash <;> cases l.logIndex <;> simp

/-- The identities of the matches are among those of the logs. -/
theorem mem_canonicalOf {x : B256 × Nat} :
    x ∈ canonicalOf chain cache logs ↔ x ∈ allCanonical logs := by
  rw [canonicalOf, List.mem_append]
  refine ⟨fun h => h.elim (fun hx => ?_) id, .inr⟩
  obtain ⟨m, hm, rfl⟩ := List.mem_map.mp hx
  obtain ⟨l, hl, hr, hmatch⟩ := mem_matchedOf_log.mp (mem_sweepMatches.mp hm)
  obtain ⟨-, hhash, hindex⟩ := matchLog_place hmatch
  exact mem_allCanonical.mpr ⟨l, hl, hr, hhash, hindex⟩

theorem SameLogs.mem_canonicalOf (h : SameLogs db chain.chainId logs logs') {hash : B256}
    {index : Nat} (hc : db.Countable ⟨chain.chainId, hash, index⟩) :
    (hash, index) ∈ canonicalOf chain cache logs ↔ (hash, index) ∈ canonicalOf chain cache logs' := by
  have hfresh : ∀ l : Log, l.blockHash = some hash → l.logIndex = some index →
      ¬ l.Settled db chain.chainId := by
    rintro l hhash hindex ⟨hash', hh, index', hi, hn⟩
    obtain rfl : hash = hash' := Option.some.inj (hhash.symm.trans hh)
    obtain rfl : index = index' := Option.some.inj (hindex.symm.trans hi)
    exact hn hc
  rw [GumIndexer.mem_canonicalOf, GumIndexer.mem_canonicalOf, mem_allCanonical, mem_allCanonical]
  refine exists_congr fun l => ?_
  constructor
  · rintro ⟨hl, hr, hhash, hindex⟩
    exact ⟨(h l hr (hfresh l hhash hindex)).mp hl, hr, hhash, hindex⟩
  · rintro ⟨hl, hr, hhash, hindex⟩
    exact ⟨(h l hr (hfresh l hhash hindex)).mpr hl, hr, hhash, hindex⟩

theorem resolveLeftover_congr {canonical canonical' : List (B256 × Nat)} {tx : SweepTx} {t : Transfer}
    (h : (t.blockHash, t.logIndex) ∈ canonical ↔ (t.blockHash, t.logIndex) ∈ canonical') :
    resolveLeftover chain canonical tx t = resolveLeftover chain canonical' tx t := by
  unfold resolveLeftover
  simp only [h]

/-- Counting announces nothing. -/
theorem countAll_pendingFrom {tx tx' : SweepTx} {ms : List MatchedTransfer}
    (h : ms.foldlM (countConfirmed chain) tx = .ok tx') : PendingFrom tx.db tx'.db := by
  obtain ⟨cs, -, -, htr⟩ := countAll_trace h
  refine htr.invariant_mem (PendingFrom tx.db) (fun d a d' ha hstep hd log t ht hp => ?_)
    fun _ _ ht _ => ht
  obtain ⟨c, -, rfl⟩ := List.mem_map.mp ha
  exact hd log t (hstep.pending (fun _ _ => Act.noConfusion) ht hp) hp

/-! ## Transactions -/

theorem SameLogs.sweepTx (h : SameLogs db chain.chainId logs logs') (placed : Placed logs)
    (inv : Sound db) (events : EventLogs db) (discovered : List WatchKey) (toBlock : Nat) :
    sweepTx db chain cache discovered toBlock logs =
      sweepTx db chain cache discovered toBlock logs' := by
  have hcount := h.countAll placed cache { db, out := { discovered } } rfl inv events fun _ => true
  simp only [List.filter_true] at hcount
  unfold GumIndexer.sweepTx sweepMatches
  rw [hcount]
  cases hc : ((matchedOf chain cache logs').insertionSort Before).foldlM (countConfirmed chain)
      { db, out := { discovered } } with
  | error e => rfl
  | ok tx =>
      refine foldlM_congr fun s t ht => resolveLeftover_congr ?_
      -- what is still pending was pending before, so its log is not settled
      obtain ⟨hrow, hchain, hp, -⟩ := mem_leftovers.mp ht
      have hold := countAll_pendingFrom hc t.key t (Table.get?_of_mem hrow) hp
      refine h.mem_canonicalOf fun u hu => ?_
      have hkey : t.key = ⟨chain.chainId, t.blockHash, t.logIndex⟩ := by rw [← hchain]; rfl
      rw [← hkey, hold] at hu
      exact Option.some.inj hu ▸ hp

theorem SameLogs.applySweep (h : SameLogs db chain.chainId logs logs') (placed : Placed logs)
    (inv : Sound db) (events : EventLogs db) (expectedCursor toBlock : Nat) :
    applySweep db chain cache expectedCursor toBlock logs =
      applySweep db chain cache expectedCursor toBlock logs' := by
  unfold GumIndexer.applySweep
  cases db.cursors.get? chain.chainId with
  | none => rfl
  | some cur => simp only [sweepRest, h.sweepTx placed inv events]

theorem SameLogs.applyBackfill (h : SameLogs db chain.chainId logs logs') (placed : Placed logs)
    (inv : Sound db) (events : EventLogs db) (batch : List PendingBackfill) :
    applyBackfill db chain cache batch logs = applyBackfill db chain cache batch logs' := by
  unfold GumIndexer.applyBackfill backfillTx backfillMatches
  simp only [h.countAll placed _ { db } rfl inv events]

/-- **Only the set of logs matters, and replay is a no-op.**  In every
reachable state, two lists of logs with the same logs -- in any order, with any
repetitions, and up to retracted logs and logs whose row is confirmed (or
settled in another way) -- give the same sweep and the same backfill: the same
database, outcome and cache, or the same error. -/
theorem replay_is_noop (ops : List Op) (chain : ChainSpec) (cache : WatchCache)
    (logs logs' : List Log) (same : SameLogs (run exec Db.empty ops) chain.chainId logs logs')
    (placed : Placed logs) :
    (∀ expectedCursor toBlock,
        applySweep (run exec Db.empty ops) chain cache expectedCursor toBlock logs =
          applySweep (run exec Db.empty ops) chain cache expectedCursor toBlock logs') ∧
      ∀ batch, applyBackfill (run exec Db.empty ops) chain cache batch logs =
        applyBackfill (run exec Db.empty ops) chain cache batch logs' :=
  ⟨same.applySweep placed (sound_run ops) (eventLogs_run ops),
    same.applyBackfill placed (sound_run ops) (eventLogs_run ops)⟩

/-- 40 units paid in block 101 have been counted. -/
def sweptOnce : List Op :=
  [.ensureCursor baseChain.chainId 100, .createWatch 1 watchOrder,
    .applySweep baseChain .new 100 101 [transferLog 7 9 40 101 0]]

/-- The payments of blocks 102 and 103 come in the other order, one of them
twice, along with the counted one. -/
theorem replay_is_noop_shuffled :
    applySweep (run exec Db.empty sweptOnce) baseChain .new 101 103
        [transferLog 7 9 40 102 0, transferLog 7 9 70 103 0] =
      applySweep (run exec Db.empty sweptOnce) baseChain .new 101 103
        [transferLog 7 9 70 103 0, transferLog 7 9 40 101 0, transferLog 7 9 40 102 0,
          transferLog 7 9 70 103 0] := by
  have hsettled : (transferLog 7 9 40 101 0).Settled (run exec Db.empty sweptOnce)
      baseChain.chainId := by
    have hrow : ((run exec Db.empty sweptOnce).transfers.get? ⟨baseChain.chainId, 101, 0⟩).map
        Transfer.status = some .confirmed := by decide +kernel
    obtain ⟨t, ht, hs⟩ := Option.map_eq_some_iff.mp hrow
    refine ⟨101, rfl, 0, rfl, fun hc => ?_⟩
    rw [hc t ht] at hs
    contradiction
  refine (replay_is_noop sweptOnce baseChain .new _ _ (fun l _ hl => ?_) ?_).1 101 103
  · have hne : l ≠ transferLog 7 9 40 101 0 := by
      rintro rfl
      exact hl hsettled
    simp only [List.mem_cons, List.not_mem_nil, or_false, hne, false_or]
    tauto
  · intro l hl l' hl' _ _ number index hn hn' _ _
    simp only [List.mem_cons, List.not_mem_nil, or_false] at hl hl'
    rcases hl with rfl | rfl <;> rcases hl' with rfl | rfl
    · rfl
    · cases hn.trans hn'.symm
    · cases hn.trans hn'.symm
    · rfl

end GumIndexer
