import GumIndexer.Chunk

/-!
# GumIndexer.Scan

Sweeps of an honest provider, seen from the canonical chain.

The payments to a watch form one list, in the order of the chain, and a sweep
of `(cursor, toBlock]` sees a segment of it (`paymentsTo_split`,
`paymentsTo_getLogs`).  What it counts toward the watch is that segment, filled
up to the threshold (`scan_credits`).
-/

namespace GumIndexer

open Base

variable {chain : ChainSpec} {canon : Canon} {db : Db} {w : Watch}

/-! ## Segments of the chain -/

instance : IsTrans Payment Payment.Before where
  trans a b c hab hbc := by
    unfold Payment.Before at *
    omega

instance : Std.Total Payment.Before where
  total a b := by
    unfold Payment.Before
    omega

/-- The payments up to a cut, then those above it. -/
theorem paymentsTo_split {logs : List Log} (lo : Nat) {k hi : Nat} (h : k ≤ hi) :
    paymentsTo chain logs w lo hi =
      paymentsTo chain logs w lo k ++ paymentsTo chain logs w (max lo (k + 1)) hi := by
  have hsorted : (paymentsTo chain logs w lo hi).Pairwise
      fun p q => decide (q.blockNumber ≤ k) = true → decide (p.blockNumber ≤ k) = true := by
    refine (List.pairwise_insertionSort Payment.Before _).imp fun {p q} hbefore hle => ?_
    rw [decide_eq_true_eq] at hle ⊢
    unfold Payment.Before at hbefore
    omega
  rw [← filter_append_filter_not hsorted]
  unfold paymentsTo
  rw [filter_insertionSort, filter_insertionSort, List.filter_filter, List.filter_filter]
  congr 2
  · refine List.filter_congr fun p _ => ?_
    rw [← Bool.decide_and]
    refine decide_eq_decide.mpr ?_
    constructor
    · rintro ⟨hk, hto, hlo, -⟩
      exact ⟨hto, hlo, hk⟩
    · rintro ⟨hto, hlo, hk⟩
      exact ⟨hk, hto, hlo, hk.trans h⟩
  · refine List.filter_congr fun p _ => ?_
    rw [← decide_not, ← Bool.decide_and]
    refine decide_eq_decide.mpr ?_
    constructor
    · rintro ⟨hk, hto, hlo, hhi⟩
      exact ⟨hto, by omega, hhi⟩
    · rintro ⟨hto, hlo, hhi⟩
      exact ⟨by omega, hto, by omega, hhi⟩

/-- A sweep is told the payments of its blocks. -/
theorem paymentsOf_getLogs (canon : Canon) (lo hi : Nat) :
    paymentsOf chain (canon.getLogs (sweepFilter chain lo hi)) =
      (paymentsOf chain canon.logs).filter fun p => lo ≤ p.blockNumber ∧ p.blockNumber ≤ hi := by
  unfold paymentsOf Canon.getLogs
  rw [filter_filterMap_comm (s := fun l => (sweepFilter chain lo hi).Admits l), List.filter_comm]
  intro l p hp
  refine decide_eq_decide.mpr ⟨fun h => sweepFilter_admits hp h.1 h.2, fun h => ?_⟩
  obtain ⟨-, -, -, -, -, hnumber, -⟩ := payment?_spec hp
  obtain ⟨-, -, -, n, hn, hlo, hhi⟩ := h
  obtain rfl : p.blockNumber = n := Option.some.inj (hnumber.symm.trans hn)
  exact ⟨hlo, hhi⟩

theorem paymentsTo_getLogs (canon : Canon) (lo k hi : Nat) :
    paymentsTo chain (canon.getLogs (sweepFilter chain (k + 1) hi)) w lo hi =
      paymentsTo chain canon.logs w (max lo (k + 1)) hi := by
  unfold paymentsTo
  rw [paymentsOf_getLogs, List.filter_filter]
  congr 1
  refine List.filter_congr fun p _ => ?_
  rw [← Bool.decide_and]
  refine decide_eq_decide.mpr ?_
  constructor
  · rintro ⟨⟨hto, hlo, hhi⟩, hk, -⟩
    exact ⟨hto, by omega, hhi⟩
  · rintro ⟨hto, hlo, hhi⟩
    exact ⟨⟨hto, by omega, hhi⟩, by omega, hhi⟩

/-! ## Informed sweeps -/

/-- The provider is honest about the chain, and the cache of a sweep knows the
watches: a sweep gets exactly the canonical logs of its range, and a backfill
gets canonical logs only. -/
def Op.Informed (chain : ChainSpec) (canon : Canon) (db : Db) : Op → Prop
  | .applySweep chain' cache expectedCursor toBlock logs =>
      cache.Genuine db chain' ∧ (chain'.chainId = chain.chainId → chain' = chain ∧
        logs = canon.getLogs (sweepFilter chain (expectedCursor + 1) toBlock) ∧
        cache.Covers db chain)
  | .applyBackfill chain' _ _ logs =>
      chain'.chainId = chain.chainId → chain' = chain ∧ ∀ l ∈ logs, l ∈ canon.logs
  | _ => True

/-- The credit of a payment that is counted. -/
def Payment.credit (p : Payment) (chainId : Nat) (id : Uuid) : Credit :=
  ⟨id, p.logId chainId, p.units⟩

/-- What a sweep of `(cursor, toBlock]` is to count toward the watch. -/
def Watch.gets (w : Watch) (chain : ChainSpec) (canon : Canon) (cursor toBlock : Nat) :
    List Payment :=
  if w.status = .active then
    fill Payment.units w.threshold w.confirmedAmount
      (paymentsTo chain canon.logs w (max w.startBlock (cursor + 1)) toBlock)
  else []

theorem due_getLogs (home : w.chainId = chain.chainId) (cursor toBlock : Nat) :
    w.due chain (canon.getLogs (sweepFilter chain (cursor + 1) toBlock)) toBlock =
      w.gets chain canon cursor toBlock := by
  unfold Watch.due Watch.gets
  rw [paymentsTo_getLogs]
  simp only [home, true_and]

theorem total_credit (ps : List Payment) (chainId : Nat) (id : Uuid) :
    total Credit.amount (ps.map (·.credit chainId id)) = total Payment.units ps := by
  rw [total, total, List.map_map]
  rfl

section Swept

variable {ops : List Op} {height : Nat → B256 → Nat} {cache : WatchCache} {cursor toBlock : Nat}
  {logs : List Log} {out : SweepOutcome} {db' : Db}

/-- **What an informed sweep counts toward a watch, and what becomes of the
watch.** -/
theorem scan_credits (planned : Planned ops) (ranged : ∀ op ∈ ops, op.Ranged height)
    (chunk : Op.Ranged height (.applySweep chain cache cursor toBlock logs))
    (informed : Op.Informed chain canon (run exec Db.empty ops)
      (.applySweep chain cache cursor toBlock logs))
    (hok : (applySweep (run exec Db.empty ops) chain cache cursor toBlock logs).2 =
      .ok (.applied out, db'))
    (hw : (run exec Db.empty ops).watches.get? w.id = some w) (home : w.chainId = chain.chainId) :
    (out.confirmed.map (·.toCredit chain.chainId)).filter (fun c => c.watchId = w.id) =
        (w.gets chain canon cursor toBlock).map (·.credit chain.chainId w.id) ∧
      ∃ n, db'.watches.get? w.id =
        some (w.gain (total Payment.units (w.gets chain canon cursor toBlock)) n
          (run exec Db.empty ops).now) := by
  obtain ⟨genuine, hhome⟩ := informed
  obtain ⟨-, rfl, covers⟩ := hhome rfl
  have inv := healthy_run ops
  rcases applySweep_cases (run exec Db.empty ops) chain cache cursor toBlock
    (canon.getLogs (sweepFilter chain (cursor + 1) toBlock)) with
    ⟨tx, db₁, hcur, htx, hflush, he⟩ | ⟨actual, -, he⟩ | he | ⟨e, -, he⟩
  · rw [he] at hok
    cases hok
    have once := canon.once_getLogs (sweepFilter chain (cursor + 1) toBlock)
    have upTo : ∀ p ∈ paymentsOf chain (canon.getLogs (sweepFilter chain (cursor + 1) toBlock)),
        p.blockNumber ≤ toBlock := fun p hp => (paymentsOf_ranged chunk hp).1.2
    have fresh : ∀ p ∈ paymentsOf chain (canon.getLogs (sweepFilter chain (cursor + 1) toBlock)),
        (run exec Db.empty ops).Countable (p.logId chain.chainId) := fun p hp => by
      obtain ⟨⟨habove, -⟩, hheight⟩ := paymentsOf_ranged chunk hp
      exact countable_above planned ranged hcur hheight habove
    have hswept := chunkSwept_of_ok inv.sound inv.events genuine covers once upTo fresh hcur htx
      hflush
    constructor
    · rw [filter_toCredit, confirmed_of_watch inv.sound once htx hw,
        takes_eq_due inv.sound genuine covers hw upTo fresh, due_getLogs home, List.map_map]
      rfl
    · have hrow := hswept.watches w.id
      rw [hw, Option.map_some, due_getLogs home] at hrow
      exact ⟨_, hrow⟩
  all_goals
    rw [he] at hok
    cases hok

end Swept

/-! ## Credits are payments -/

/-- Every credit of a watch of the chain is a canonical payment to it, from its
start block up to the cursor. -/
def Db.Rightful (db : Db) (chain : ChainSpec) (canon : Canon) : Prop :=
  ∀ c ∈ db.credits, ∀ w, db.watches.get? c.watchId = some w → w.chainId = chain.chainId →
    ∃ p, p ∈ paymentsOf chain canon.logs ∧ p.To w ∧ w.startBlock ≤ p.blockNumber ∧
      db.Passed chain.chainId p.blockNumber ∧ c = p.credit chain.chainId w.id

/-- A match made with an entry of the watch is a payment to it. -/
theorem WatchCache.Genuine.payment_of_match {chain' : ChainSpec} {cache : WatchCache} {logs : List Log}
    {m : MatchedTransfer} (genuine : cache.Genuine db chain')
    (hm : m ∈ matchedOf chain' cache logs) (hw : db.watches.get? m.watch.id = some w) :
    w.chainId = chain'.chainId ∧ ∃ p ∈ paymentsOf chain' logs, p.To w ∧
      w.startBlock ≤ p.blockNumber ∧ m = p.toWatch w.ref false := by
  obtain ⟨p, hp, ref, hget, hstart, rfl⟩ := mem_matchedOf.mp hm
  have hid : ref.id = w.id := (Table.key_of_get? hw).symm
  rw [← Table.key_of_get? hw] at hw
  obtain ⟨home, hentry⟩ := genuine.of_id hw hget hid
  obtain rfl := slimEntry_ref hentry
  exact ⟨home, p, hp, (key_eq_iff hentry hp).mp rfl, hstart, rfl⟩

section Credits

variable {ops : List Op} {op : Op} {c : Credit}

theorem mem_creditsOf_sweep {chain' : ChainSpec} {cache : WatchCache} {cursor toBlock : Nat}
    {logs : List Log} (hc : c ∈ creditsOf db (.applySweep chain' cache cursor toBlock logs)) :
    (exec db (.applySweep chain' cache cursor toBlock logs)).CursorAt chain'.chainId toBlock ∧
      ∃ m ∈ matchedOf chain' (deltaLoad db chain' cache).1 logs, c = m.toCredit chain'.chainId := by
  simp only [creditsOf, exec] at hc ⊢
  rcases applySweep_cases db chain' cache cursor toBlock logs with
    ⟨tx, db₁, hcur, htx, hflush, he⟩ | ⟨actual, -, he⟩ | he | ⟨e, -, he⟩
  · simp only [he, committed] at hc ⊢
    obtain ⟨m, hm, rfl⟩ := List.mem_map.mp hc
    obtain ⟨mid, cs, hcs, hout, -⟩ := sweepTx_trace htx
    rw [hout] at hm
    exact ⟨Db.cursorAt_setCursor (sweepTx_cursorAt htx hflush hcur) toBlock, m,
      mem_sweepMatches.mp (hcs.mem hm), rfl⟩
  all_goals
    simp only [he] at hc
    cases hc

theorem mem_creditsOf_batch {chain' : ChainSpec} {cache : WatchCache} {batch : List PendingBackfill}
    {logs : List Log} (hc : c ∈ creditsOf db (.applyBackfill chain' cache batch logs)) :
    ∃ m ∈ backfillMatches chain' batch logs, c = m.toCredit chain'.chainId := by
  simp only [creditsOf] at hc
  cases hok : (applyBackfill db chain' cache batch logs).2 with
  | error e =>
      rw [hok] at hc
      cases hc
  | ok r =>
      obtain ⟨out, db'⟩ := r
      rw [hok] at hc
      obtain ⟨m, hm, rfl⟩ := List.mem_map.mp hc
      obtain ⟨tx, htx, hconfirmed⟩ := applyBackfill_confirmed hok
      obtain ⟨cs, hcs, hout, -⟩ := countAll_trace htx
      rw [hconfirmed, hout] at hm
      exact ⟨m, hcs.mem hm, rfl⟩

/-- What an operation counts is a payment up to the cursor. -/
theorem creditsOf_rightful (planned : Planned (ops ++ [op])) (forward : ∀ o ∈ ops ++ [op], o.Forward)
    (informed : op.Informed chain canon (run exec Db.empty ops))
    (hc : c ∈ creditsOf (run exec Db.empty ops) op)
    (hw : (run exec Db.empty ops).watches.get? c.watchId = some w) (home : w.chainId = chain.chainId) :
    ∃ p, p ∈ paymentsOf chain canon.logs ∧ p.To w ∧ w.startBlock ≤ p.blockNumber ∧
      (exec (run exec Db.empty ops) op).Passed chain.chainId p.blockNumber ∧
      c = p.credit chain.chainId w.id := by
  cases op with
  | applySweep chain' cache cursor toBlock logs =>
      obtain ⟨hat, m, hm, rfl⟩ := mem_creditsOf_sweep hc
      obtain ⟨genuine, hhome⟩ := informed
      obtain ⟨hchain, p, hp, hto, hstart, rfl⟩ := genuine.deltaLoad.payment_of_match hm hw
      obtain ⟨rfl, rfl, -⟩ := hhome (hchain.symm.trans home)
      rw [paymentsOf_getLogs] at hp
      obtain ⟨hmem, hrange⟩ := List.mem_filter.mp hp
      exact ⟨p, hmem, hto, hstart, ⟨toBlock, hat, (of_decide_eq_true hrange).2⟩, rfl⟩
  | applyBackfill chain' cache batch logs =>
      obtain ⟨m, hm, rfl⟩ := mem_creditsOf_batch hc
      obtain ⟨earlier, limit, ⟨rest, rfl⟩, rfl⟩ := planned ops chain' cache batch logs [] rfl
      rw [run_append] at hw ⊢
      have hmatch := (mem_backfillMatches.mp hm).1
      obtain ⟨hchain, p, hp, hto, hstart, rfl⟩ :=
        (genuine_scope (follows_run _ rest)).payment_of_match hmatch hw
      obtain ⟨rfl, hcanon⟩ := informed (hchain.symm.trans home)
      obtain ⟨b, hb, -, -, hle⟩ := backfillMatches_within hm
      obtain ⟨u, hu, huchain, huTo, hbu⟩ := mem_pendingBackfills hb
      -- the range ends at the cursor of the registration
      have hpassed := backfillTo_passed earlier
        (fun o ho => forward o (List.mem_append_left _ (List.mem_append_left _ ho))) hu huTo
      rw [huchain] at hpassed
      have hthen := hpassed.run fun o ho =>
        forward o (List.mem_append_left _ (List.mem_append_right _ ho))
      obtain ⟨k, hk, hbk⟩ := hthen.exec (forward _ (List.mem_append_right _ List.mem_cons_self))
      obtain ⟨l, hl, hkept, hpay⟩ := mem_paymentsOf.mp hp
      exact ⟨p, mem_paymentsOf.mpr ⟨l, hcanon l hl, hkept, hpay⟩, hto, hstart,
        ⟨k, hk, Nat.le_trans hle hbk⟩, rfl⟩
  | _ => cases hc

/-- An operation credits watches that exist. -/
theorem creditsOf_known (ops : List Op) (hc : c ∈ creditsOf (run exec Db.empty ops) op) :
    ∃ w, (run exec Db.empty ops).watches.get? c.watchId = some w := by
  have accounts := exec_invariant Accounts (fun _ _ _ => Accounts.step) (accounts_run ops) op
  obtain ⟨w', hw'⟩ := accounts.known c (by rw [credits_exec]; exact List.mem_append_right _ hc)
  cases hw : (run exec Db.empty ops).watches.get? c.watchId with
  | some w => exact ⟨w, rfl⟩
  | none =>
      obtain ⟨new, seq, cur, -, -, registers⟩ := exec_new_watch hw hw'
      cases registers <;> cases hc

/-- **Only canonical payments are counted**, and only up to the cursor. -/
theorem rightful_run (planned : Planned ops) (forward : ∀ o ∈ ops, o.Forward)
    (informed : Along exec (fun db op => op.Informed chain canon db) Db.empty ops) :
    (run exec Db.empty ops).Rightful chain canon := by
  induction ops using List.reverseRecOn with
  | nil =>
      intro c hc
      simp [Db.credits, Db.empty] at hc
  | append_singleton ops op ih =>
      rw [along_append] at informed
      have hforward : ∀ o ∈ ops, o.Forward := fun o ho => forward o (List.mem_append_left _ ho)
      have inv := ih planned.of_append hforward informed.1
      intro c hc w' hw' home'
      rw [run_append, run_cons, run_nil] at hc hw' ⊢
      rw [credits_exec] at hc
      -- the watch was there before, with the same target and start block
      have hknown : ∃ w, (run exec Db.empty ops).watches.get? c.watchId = some w :=
        (List.mem_append.mp hc).elim ((accounts_run ops).known c) (creditsOf_known ops)
      obtain ⟨w, hw⟩ := hknown
      obtain ⟨v, hv, hlater⟩ := later_run hw [op]
      rw [run_cons, run_nil, hw'] at hv
      cases hv
      have hsame := hlater.same
      have home : w.chainId = chain.chainId := hsame.chainId.symm.trans home'
      have hcases : ∃ p, p ∈ paymentsOf chain canon.logs ∧ p.To w ∧ w.startBlock ≤ p.blockNumber ∧
          (exec (run exec Db.empty ops) op).Passed chain.chainId p.blockNumber ∧
          c = p.credit chain.chainId w.id := by
        rcases List.mem_append.mp hc with hc | hc
        · obtain ⟨p, hp, hto, hstart, hpassed, hcp⟩ := inv c hc w hw home
          exact ⟨p, hp, hto, hstart, hpassed.exec (forward op (by simp)), hcp⟩
        · exact creditsOf_rightful planned forward informed.2.1 hc hw home
      obtain ⟨p, hp, hto, hstart, hpassed, hcp⟩ := hcases
      refine ⟨p, hp, ?_, hsame.startBlock ▸ hstart, hpassed, hsame.id ▸ hcp⟩
      rw [Payment.To, hsame.tokenAddress, hsame.paymentAddress]
      exact hto

end Credits

end GumIndexer
