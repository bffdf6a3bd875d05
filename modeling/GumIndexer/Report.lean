import GumIndexer.Base.Groups
import GumIndexer.Reconcile
import GumIndexer.Routing
import Mathlib.Data.List.Dedup

/-!
# GumIndexer.Report

What `GET /v1/stats` answers.

`store::stats` lists a row for every token that has statistics or an active
watch, and the handler adds the rows up, chain by chain, over the enabled
chains.  Chain ids are distinct in an accepted configuration
(`Config.chainId_nodup`) and so are the tokens of the rows, so no row is added
twice and none of an enabled chain is missed: where the statistics reconcile the
sums are the numbers of events in the outbox (`stats_response`).

Two things are less than what the names say.  Pending payments are joined to
the rows through the active watches of their token, so a token without an
active watch shows none.  And the volumes are read back into a `U256`: from
`2^256` on for any one token, enabled or not, the endpoint answers nothing at
all.
-/

namespace GumIndexer

open Base

/-! ## The query -/

structure StatsRow where
  chainId : Nat
  tokenAddress : Address
  pendingCount : Nat
  confirmedCount : Nat
  orphanedCount : Nat
  confirmedVolume : U256
  thresholdsReached : Nat
  activeWatches : Nat
deriving DecidableEq, Repr

/-- The token of a watch, which is what statistics are kept for. -/
def Watch.target (w : Watch) : Nat × Address := (w.chainId, w.tokenAddress)

def Db.targetOf (db : Db) (id : Uuid) : Option (Nat × Address) :=
  (db.watches.get? id).map Watch.target

namespace Db

variable (db : Db) (k : Nat × Address)

/-- `active` of the second join. -/
def activeWatches : Nat := db.watches.rows.countP fun w => w.target = k ∧ w.status = .active

/-- `pending` of the second join, which has a row for `k` only if a watch of it
is active. -/
def pendingCount : Nat :=
  if db.activeWatches k = 0 then 0
  else db.transfers.rows.countP fun t => db.targetOf t.watchId = some k ∧ t.status = .pending

end Db

/-- `k` of the query, in the order of the answer. -/
def statsKeys (db : Db) : List (Nat × Address) :=
  (db.stats.rows.map StatsRollup.key ++
    (db.watches.rows.filter (·.status = .active)).map Watch.target).dedup.insertionSort
      fun a b => a.1 < b.1 ∨ a.1 = b.1 ∧ a.2.toNat ≤ b.2.toNat

def statsRow (db : Db) (k : Nat × Address) : Except StoreError StatsRow := do
  let s := db.rollup k.1 k.2
  let confirmedVolume ← numericColumn s.confirmedVolume
  return {
    chainId := k.1
    tokenAddress := k.2
    pendingCount := db.pendingCount k
    confirmedCount := s.confirmedCount
    orphanedCount := s.orphanedCount
    confirmedVolume
    thresholdsReached := s.thresholdsReached
    activeWatches := db.activeWatches k }

/-- `store::stats`. -/
def storeStats (db : Db) : Except StoreError (List StatsRow) := (statsKeys db).mapM (statsRow db)

/-! ## The handler -/

structure TokenStats where
  token : String
  tokenAddress : Address
  paymentsPendingNow : Nat
  paymentsConfirmed : Nat
  paymentsOrphaned : Nat
  confirmedVolume : U256
  thresholdsReached : Nat
  activeWatches : Nat
deriving DecidableEq, Repr

structure ChainStats where
  chain : String
  chainId : Nat
  paymentsConfirmed : Nat
  paymentsPendingNow : Nat
  paymentsOrphaned : Nat
  thresholdsReached : Nat
  tokens : List TokenStats
deriving DecidableEq, Repr

structure StatsResponse where
  paymentsConfirmed : Nat := 0
  paymentsPendingNow : Nat := 0
  paymentsOrphaned : Nat := 0
  chains : List ChainStats := []
deriving DecidableEq, Repr

def tokenStats (chain : ChainSpec) (r : StatsRow) : TokenStats where
  token := ((chain.tokenByAddress r.tokenAddress).map TokenSpec.symbol).getD "UNKNOWN"
  tokenAddress := r.tokenAddress
  paymentsPendingNow := r.pendingCount
  paymentsConfirmed := r.confirmedCount
  paymentsOrphaned := r.orphanedCount
  confirmedVolume := r.confirmedVolume
  thresholdsReached := r.thresholdsReached
  activeWatches := r.activeWatches

/-- The closure `sum`. -/
def sumRows (rows : List StatsRow) (chainId : Nat) (f : StatsRow → Nat) : Nat :=
  ((rows.filter (·.chainId = chainId)).map f).sum

/-- The entry the loop over the chains makes for a chain. -/
def chainStats (rows : List StatsRow) (chain : ChainSpec) : ChainStats where
  chain := chain.name
  chainId := chain.chainId
  paymentsConfirmed := sumRows rows chain.chainId StatsRow.confirmedCount
  paymentsPendingNow := sumRows rows chain.chainId StatsRow.pendingCount
  paymentsOrphaned := sumRows rows chain.chainId StatsRow.orphanedCount
  thresholdsReached := sumRows rows chain.chainId StatsRow.thresholdsReached
  tokens := (rows.filter (·.chainId = chain.chainId)).map (tokenStats chain)

/-- One turn of that loop. -/
def reportChain (rows : List StatsRow) (acc : StatsResponse) (chain : ChainSpec) : StatsResponse :=
  let s := chainStats rows chain
  { paymentsConfirmed := acc.paymentsConfirmed + s.paymentsConfirmed
    paymentsPendingNow := acc.paymentsPendingNow + s.paymentsPendingNow
    paymentsOrphaned := acc.paymentsOrphaned + s.paymentsOrphaned
    chains := acc.chains ++ [s] }

/-- `api::stats`. -/
def stats (chains : List ChainSpec) (db : Db) : Except StoreError StatsResponse := do
  let rows ← storeStats db
  return chains.foldl (reportChain rows) {}

/-! ## What the ledger has -/

namespace Db

variable (db : Db)

/-- The watch is on one of the chains. -/
def onChains (ids : List Nat) (id : Uuid) : Bool := (db.targetOf id).any fun k => k.1 ∈ ids

/-- The token of the watch has an active watch. -/
def heeded (id : Uuid) : Bool := (db.targetOf id).any fun k => db.activeWatches k ≠ 0

/-- What the watches of a token counted, all together. -/
def volumeOf (k : Nat × Address) : Nat :=
  ((db.watches.rows.filter (·.target = k)).map Watch.confirmedAmount).sum

end Db

variable {db : Db} {ids : List Nat} {k : Nat × Address} {rows : List StatsRow}

/-- Being on a token is having it as target. -/
theorem onToken_eq_targetOf (k : Nat × Address) (id : Uuid) :
    db.onToken k.1 k.2 id = decide (db.targetOf id = some k) := by
  rw [Db.onToken, Db.targetOf]
  cases db.watches.get? id with
  | none => simp
  | some w => simp [Watch.target, Prod.ext_iff]

/-- So counting over the one is counting over the other. -/
theorem countP_onToken {α : Type} (xs : List α) (idOf : α → Uuid) (p : α → Prop) [DecidablePred p]
    (k : Nat × Address) :
    (xs.countP fun x => db.onToken k.1 k.2 (idOf x) ∧ p x) =
      xs.countP fun x => db.targetOf (idOf x) = some k ∧ p x := by
  simp only [onToken_eq_targetOf, decide_eq_true_eq]

/-- A watch has its own target. -/
theorem targetOf_of_mem {w : Watch} (hw : w ∈ db.watches.rows) : db.targetOf w.id = some w.target := by
  rw [Db.targetOf, Table.get?_of_mem hw, Option.map_some]

/-! ## The rows -/

/-- No key is listed twice. -/
theorem statsKeys_nodup (db : Db) : (statsKeys db).Nodup :=
  (List.perm_insertionSort _ _).nodup_iff.mpr (List.nodup_dedup _)

/-- A key is listed if it has statistics or active watches. -/
theorem mem_statsKeys : k ∈ statsKeys db ↔
    k ∈ db.stats.rows.map StatsRollup.key ∨ db.activeWatches k ≠ 0 := by
  have hactive : k ∈ (db.watches.rows.filter (·.status = .active)).map Watch.target ↔
      db.activeWatches k ≠ 0 := by
    rw [Db.activeWatches, ← Nat.pos_iff_ne_zero, List.countP_pos_iff, List.mem_map]
    simp only [List.mem_filter, decide_eq_true_eq, and_assoc]
    exact exists_congr fun w => and_congr_right fun _ => and_comm
  rw [statsKeys, List.mem_insertionSort, List.mem_dedup, List.mem_append, hactive]

/-- A token that has no row has no statistics. -/
theorem rollup_of_not_mem (h : k ∉ statsKeys db) :
    db.rollup k.1 k.2 = { chainId := k.1, tokenAddress := k.2 } := by
  have hnone : db.stats.get? k = none :=
    Table.get?_eq_none_iff.mpr fun hmem => h (mem_statsKeys.mpr (.inl hmem))
  rw [Db.rollup, hnone, Option.getD_none]

/-- The row of a token whose volume can be read. -/
def rowOf (db : Db) (k : Nat × Address) : StatsRow where
  chainId := k.1
  tokenAddress := k.2
  pendingCount := db.pendingCount k
  confirmedCount := (db.rollup k.1 k.2).confirmedCount
  orphanedCount := (db.rollup k.1 k.2).orphanedCount
  confirmedVolume := BitVec.ofNat 256 (db.rollup k.1 k.2).confirmedVolume
  thresholdsReached := (db.rollup k.1 k.2).thresholdsReached
  activeWatches := db.activeWatches k

/-- The row of a key, which cannot be read if its volume does not fit. -/
theorem statsRow_eq (db : Db) (k : Nat × Address) :
    statsRow db k =
      if (db.rollup k.1 k.2).confirmedVolume < 2 ^ 256 then .ok (rowOf db k)
      else .error (.corrupt ⟨(db.rollup k.1 k.2).confirmedVolume, 0⟩) := by
  rw [statsRow, numericColumn_eq]
  split <;> rfl

/-- The query fails if the volume of a token does not fit. -/
theorem storeStats_ok_iff : storeStats db = .ok rows ↔
    (∀ k : Nat × Address, (db.rollup k.1 k.2).confirmedVolume < 2 ^ 256) ∧
      rows = (statsKeys db).map (rowOf db) := by
  rw [storeStats, mapM_eq_ok_iff (statsRow_eq db)]
  refine and_congr_left fun _ => ⟨fun h k => ?_, fun h k _ => h k⟩
  by_cases hk : k ∈ statsKeys db
  · exact h k hk
  · rw [rollup_of_not_mem hk]
    exact Nat.two_pow_pos 256

/-- A column of the rows of some chains. -/
def chainsSum (rows : List StatsRow) (ids : List Nat) (f : StatsRow → Nat) : Nat :=
  ((rows.filter (·.chainId ∈ ids)).map f).sum

/-- It is a count over the ledger, if it is one
for every token and no token is without a row. -/
theorem sum_rows {α : Type} {xs : List α} (idOf : α → Uuid) {p : α → Prop} [DecidablePred p]
    {f : StatsRow → Nat}
    (hrow : ∀ k, f (rowOf db k) = xs.countP fun x => db.targetOf (idOf x) = some k ∧ p x)
    (hcover : ∀ k, k ∉ statsKeys db → f (rowOf db k) = 0) (ids : List Nat) :
    chainsSum ((statsKeys db).map (rowOf db)) ids f = xs.countP fun x => db.onChains ids (idOf x) ∧ p x := by
  have hnodup : (((statsKeys db).filter (·.1 ∈ ids)).map some).Nodup :=
    ((statsKeys_nodup db).filter _).map (Option.some_injective _)
  have hgroups := countP_groups (fun x => db.targetOf (idOf x)) p xs hnodup
  have hfilter : ((statsKeys db).map (rowOf db)).filter (·.chainId ∈ ids) =
      ((statsKeys db).filter (·.1 ∈ ids)).map (rowOf db) := List.filter_map
  rw [chainsSum, hfilter, List.map_map]
  simp only [List.map_map, Function.comp_def, ← hrow] at hgroups
  refine hgroups.trans (List.countP_congr fun x hx => ?_)
  simp only [Db.onChains, decide_eq_true_eq, List.mem_map, List.mem_filter, Option.any_eq_true,
    and_congr_left_iff]
  intro hp
  constructor
  · rintro ⟨k, ⟨-, hk⟩, heq⟩
    exact ⟨k, heq.symm, hk⟩
  · rintro ⟨k, heq, hk⟩
    refine ⟨k, ⟨?_, hk⟩, heq.symm⟩
    by_contra hnot
    have hzero := (hrow k).symm.trans (hcover k hnot)
    exact List.countP_eq_zero.mp hzero x hx (by simp [heq, hp])

/-! ## The loop over the chains -/

/-- What the loop over the chains adds up. -/
theorem foldl_reportChain (rows : List StatsRow) (chains : List ChainSpec) (acc : StatsResponse) :
    chains.foldl (reportChain rows) acc =
      { paymentsConfirmed := acc.paymentsConfirmed +
          (chains.map fun c => sumRows rows c.chainId StatsRow.confirmedCount).sum
        paymentsPendingNow := acc.paymentsPendingNow +
          (chains.map fun c => sumRows rows c.chainId StatsRow.pendingCount).sum
        paymentsOrphaned := acc.paymentsOrphaned +
          (chains.map fun c => sumRows rows c.chainId StatsRow.orphanedCount).sum
        chains := acc.chains ++ chains.map (chainStats rows) } := by
  induction chains generalizing acc with
  | nil => simp
  | cons c chains ih =>
      rw [List.foldl_cons, ih]
      simp [reportChain, chainStats, Nat.add_assoc]

/-- The sum of one chain is the sum of a list of one. -/
theorem sumRows_eq (rows : List StatsRow) (c : Nat) (f : StatsRow → Nat) :
    sumRows rows c f = chainsSum rows [c] f := by
  simp [sumRows, chainsSum]

/-- The sums of different chains add up to the sum of all. -/
theorem sum_sumRows (rows : List StatsRow) {chains : List ChainSpec}
    (nodup : (chains.map ChainSpec.chainId).Nodup) (f : StatsRow → Nat) :
    (chains.map fun c => sumRows rows c.chainId f).sum =
      chainsSum rows (chains.map ChainSpec.chainId) f := by
  rw [chainsSum, ← sum_groups StatsRow.chainId f rows nodup, List.map_map]
  rfl

/-- A valid configuration has every chain id once. -/
theorem fromConfig_nodup {upper : String → String} {cfg : Config}
    (valid : cfg.validate upper = .ok ()) :
    ((Registry.fromConfig upper cfg valid).map ChainSpec.chainId).Nodup := by
  have hids : (Registry.fromConfig upper cfg valid).map ChainSpec.chainId =
      cfg.enabledChains.map (·.2.chainId) := by
    rw [Registry.fromConfig, List.map_map]
    exact List.attach_map_val (f := fun nc : String × ChainConfig => nc.2.chainId)
  rw [hids]
  exact Config.chainId_nodup valid

/-! ## The answer -/

/-- The ledger has as much for the watches of the chains. -/
structure Totals (db : Db) (ids : List Nat) (confirmed pending orphaned : Nat) : Prop where
  confirmed : confirmed = db.outbox.rows.countP fun e =>
    db.onChains ids e.watchId ∧ e.eventType = .paymentConfirmed
  pending : pending = db.transfers.rows.countP fun t =>
    db.onChains ids t.watchId ∧ t.status = .pending ∧ db.heeded t.watchId
  orphaned : orphaned = db.outbox.rows.countP fun e =>
    db.onChains ids e.watchId ∧ e.eventType = .paymentOrphaned

/-- The entry of a chain. -/
structure ReportsChain (db : Db) (chain : ChainSpec) (s : ChainStats) : Prop where
  name : s.chain = chain.name
  chainId : s.chainId = chain.chainId
  totals : Totals db [chain.chainId] s.paymentsConfirmed s.paymentsPendingNow s.paymentsOrphaned
  thresholds : s.thresholdsReached = db.watches.rows.countP fun w =>
    db.onChains [chain.chainId] w.id ∧ w.status = .completed
  tokens : (s.tokens.map TokenStats.tokenAddress).Nodup
  volumes : ∀ t ∈ s.tokens, t.confirmedVolume.toNat = db.volumeOf (chain.chainId, t.tokenAddress) ∧
    t.activeWatches = db.activeWatches (chain.chainId, t.tokenAddress)

structure Reports (db : Db) (chains : List ChainSpec) (r : StatsResponse) : Prop where
  totals : Totals db (chains.map ChainSpec.chainId) r.paymentsConfirmed r.paymentsPendingNow
    r.paymentsOrphaned
  chains : List.Forall₂ (ReportsChain db) chains r.chains

/-- The pending count in terms of the rows. -/
theorem pendingCount_eq (db : Db) (k : Nat × Address) :
    db.pendingCount k = db.transfers.rows.countP fun t =>
      db.targetOf t.watchId = some k ∧ t.status = .pending ∧ db.heeded t.watchId := by
  have hheeded : ∀ t : Transfer, db.targetOf t.watchId = some k →
      (db.heeded t.watchId ↔ db.activeWatches k ≠ 0) := by
    intro t htarget
    rw [Db.heeded, htarget, Option.any_some, decide_eq_true_iff]
  rw [Db.pendingCount]
  split
  · rename_i hnone
    refine (List.countP_eq_zero.mpr fun t _ h => ?_).symm
    obtain ⟨htarget, -, h⟩ := of_decide_eq_true h
    exact (hheeded t htarget).mp h hnone
  · rename_i hsome
    refine List.countP_congr fun t _ => ?_
    rw [decide_eq_true_iff, decide_eq_true_iff]
    refine and_congr_right fun htarget => ?_
    rw [hheeded t htarget]
    exact (and_iff_left hsome).symm

section Reconciled

variable (reconciled : ∀ c token, Reconciled db c token)

include reconciled

/-- **The rows add up to the totals.** -/
theorem totals_rows (ids : List Nat) :
    Totals db ids (chainsSum ((statsKeys db).map (rowOf db)) ids StatsRow.confirmedCount)
      (chainsSum ((statsKeys db).map (rowOf db)) ids StatsRow.pendingCount)
      (chainsSum ((statsKeys db).map (rowOf db)) ids StatsRow.orphanedCount) where
  confirmed := by
    refine sum_rows OutboxRow.watchId (fun k => ?_) (fun k hk => ?_) ids
    · exact (reconciled k.1 k.2).confirmedEvents.trans (countP_onToken _ _ _ k)
    · rw [rowOf, rollup_of_not_mem hk]
  pending := by
    refine sum_rows Transfer.watchId (fun k => pendingCount_eq db k) (fun k hk => ?_) ids
    rw [mem_statsKeys, not_or, not_not] at hk
    exact if_pos hk.2
  orphaned := by
    refine sum_rows OutboxRow.watchId (fun k => ?_) (fun k hk => ?_) ids
    · exact (reconciled k.1 k.2).orphanedCount.trans (countP_onToken _ _ _ k)
    · rw [rowOf, rollup_of_not_mem hk]

/-- The thresholds reached are the completed watches. -/
theorem thresholds_rows (ids : List Nat) :
    chainsSum ((statsKeys db).map (rowOf db)) ids StatsRow.thresholdsReached =
      db.watches.rows.countP fun w => db.onChains ids w.id ∧ w.status = .completed := by
  refine sum_rows Watch.id (fun k => ?_) (fun k hk => ?_) ids
  · exact (reconciled k.1 k.2).thresholdsReached.trans (countP_onToken _ _ _ k)
  · rw [rowOf, rollup_of_not_mem hk]

/-- The volume on record is that of the watches. -/
theorem volume_eq (k : Nat × Address) : (db.rollup k.1 k.2).confirmedVolume = db.volumeOf k := by
  rw [(reconciled k.1 k.2).confirmedVolume, Db.volumeOf]
  congr 2
  refine List.filter_congr fun w hw => ?_
  rw [onToken_eq_targetOf, targetOf_of_mem hw]
  simp

/-- **What is reported of a chain is so.** -/
theorem reportsChain (fits : ∀ k, db.volumeOf k < 2 ^ 256) (chain : ChainSpec) :
    ReportsChain db chain (chainStats ((statsKeys db).map (rowOf db)) chain) where
  name := rfl
  chainId := rfl
  totals := by
    simp only [chainStats, sumRows_eq]
    exact totals_rows reconciled [chain.chainId]
  thresholds := by
    simp only [chainStats, sumRows_eq]
    exact thresholds_rows reconciled [chain.chainId]
  tokens := by
    -- the tokens of one chain differ in their addresses
    have hrows : (chainStats ((statsKeys db).map (rowOf db)) chain).tokens.map TokenStats.tokenAddress =
        ((statsKeys db).filter (·.1 = chain.chainId)).map Prod.snd := by
      simp only [chainStats, List.filter_map, List.map_map]
      rfl
    rw [hrows]
    refine ((statsKeys_nodup db).filter _).map_on fun k hk k' hk' hsnd => ?_
    have h := of_decide_eq_true (List.mem_filter.mp hk).2
    have h' := of_decide_eq_true (List.mem_filter.mp hk').2
    exact Prod.ext (h.trans h'.symm) hsnd
  volumes := by
    intro t ht
    obtain ⟨r, hr, rfl⟩ := List.mem_map.mp ht
    obtain ⟨hr, hchain⟩ := List.mem_filter.mp hr
    obtain ⟨k, -, rfl⟩ := List.mem_map.mp hr
    have hk : (chain.chainId, k.2) = k := Prod.ext (of_decide_eq_true hchain).symm rfl
    change (BitVec.ofNat 256 (db.rollup k.1 k.2).confirmedVolume).toNat =
      db.volumeOf (chain.chainId, k.2) ∧ db.activeWatches k = db.activeWatches (chain.chainId, k.2)
    rw [hk, volume_eq reconciled, BitVec.toNat_ofNat, Nat.mod_eq_of_lt (fits k)]
    exact ⟨rfl, rfl⟩

/-- The request succeeds exactly if every volume fits. -/
theorem stats_ok_iff {chains : List ChainSpec} {r : StatsResponse} : stats chains db = .ok r ↔
    (∀ k, db.volumeOf k < 2 ^ 256) ∧
      r = chains.foldl (reportChain ((statsKeys db).map (rowOf db))) {} := by
  have hrows : ∀ rows, storeStats db = .ok rows ↔
      (∀ k, db.volumeOf k < 2 ^ 256) ∧ rows = (statsKeys db).map (rowOf db) := by
    intro rows
    simp only [storeStats_ok_iff, volume_eq reconciled]
  rw [stats]
  cases h : storeStats db with
  | error e =>
      refine ⟨nofun, fun ⟨fits, _⟩ => ?_⟩
      exact nomatch h.symm.trans ((hrows _).mpr ⟨fits, rfl⟩)
  | ok rows =>
      obtain ⟨fits, rfl⟩ := (hrows rows).mp h
      constructor
      · rintro ⟨⟩
        exact ⟨fits, rfl⟩
      · rintro ⟨-, rfl⟩
        rfl

/-- **What is reported is so.** -/
theorem reports_of_ok {chains : List ChainSpec} (nodup : (chains.map ChainSpec.chainId).Nodup)
    {r : StatsResponse} (h : stats chains db = .ok r) : Reports db chains r := by
  obtain ⟨fits, rfl⟩ := (stats_ok_iff reconciled).mp h
  rw [foldl_reportChain]
  constructor
  · simp only [Nat.zero_add, sum_sumRows _ nodup]
    exact totals_rows reconciled _
  · rw [List.nil_append, List.forall₂_map_right_iff]
    exact List.forall₂_same.mpr fun chain _ => reportsChain reconciled fits chain

end Reconciled

/-- **The statistics endpoint.**  In every state that is reached without a sweep
settling rows that have changed since it read them, and for every accepted
configuration, `GET /v1/stats` answers just if the volume of every token fits
into a `U256`, and then its sums, chain by chain and over all, are the numbers of
payments confirmed, orphaned and pending on the enabled chains, where a payment
is pending for it while its token has an active watch. -/
theorem stats_response {upper : String → String} {cfg : Config}
    (valid : cfg.validate upper = .ok ()) (steps : List ServerStep) (tokenOf : LogId → Address)
    (planned : Server.Planned steps)
    (wired : Along Server.step (fun s i => i.Wired tokenOf s) {} steps)
    (summed : Along Server.step (fun s i => i.Summed s) {} steps)
    (undisturbed : Along Server.step (fun s i => i.Undisturbed s) {} steps) :
    ((stats (Registry.fromConfig upper cfg valid) (run Server.step {} steps).db).isOk ↔
      ∀ k, (run Server.step {} steps).db.volumeOf k < 2 ^ 256) ∧
    ∀ r, stats (Registry.fromConfig upper cfg valid) (run Server.step {} steps).db = .ok r →
      Reports (run Server.step {} steps).db (Registry.fromConfig upper cfg valid) r := by
  have balanced := Server.balanced_run steps undisturbed planned wired summed
  have reconciled := fun c token => balanced.reconciled c token
  refine ⟨?_, fun r h => reports_of_ok reconciled (fromConfig_nodup valid) h⟩
  cases h : stats (Registry.fromConfig upper cfg valid) (run Server.step {} steps).db with
  | ok r => simpa [Except.isOk, Except.toBool] using ((stats_ok_iff reconciled).mp h).1
  | error e =>
      simp only [Except.isOk, Except.toBool, Bool.false_eq_true, false_iff]
      intro fits
      exact nomatch h.symm.trans ((stats_ok_iff reconciled).mpr ⟨fits, rfl⟩)

/-- A configuration with the Base chain alone. -/
def baseConfig : Config where
  databaseUrl := "gum"
  chains :=
    [("base",
      { chainId := 8453, httpUrl := "base", wsUrl := "base", ingestMode := .auto
        largeScaleMode := .wsFirehose, pollIntervalMs := 2000, confirmations := 3
        maxLogRange := 2000
        tokens := [⟨"USDC", usdc.address, 6, none, none⟩] })]

theorem baseConfig_valid : baseConfig.validate String.toUpper = .ok () := rfl

/-- After a watch for 100 units was completed by one payment. -/
theorem stats_response_completed :
    ∃ r, stats (Registry.fromConfig String.toUpper baseConfig baseConfig_valid)
        (run Server.step {} sweptBesides).db = .ok r ∧ r.paymentsConfirmed = 1 ∧
      Reports (run Server.step {} sweptBesides).db
        (Registry.fromConfig String.toUpper baseConfig baseConfig_valid) r := by
  obtain ⟨-, hreports⟩ := stats_response baseConfig_valid sweptBesides (fun _ => usdc.address)
    sweptBesides_planned sweptBesides_wired (along_mono (fun _ _ => .of_paid) (by decide +kernel))
    (by decide +kernel)
  have hone : (stats (Registry.fromConfig String.toUpper baseConfig baseConfig_valid)
      (run Server.step {} sweptBesides).db).toOption.map StatsResponse.paymentsConfirmed = some 1 := by
    decide +kernel
  cases h : stats (Registry.fromConfig String.toUpper baseConfig baseConfig_valid)
      (run Server.step {} sweptBesides).db with
  | error e => rw [h] at hone; cases hone
  | ok r =>
      rw [h] at hone
      exact ⟨r, rfl, Option.some.inj hone, hreports r h⟩

end GumIndexer
