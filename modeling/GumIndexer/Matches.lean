import GumIndexer.Base.Sort
import GumIndexer.Ledger

/-!
# GumIndexer.Matches

The matches of one watch among all matches of a list of logs.

A counting transaction matches its logs against a cache and sorts the result.
If the cache holds a watch under its key, and under no other, the matches of
the watch are the payments to its target from its start block on, in the order
of the chain (`matchedOf_of_entry`).
-/

namespace GumIndexer

open Base

/-! ## Payments to a target -/

/-- The value of a payment in base units. -/
def Payment.units (p : Payment) : Nat := p.amount.toNat

/-- The payment is to the watch's target. -/
def Payment.To (p : Payment) (w : Watch) : Prop :=
  p.token.address = w.tokenAddress ∧ p.dst = w.paymentAddress

instance (p : Payment) (w : Watch) : Decidable (p.To w) := inferInstanceAs (Decidable (_ ∧ _))

/-- The order of the chain. -/
def Payment.Before (p q : Payment) : Prop :=
  p.blockNumber < q.blockNumber ∨ p.blockNumber = q.blockNumber ∧ p.logIndex ≤ q.logIndex

instance : DecidableRel Payment.Before := fun p q =>
  inferInstanceAs (Decidable (p.blockNumber < q.blockNumber ∨
    p.blockNumber = q.blockNumber ∧ p.logIndex ≤ q.logIndex))

instance : IsTrans MatchedTransfer Before where
  trans a b c hab hbc := by
    unfold Before at *
    omega

instance : Std.Total Before where
  total a b := by
    unfold Before
    omega

/-- The payments to a watch's target in the blocks `[lo, hi]`, in the order of
the chain. -/
def paymentsTo (chain : ChainSpec) (logs : List Log) (w : Watch) (lo hi : Nat) : List Payment :=
  ((paymentsOf chain logs).filter fun p =>
    p.To w ∧ lo ≤ p.blockNumber ∧ p.blockNumber ≤ hi).insertionSort Payment.Before

variable {chain : ChainSpec} {logs : List Log}

/-- A payment to a watch, in a range of blocks. -/
theorem mem_paymentsTo {w : Watch} {lo hi : Nat} {p : Payment} :
    p ∈ paymentsTo chain logs w lo hi ↔
      p ∈ paymentsOf chain logs ∧ p.To w ∧ lo ≤ p.blockNumber ∧ p.blockNumber ≤ hi := by
  simp [paymentsTo, List.mem_insertionSort]

/-- The payments come from the logs that are not removed. -/
theorem mem_paymentsOf {p : Payment} :
    p ∈ paymentsOf chain logs ↔ ∃ l ∈ logs, l.removed = false ∧ payment? chain l = some p := by
  simp [paymentsOf, and_assoc]

/-- They are in configured tokens. -/
theorem token_of_mem_paymentsOf {p : Payment} (h : p ∈ paymentsOf chain logs) :
    p.token ∈ chain.tokens := by
  obtain ⟨l, -, -, hp⟩ := mem_paymentsOf.mp h
  obtain ⟨src, dst, -, -, htoken, -⟩ := payment?_spec hp
  exact (ChainSpec.tokenByLogAddress_eq_some_iff.mp htoken).1

/-- Logs with different identities are payments with different identities. -/
theorem nodup_paymentsOf (once : (logs.map fun l => (l.blockHash, l.logIndex)).Nodup) :
    ((paymentsOf chain logs).map (·.logId chain.chainId)).Nodup := by
  have hkeys : ((paymentsOf chain logs).map fun p => (some p.blockHash, some p.logIndex)).Nodup := by
    refine nodup_map_filterMap (fun l : Log => (l.blockHash, l.logIndex)) ?_ ?_
    · intro l p hp
      obtain ⟨src, dst, -, -, -, -, hhash, hindex, -⟩ := payment?_spec hp
      rw [hhash, hindex]
    · exact once.sublist (List.Sublist.map _ List.filter_sublist)
  rw [List.Nodup, List.pairwise_map] at hkeys ⊢
  refine hkeys.imp fun {p q} hne heq => hne ?_
  simp only [Payment.logId, LogId.mk.injEq, true_and] at heq
  rw [heq.1, heq.2]

/-! ## Matches of a watch -/

/-- The key of a configured watch is the target of its payments. -/
theorem key_eq_iff {w : Watch} {key : WatchKey} {ref : WatchRef} {p : Payment}
    (hentry : slimEntry chain w = some (key, ref)) (hp : p ∈ paymentsOf chain logs) :
    p.key = key ↔ p.To w := by
  obtain ⟨token, htoken, heq⟩ := Option.map_eq_some_iff.mp hentry
  obtain ⟨hmem, haddress⟩ := ChainSpec.tokenByAddress_eq_some_iff.mp htoken
  have hptoken := token_of_mem_paymentsOf hp
  simp only [Prod.mk.injEq] at heq
  rw [← heq.1, Payment.key, WatchKey.mk.injEq, Payment.To]
  refine and_congr_left fun _ => ⟨fun hidx => ?_, fun haddr => ?_⟩
  · rw [ChainSpec.eq_of_idx_eq hptoken hmem hidx, haddress]
  · rw [List.inj_on_of_nodup_map chain.address_nodup hptoken hmem (haddr.trans haddress.symm)]

/-- The entry of a watch has its id, number and start block. -/
theorem slimEntry_ref {w : Watch} {key : WatchKey} {ref : WatchRef}
    (hentry : slimEntry chain w = some (key, ref)) : ref = ⟨w.id, w.seq, w.startBlock⟩ := by
  obtain ⟨token, -, heq⟩ := Option.map_eq_some_iff.mp hentry
  simp only [Prod.mk.injEq] at heq
  exact heq.2.symm

/-- **The matches of a cached watch are the payments to its target** from its
start block on. -/
theorem matchedOf_of_entry {cache : WatchCache} {w : Watch} {key : WatchKey} {ref : WatchRef}
    (hentry : slimEntry chain w = some (key, ref)) (hget : cache.get key = some ref)
    (honly : ∀ key' ref', cache.get key' = some ref' → ref'.id = w.id → key' = key) :
    (matchedOf chain cache logs).filter (fun m => m.watch.id = w.id) =
      ((paymentsOf chain logs).filter fun p => p.To w ∧ w.startBlock ≤ p.blockNumber).map
        fun p => p.toWatch ref false := by
  have href := slimEntry_ref hentry
  rw [matchedOf_eq]
  refine filter_filterMap_eq fun p hp => ?_
  by_cases hto : p.To w
  · have hkey := (key_eq_iff hentry hp).mpr hto
    have hid : (p.toWatch ref false).watch.id = w.id := by rw [href]; rfl
    have hstart : ref.startBlock = w.startBlock := by rw [href]
    by_cases hs : w.startBlock ≤ p.blockNumber
    · simp [Payment.match?, hkey, hget, hstart, hs, hto, hid]
    · simp [Payment.match?, hkey, hget, hstart, hs]
  · have hkey : p.key ≠ key := mt (key_eq_iff hentry hp).mp hto
    cases hm : p.match? cache false with
    | none => simp [hto]
    | some m =>
        obtain ⟨ref', hget', -, rfl⟩ := Payment.match?_eq_some_iff.mp hm
        have hid : ref'.id ≠ w.id := fun hid => hkey (honly p.key ref' hget' hid)
        have hid' : (p.toWatch ref' false).watch.id ≠ w.id := hid
        simp [hto, hid']

/-- Sorting the matches of one watch is sorting its payments. -/
theorem insertionSort_map_toWatch (ref : WatchRef) (ps : List Payment) :
    (ps.map fun p => p.toWatch ref false).insertionSort Before =
      (ps.insertionSort Payment.Before).map fun p => p.toWatch ref false :=
  (List.map_insertionSort Payment.Before Before _ ps fun _ _ _ _ => Iff.rfl).symm

/-- Different logs give different matches. -/
theorem matches_nodup {cache : WatchCache}
    (once : (logs.map fun l => (l.blockHash, l.logIndex)).Nodup) :
    ((matchedOf chain cache logs).map (·.logId chain.chainId)).Nodup := by
  rw [matchedOf_eq]
  refine nodup_map_filterMap (Payment.logId · chain.chainId) ?_ (nodup_paymentsOf once)
  intro p m hm
  obtain ⟨ref, -, -, rfl⟩ := Payment.match?_eq_some_iff.mp hm
  rfl

end GumIndexer
