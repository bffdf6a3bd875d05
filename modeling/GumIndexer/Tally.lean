import GumIndexer.Attribution
import GumIndexer.Expiry
import GumIndexer.Orphans
import GumIndexer.Sweeper
import Mathlib.Data.List.Dedup

/-!
# GumIndexer.Tally

What has been counted toward one watch, as a list of payments of the canonical
chain.

A sweep counts the payments above the cursor, in the order of the chain; a
backfill counts those of blocks that were swept before the watch existed.
`Watch.tally` is the outcome of both: `base` first, and then what was paid
above the block `k₀`, until the threshold is reached.  `Db.Tallied` says that
the credits of a store are a tally, and its step lemmas how the operations of a
sweep carry it on: `Tallied.sweep`, `Tallied.forward` and `Tallied.listed`.

Two facts about the world go in.  `Fetched` is how `Sweeper::backfill` asks the
node for its logs, span by span, and `Fetched.paymentsTo_eq` that nothing is
lost at the cuts.  `aimed_run` says that nobody but a watch of the target
records a payment to it.
-/

namespace GumIndexer

open Base

variable {chain : ChainSpec} {canon : Canon} {db : Db} {op : Op} {w : Watch}

/-! ## What a backfill is told -/

/-- The honest answers to requests for consecutive spans of `[lo, hi]`. -/
inductive Fetched (canon : Canon) (filter : Nat → Nat → Filter) : Nat → Nat → List Log → Prop
  | done {lo hi : Nat} (passed : hi < lo) : Fetched canon filter lo hi []
  | span {lo k hi : Nat} {rest : List Log} (hlo : lo ≤ k) (hhi : k ≤ hi)
      (tail : Fetched canon filter (k + 1) hi rest) :
      Fetched canon filter lo hi (canon.getLogs (filter lo k) ++ rest)

section Fetched

variable {batch : List PendingBackfill} {b : PendingBackfill} {lo hi : Nat} {logs : List Log}

/-- The entry of the batch is for the target of the watch. -/
def PendingBackfill.Of (b : PendingBackfill) (w : Watch) : Prop :=
  b.tokenAddress = w.tokenAddress ∧ b.paymentAddress = w.paymentAddress

/-- The filter of a batch lets the payments to its watches through. -/
theorem backfillFilter_admits {l : Log} {p : Payment} (hb : b ∈ batch) (hof : b.Of w)
    (encoded : l.Encoded) (hp : payment? chain l = some p) (hto : p.To w) :
    (backfillFilter chain batch lo hi).Admits l ↔ lo ≤ p.blockNumber ∧ p.blockNumber ≤ hi := by
  obtain ⟨src, dst, htopics, hdst, htoken, hnumber, -⟩ := payment?_spec hp
  obtain ⟨hmem, haddress⟩ := ChainSpec.tokenByLogAddress_eq_some_iff.mp htoken
  constructor
  · rintro ⟨-, -, -, n, hn, hlo, hhi⟩
    obtain rfl : p.blockNumber = n := Option.some.inj (hnumber.symm.trans hn)
    exact ⟨hlo, hhi⟩
  · rintro ⟨hlo, hhi⟩
    have htopic : l.topics[2]? = some dst := by rw [htopics]; rfl
    refine ⟨.inr ?_, by rw [htopics]; rfl, .inr ⟨dst, htopic, ?_⟩, p.blockNumber, hnumber, hlo, hhi⟩
    · refine List.mem_dedup.mpr ((List.mem_insertionSort _).mpr ?_)
      refine List.mem_filterMap.mpr ⟨b, hb, ?_⟩
      have hb' : chain.tokenByAddress b.tokenAddress = some p.token :=
        ChainSpec.tokenByAddress_eq_some_iff.mpr ⟨hmem, hto.1.trans hof.1.symm⟩
      rw [hb', ← haddress]
      rfl
    · refine List.mem_map.mpr ⟨b, hb, ?_⟩
      rw [encoded dst htopic, ← hdst, hto.2, hof.2]

theorem paymentsTo_backfillFilter (hb : b ∈ batch) (hof : b.Of w) (s upTo : Nat) :
    paymentsTo chain (canon.getLogs (backfillFilter chain batch lo hi)) w s upTo =
      paymentsTo chain canon.logs w (max s lo) (min upTo hi) := by
  unfold paymentsTo paymentsOf Canon.getLogs
  rw [List.filter_comm]
  congr 1
  refine filter_filterMap_filter fun l hl p hp => ?_
  have hl' := canon.encoded l (List.mem_filter.mp hl).1
  rw [← Bool.decide_and]
  refine decide_eq_decide.mpr ?_
  constructor
  · rintro ⟨hto, hlo, hhi⟩
    exact ⟨(backfillFilter_admits hb hof hl' hp hto).mpr ⟨by omega, by omega⟩, hto, by omega,
      by omega⟩
  · rintro ⟨hadmits, hto, hlo, hhi⟩
    have hspan := (backfillFilter_admits hb hof hl' hp hto).mp hadmits
    exact ⟨hto, by omega, by omega⟩

theorem paymentsTo_of_lt {s upTo : Nat} (h : upTo < s) : paymentsTo chain logs w s upTo = [] := by
  refine List.eq_nil_iff_forall_not_mem.mpr fun p hp => ?_
  have hrange := (mem_paymentsTo.mp hp).2.2
  omega

theorem filter_of_paymentsTo_eq_nil {s upTo : Nat} (h : paymentsTo chain logs w s upTo = []) :
    ((paymentsOf chain logs).filter fun p =>
      p.To w ∧ s ≤ p.blockNumber ∧ p.blockNumber ≤ upTo) = [] :=
  List.perm_nil.mp (h ▸ (List.perm_insertionSort Payment.Before _).symm)

theorem paymentsOf_append (logs logs' : List Log) :
    paymentsOf chain (logs ++ logs') = paymentsOf chain logs ++ paymentsOf chain logs' := by
  rw [paymentsOf, List.filter_append, List.filterMap_append]
  rfl

/-- Logs that hold no payment of the range may be left out. -/
theorem paymentsTo_append_left {logs' : List Log} {s upTo : Nat}
    (h : paymentsTo chain logs' w s upTo = []) :
    paymentsTo chain (logs ++ logs') w s upTo = paymentsTo chain logs w s upTo := by
  rw [paymentsTo, paymentsOf_append, List.filter_append, filter_of_paymentsTo_eq_nil h,
    List.append_nil]
  rfl

theorem paymentsTo_append_right {logs' : List Log} {s upTo : Nat}
    (h : paymentsTo chain logs w s upTo = []) :
    paymentsTo chain (logs ++ logs') w s upTo = paymentsTo chain logs' w s upTo := by
  rw [paymentsTo, paymentsOf_append, List.filter_append, filter_of_paymentsTo_eq_nil h,
    List.nil_append]
  rfl

/-- **A backfill is told the payments to the watches of its batch**, however
its range was cut into requests. -/
theorem Fetched.paymentsTo_eq (h : Fetched canon (backfillFilter chain batch) lo hi logs)
    (hb : b ∈ batch) (hof : b.Of w) {s upTo : Nat} (hle : upTo ≤ hi) :
    paymentsTo chain logs w s upTo = paymentsTo chain canon.logs w (max s lo) upTo := by
  induction h generalizing s upTo with
  | @done lo hi passed =>
      have hnone : paymentsTo chain canon.logs w (max s lo) upTo = [] := paymentsTo_of_lt (by omega)
      rw [hnone]
      rfl
  | @span lo k hi rest hlo hhi tail ih =>
      by_cases hk : upTo ≤ k
      · -- the later requests are above the range
        have hrest : paymentsTo chain rest w s upTo = [] := by
          rw [ih hle, paymentsTo_of_lt (by omega)]
        rw [paymentsTo_append_left hrest, paymentsTo_backfillFilter hb hof, Nat.min_eq_left hk]
      · have hrest : paymentsTo chain rest w s k = [] := by
          rw [ih hhi, paymentsTo_of_lt (by omega)]
        have hspan : paymentsTo chain (canon.getLogs (backfillFilter chain batch lo k)) w
            (max s (k + 1)) upTo = [] := by
          rw [paymentsTo_backfillFilter hb hof, paymentsTo_of_lt (by omega)]
        rw [paymentsTo_split s (Nat.le_of_not_le hk), paymentsTo_append_left hrest,
          paymentsTo_append_right hspan, paymentsTo_backfillFilter hb hof, ih hle,
          paymentsTo_split (max s lo) (Nat.le_of_not_le hk), Nat.min_self]
        congr 2
        omega

theorem Fetched.mem {filter : Nat → Nat → Filter} (h : Fetched canon filter lo hi logs)
    (hfrom : ∀ lo hi, (filter lo hi).fromBlock = lo) {l : Log} (hl : l ∈ logs) :
    l ∈ canon.logs ∧ ∃ n ∈ l.blockNumber, lo ≤ n := by
  induction h with
  | done _ => cases hl
  | @span lo k hi rest hlo hhi tail ih =>
      rcases List.mem_append.mp hl with hl | hl
      · obtain ⟨hmem, hadmits⟩ := List.mem_filter.mp hl
        obtain ⟨-, -, -, n, hn, hle, -⟩ := of_decide_eq_true hadmits
        exact ⟨hmem, n, hn, by rw [← hfrom lo k]; exact hle⟩
      · obtain ⟨hmem, n, hn, hle⟩ := ih hl
        exact ⟨hmem, n, hn, by omega⟩

/-- No log is told twice. -/
theorem Fetched.once (h : Fetched canon (backfillFilter chain batch) lo hi logs) :
    (logs.map fun l => (l.blockHash, l.logIndex)).Nodup := by
  induction h with
  | done _ => exact List.nodup_nil
  | @span lo k hi rest hlo hhi tail ih =>
      rw [List.map_append, List.nodup_append]
      refine ⟨canon.once_getLogs _, ih, ?_⟩
      rintro a ha b hb rfl
      obtain ⟨l, hl, rfl⟩ := List.mem_map.mp ha
      obtain ⟨l', hl', heq⟩ := List.mem_map.mp hb
      obtain ⟨hmem', n', hn', hle'⟩ := tail.mem (fun _ _ => rfl) hl'
      obtain ⟨hmem, hadmits⟩ := List.mem_filter.mp hl
      obtain ⟨-, -, -, n, hn, -, hle⟩ := of_decide_eq_true hadmits
      obtain rfl := List.inj_on_of_nodup_map canon.once hmem' hmem heq
      obtain rfl : n = n' := Option.some.inj (hn.symm.trans hn')
      change n ≤ k at hle
      omega

end Fetched

/-- A backfill gets what the node has for its batch, in as many requests as it
takes. -/
def Op.Told (chain : ChainSpec) (canon : Canon) : Op → Prop
  | .applyBackfill _ _ batch logs =>
      ∃ lo hi, (∀ b ∈ batch, lo ≤ b.startBlock ∧ b.backfillTo ≤ hi) ∧
        Fetched canon (backfillFilter chain batch) lo hi logs
  | _ => True

/-! ## Whose rows they are -/

/-- A row after an operation has the owner it had, or is that of a match that
the operation announces or counts. -/
theorem exec_row_cases {log : LogId} {t : Transfer}
    (ht : (exec db op).transfers.get? log = some t) :
    (∃ t₀, db.transfers.get? log = some t₀ ∧ t₀.watchId = t.watchId) ∨
      ∃ c m, (op.Allows db (.announce c m) ∨ op.Allows db (.count c m)) ∧ log = m.logId c ∧
        t.watchId = m.watch.id := by
  obtain ⟨acts, htr, -, hallow⟩ := exec_trace db op
  refine htr.invariant_mem (fun d => ∀ t, d.transfers.get? log = some t →
    (∃ t₀, db.transfers.get? log = some t₀ ∧ t₀.watchId = t.watchId) ∨
      ∃ c m, (op.Allows db (.announce c m) ∨ op.Allows db (.count c m)) ∧ log = m.logId c ∧
        t.watchId = m.watch.id)
    (fun d a d' ha hstep hd t' ht' => ?_) (fun t ht => .inl ⟨t, ht, rfl⟩) t ht
  obtain rfl := Table.key_of_get? ht'
  rcases hstep.row_origin (Table.mem_of_get? ht') with ⟨u, hu, hkey, howner, -⟩ |
    ⟨c, m, s, u, hact, -, rfl⟩
  · have hold : d.transfers.get? t'.key = some u := hkey ▸ Table.get?_of_mem hu
    rw [← howner]
    exact hd u hold
  · refine .inr ⟨c, m, ?_, rfl, rfl⟩
    rcases hact with rfl | rfl
    · exact .inl (hallow _ ha)
    · exact .inr (hallow _ ha)

/-- A notification tells the truth about canonical logs, and is matched to a
watch of the cache. -/
def Op.Matched (chain : ChainSpec) (canon : Canon) (db : Db) : Op → Prop
  | .recordPending chain' m => chain'.chainId = chain.chainId →
      chain' = chain ∧ Heard chain canon m ∧ db.HasEntry chain ⟨m.tokenIdx, m.dst⟩ m.watch
  | _ => True

/-- The rows of the canonical payments belong to watches of their targets. -/
def Db.Aimed (db : Db) (chain : ChainSpec) (canon : Canon) : Prop :=
  ∀ p ∈ paymentsOf chain canon.logs, ∀ t, db.transfers.get? (p.logId chain.chainId) = some t →
    ∃ u, db.watches.get? t.watchId = some u ∧ u.chainId = chain.chainId ∧ p.To u

/-- Canonical payments are told apart by their logs. -/
theorem Canon.payment_inj {p q : Payment} (hp : p ∈ paymentsOf chain canon.logs)
    (hq : q ∈ paymentsOf chain canon.logs) (h : p.logId chain.chainId = q.logId chain.chainId) :
    p = q :=
  List.inj_on_of_nodup_map (nodup_paymentsOf canon.once) hp hq h

section Matches

variable {ops : List Op} {m : MatchedTransfer} {p : Payment}

/-- A match for a canonical log is the payment of the log, to a watch of its
target. -/
theorem WatchCache.Genuine.aimed {cache : WatchCache} {logs : List Log}
    (genuine : cache.Genuine db chain) (hm : m ∈ matchedOf chain cache logs)
    (hlogs : ∀ l ∈ logs, l ∈ canon.logs) (hp : p ∈ paymentsOf chain canon.logs)
    (hlog : p.logId chain.chainId = m.logId chain.chainId) :
    m.blockNumber = p.blockNumber ∧
      ∃ u, db.watches.get? m.watch.id = some u ∧ u.chainId = chain.chainId ∧ p.To u := by
  obtain ⟨q, hq, ref, hget, -, rfl⟩ := mem_matchedOf.mp hm
  obtain ⟨l, hl, hkept, hpay⟩ := mem_paymentsOf.mp hq
  obtain rfl : p = q :=
    canon.payment_inj hp (mem_paymentsOf.mpr ⟨l, hlogs l hl, hkept, hpay⟩) hlog
  obtain ⟨u, hu, home, hentry⟩ := genuine p.key ref hget
  have hto := (key_eq_iff hentry hq).mp rfl
  obtain rfl := slimEntry_ref hentry
  exact ⟨rfl, u, hu, home, hto⟩

/-- What is heard of a canonical payment names its target. -/
theorem Heard.key_eq (h : Heard chain canon m) (hp : p ∈ paymentsOf chain canon.logs)
    (hlog : p.logId chain.chainId = m.logId chain.chainId) : p.key = ⟨m.tokenIdx, m.dst⟩ := by
  obtain ⟨l, hl, -, hpay⟩ := mem_paymentsOf.mp hp
  obtain ⟨-, -, -, -, -, -, hhash, hindex, -⟩ := payment?_spec hpay
  have hsays := h l hl (hhash.trans (congrArg (some ·.blockHash) hlog))
    (hindex.trans (congrArg (some ·.logIndex) hlog))
  rw [hpay, Option.map_some] at hsays
  rw [← Option.some.inj hsays]
  rfl

theorem Op.Allows.aimed (planned : Planned (ops ++ [op]))
    (informed : op.Informed chain canon (run exec Db.empty ops))
    (allows : op.Allows (run exec Db.empty ops) (.count chain.chainId m))
    (hp : p ∈ paymentsOf chain canon.logs) (hlog : p.logId chain.chainId = m.logId chain.chainId) :
    m.blockNumber = p.blockNumber ∧ ∃ u, (run exec Db.empty ops).watches.get? m.watch.id = some u ∧
      u.chainId = chain.chainId ∧ p.To u := by
  cases op with
  | applySweep chain' cache cursor toBlock logs =>
      obtain ⟨hid, hm⟩ := allows
      obtain ⟨genuine, hhome⟩ := informed
      obtain ⟨rfl, rfl, -⟩ := hhome hid.symm
      exact genuine.deltaLoad.aimed (mem_sweepMatches.mp hm)
        (fun l hl => List.mem_of_mem_filter hl) hp hlog
  | applyBackfill chain' cache batch logs =>
      obtain ⟨hid, hm⟩ := allows
      obtain ⟨rfl, hcanon⟩ := informed hid.symm
      obtain ⟨earlier, limit, ⟨rest, rfl⟩, rfl⟩ := planned ops chain' cache batch logs [] rfl
      rw [run_append]
      exact (genuine_scope (follows_run _ rest)).aimed (mem_backfillMatches.mp hm).1 hcanon hp hlog
  | _ => exact allows.elim

/-- **Nobody records a canonical payment but for a watch of its target.** -/
theorem aimed_run (planned : Planned ops)
    (informed : Along exec (fun db op => op.Informed chain canon db) Db.empty ops)
    (matched : Along exec (fun db op => op.Matched chain canon db) Db.empty ops) :
    (run exec Db.empty ops).Aimed chain canon := by
  induction ops using List.reverseRecOn with
  | nil =>
      intro p hp t ht
      simp [Db.empty] at ht
  | append_singleton ops op ih =>
      rw [along_append] at informed matched
      have inv := ih planned.of_append informed.1 matched.1
      intro p hp t' ht'
      rw [run_append, run_cons, run_nil] at ht' ⊢
      -- watches stay, with their targets
      have hkeep : (∃ u, (run exec Db.empty ops).watches.get? t'.watchId = some u ∧
          u.chainId = chain.chainId ∧ p.To u) → ∃ u, (exec (run exec Db.empty ops) op).watches.get?
            t'.watchId = some u ∧ u.chainId = chain.chainId ∧ p.To u := by
        rintro ⟨u, hu, home, hto⟩
        obtain ⟨u', hu', hlater⟩ := later_run hu [op]
        refine ⟨u', hu', hlater.same.chainId.trans home, ?_⟩
        rw [Payment.To, hlater.same.tokenAddress, hlater.same.paymentAddress]
        exact hto
      refine hkeep ?_
      rcases exec_row_cases ht' with ⟨t, ht, howner⟩ | ⟨c, m, hallows, hlog, howner⟩
      · rw [← howner]
        exact inv p hp t ht
      · obtain rfl : chain.chainId = c := congrArg LogId.chainId hlog
        rw [howner]
        rcases hallows with hannounce | hcount
        · cases op with
          | recordPending chain' m' =>
              obtain ⟨hid, rfl⟩ := hannounce
              obtain ⟨rfl, heard, u, hu, home, hentry⟩ := matched.2.1 hid.symm
              have hkey := heard.key_eq hp hlog
              have hto := (key_eq_iff hentry hp).mp hkey
              have href := slimEntry_ref hentry
              exact ⟨u, by rw [href]; exact hu, home, hto⟩
          | _ => exact hannounce.elim
        · exact (hcount.aimed planned informed.2.1 hp hlog).2

end Matches

/-! ## The tally of a watch -/

/-- The operations of `Sweeper::sweep`. -/
def Op.OfSweep (chain : ChainSpec) : Op → Prop
  | .expireWatches chain' _ _ => chain' = chain
  | .fastForwardCursor c _ => c = chain.chainId
  | .applySweep chain' _ _ _ _ => chain' = chain
  | .applyBackfill chain' _ _ _ => chain' = chain
  | .tick _ => True
  | _ => False

/-- The deadline of the watch has not passed. -/
def Watch.Lasts (w : Watch) (db : Db) : Prop := ∀ deadline ∈ w.expiresAt, db.now < deadline

/-- What has been counted toward the watch when the cursor is at `k`: `base`
first, and then the payments above `k₀`. -/
def Watch.tally (row : Watch) (chain : ChainSpec) (canon : Canon) (base : List Payment)
    (k₀ k : Nat) : List Payment :=
  fill Payment.units row.threshold 0
    (base ++ paymentsTo chain canon.logs row (max row.startBlock (k₀ + 1)) k)

section Tally

variable {row : Watch} {base : List Payment} {k₀ k k' : Nat}

theorem tally_self : row.tally chain canon base k k = fill Payment.units row.threshold 0 base := by
  rw [Watch.tally, paymentsTo_of_lt (by omega), List.append_nil]

/-- Everything has been counted, or the threshold is reached. -/
theorem tally_cases (row : Watch) (chain : ChainSpec) (canon : Canon) (base : List Payment)
    (k₀ k : Nat) :
    row.tally chain canon base k₀ k =
        base ++ paymentsTo chain canon.logs row (max row.startBlock (k₀ + 1)) k ∨
      row.threshold ≤ total Payment.units (row.tally chain canon base k₀ k) := by
  rw [← Nat.zero_add (total _ _)]
  exact total_fill_lt_or _ _ _

/-- The cursor moves on. -/
theorem tally_append (h₀ : k₀ ≤ k) (h : k ≤ k') :
    row.tally chain canon base k₀ k' = row.tally chain canon base k₀ k ++
      fill Payment.units row.threshold (total Payment.units (row.tally chain canon base k₀ k))
        (paymentsTo chain canon.logs row (max row.startBlock (k + 1)) k') := by
  have hmax : max (max row.startBlock (k₀ + 1)) (k + 1) = max row.startBlock (k + 1) := by omega
  rw [Watch.tally, paymentsTo_split _ h, ← List.append_assoc, fill_append, hmax, Nat.zero_add]
  rfl

/-- The watch has been swept up to `k`. -/
structure Db.Tallied (db : Db) (chain : ChainSpec) (canon : Canon) (row : Watch)
    (base : List Payment) (k₀ k : Nat) : Prop where
  retains : db.Retains row
  openAt : db.OpenAt row.id
  cursor : db.CursorAt chain.chainId k
  above : k₀ ≤ k
  credits : db.credits.filter (fun c => c.watchId = row.id) =
    (row.tally chain canon base k₀ k).map (·.credit chain.chainId row.id)

theorem Db.Tallied.mem_credits {p : Payment} (h : db.Tallied chain canon row base k₀ k)
    (hp : p ∈ row.tally chain canon base k₀ k) : p.credit chain.chainId row.id ∈ db.credits := by
  have hmem : p.credit chain.chainId row.id ∈
      (row.tally chain canon base k₀ k).map (·.credit chain.chainId row.id) :=
    List.mem_map_of_mem hp
  rw [← h.credits] at hmem
  exact List.mem_of_mem_filter hmem

theorem Db.Tallied.amount {u : Watch} (h : db.Tallied chain canon row base k₀ k)
    (accounts : Accounts db) (hu : db.watches.get? row.id = some u) :
    u.confirmedAmount = total Payment.units (row.tally chain canon base k₀ k) := by
  rw [accounts.totals row.id u hu, ← total_credit _ chain.chainId row.id, ← h.credits]
  rfl

/-- An operation of a sweep adds `fresh` to the tally. -/
theorem Db.Tallied.add {base' fresh : List Payment} {k₀' : Nat}
    (h : db.Tallied chain canon row base k₀ k) (hop : op.OfSweep chain) (lasting : row.Lasts db)
    (hcursor : (exec db op).CursorAt chain.chainId k') (above : k₀' ≤ k')
    (hcredits : (creditsOf db op).filter (fun c => c.watchId = row.id) =
      fresh.map (·.credit chain.chainId row.id))
    (htally : row.tally chain canon base' k₀' k' = row.tally chain canon base k₀ k ++ fresh) :
    (exec db op).Tallied chain canon row base' k₀' k' where
  retains := h.retains.run [op]
  openAt := by
    refine h.openAt.exec (fun heq => by rw [heq] at hop; exact hop) ?_
    rintro chain' limit locked rfl u hu hid
    -- the watch does not expire
    have hfound := (lists_overdueWatches db chain' limit locked).found u hu
    obtain ⟨w, hw, hlater⟩ := h.retains
    obtain rfl : u = w := Option.some.inj (hfound.symm.trans (hid ▸ hw))
    have hdue := (mem_overdueWatches hu).2
    rw [hlater.same.expiresAt] at hdue
    obtain ⟨deadline, hdeadline, hpassed⟩ := (Option.any_eq_true _ _).mp hdue
    exact Nat.not_le.mpr (lasting deadline hdeadline) (of_decide_eq_true hpassed)
  cursor := hcursor
  above := above
  credits := by
    rw [credits_exec, List.filter_append, h.credits, hcredits, ← List.map_append, ← htally]

/-- An operation that counts what the move of the cursor calls for. -/
theorem Db.Tallied.next (h : db.Tallied chain canon row base k₀ k) (hop : op.OfSweep chain)
    (lasting : row.Lasts db) (hcursor : (exec db op).CursorAt chain.chainId k') (hle : k ≤ k')
    (hcredits : (creditsOf db op).filter (fun c => c.watchId = row.id) =
      (fill Payment.units row.threshold (total Payment.units (row.tally chain canon base k₀ k))
        (paymentsTo chain canon.logs row (max row.startBlock (k + 1)) k')).map
          (·.credit chain.chainId row.id)) :
    (exec db op).Tallied chain canon row base k₀ k' :=
  h.add hop lasting hcursor (h.above.trans hle) hcredits (tally_append h.above hle)

/-- Nothing moves, and nothing is counted. -/
theorem Db.Tallied.still (h : db.Tallied chain canon row base k₀ k) (hop : op.OfSweep chain)
    (lasting : row.Lasts db) (hcursors : (exec db op).cursors = db.cursors)
    (hcredits : (creditsOf db op).filter (fun c => c.watchId = row.id) = []) :
    (exec db op).Tallied chain canon row base k₀ k := by
  refine h.next hop lasting ?_ (Nat.le_refl k) ?_
  · rw [Db.CursorAt, hcursors]
    exact h.cursor
  · rw [hcredits, paymentsTo_of_lt (by omega)]
    rfl

section Ops

variable {ops : List Op} {height : Nat → B256 → Nat} {u : Watch}

/-- A watch that is not active has reached its threshold. -/
theorem Db.Tallied.reached (h : (run exec Db.empty ops).Tallied chain canon row base k₀ k)
    (hu : (run exec Db.empty ops).watches.get? row.id = some u) (inactive : u.status ≠ .active) :
    row.threshold ≤ total Payment.units (row.tally chain canon base k₀ k) := by
  have hdone := (h.openAt u hu).resolve_left inactive
  have hreached := ((retirements_run ops).closed row.id u hu).completed.mp hdone
  obtain ⟨v, hv, hlater⟩ := h.retains
  obtain rfl : u = v := Option.some.inj (hu.symm.trans hv)
  rwa [h.amount (accounts_run ops) hu, hlater.same.threshold] at hreached

/-- What a sweep is to count goes on from the tally. -/
theorem Db.Tallied.gets (h : (run exec Db.empty ops).Tallied chain canon row base k₀ k)
    (hu : (run exec Db.empty ops).watches.get? row.id = some u) (toBlock : Nat) :
    u.gets chain canon k toBlock =
      fill Payment.units row.threshold (total Payment.units (row.tally chain canon base k₀ k))
        (paymentsTo chain canon.logs row (max row.startBlock (k + 1)) toBlock) := by
  unfold Watch.gets
  split
  · obtain ⟨v, hv, hlater⟩ := h.retains
    obtain rfl : u = v := Option.some.inj (hu.symm.trans hv)
    rw [h.amount (accounts_run ops) hu, paymentsTo_of_same hlater.same, hlater.same.threshold,
      hlater.same.startBlock]
  · next inactive => rw [fill_of_le (h.reached hu inactive)]

theorem Db.Tallied.sweep {cache : WatchCache} {cursor toBlock : Nat} {logs : List Log}
    (h : (run exec Db.empty ops).Tallied chain canon row base k₀ k) (planned : Planned ops)
    (ranged : ∀ op ∈ ops, op.Ranged height)
    (chunk : Op.Ranged height (.applySweep chain cache cursor toBlock logs))
    (informed : Op.Informed chain canon (run exec Db.empty ops)
      (.applySweep chain cache cursor toBlock logs))
    (home : row.chainId = chain.chainId) (lasting : row.Lasts (run exec Db.empty ops)) :
    ∃ k', (exec (run exec Db.empty ops) (.applySweep chain cache cursor toBlock logs)).Tallied
      chain canon row base k₀ k' := by
  rcases applySweep_cases (run exec Db.empty ops) chain cache cursor toBlock logs with
    ⟨tx, db', hcur, htx, hflush, he⟩ | ⟨actual, -, he⟩ | he | ⟨e, -, he⟩
  · obtain ⟨u, hu, hlater⟩ := h.retains
    have hid : u.id = row.id := hlater.same.id
    obtain rfl : cursor = k := Db.CursorAt.unique hcur h.cursor
    have hok : (applySweep (run exec Db.empty ops) chain cache cursor toBlock logs).2 =
        .ok (.applied tx.out, setCursor db' chain.chainId toBlock) := by rw [he]
    obtain ⟨hcredits, -⟩ := scan_credits planned ranged chunk informed hok (hid.symm ▸ hu)
      (hlater.same.chainId.trans home)
    refine ⟨toBlock, h.next rfl lasting ?_ chunk.1.le ?_⟩
    · simp only [exec, he, committed]
      exact Db.cursorAt_setCursor (sweepTx_cursorAt htx hflush hcur) toBlock
    · rw [hid, h.gets hu] at hcredits
      simp only [creditsOf, hok]
      exact hcredits
  all_goals
    refine ⟨k, h.still rfl lasting ?_ ?_⟩
    · simp only [exec, he, committed]
    · simp only [creditsOf, he, List.filter_nil]

theorem Db.Tallied.forward {target : Nat}
    (h : (run exec Db.empty ops).Tallied chain canon row base k₀ k)
    (home : row.chainId = chain.chainId) (lasting : row.Lasts (run exec Db.empty ops))
    (pos : 1 ≤ row.startBlock) :
    ∃ k', (exec (run exec Db.empty ops) (.fastForwardCursor chain.chainId target)).Tallied
      chain canon row base k₀ k' := by
  obtain ⟨u, hu, hlater⟩ := h.retains
  have hcur : (run exec Db.empty ops).cursors.get? chain.chainId = some ⟨chain.chainId, k⟩ :=
    h.cursor
  have hle := le_forwarded (run exec Db.empty ops) chain.chainId k target
  by_cases hmove : k = forwarded (run exec Db.empty ops) chain.chainId k target
  · refine ⟨k, h.still rfl lasting ?_ rfl⟩
    simp only [exec, fastForwardCursor, hcur, committed, if_neg (not_not.mpr hmove.symm)]
  · refine ⟨_, h.next rfl lasting ?_ hle ?_⟩
    · simp only [exec, fastForwardCursor, hcur, committed, if_pos (Ne.symm hmove)]
      exact Db.cursorAt_setCursor h.cursor _
    · -- the blocks are below the start block, or the threshold is reached
      by_cases active : u.status = .active
      · have hmem : u ∈ (run exec Db.empty ops).watches.rows := Table.mem_of_get? hu
        have hchain : u.chainId = chain.chainId := hlater.same.chainId.trans home
        have hlt : forwarded (run exec Db.empty ops) u.chainId k target < u.startBlock :=
          forwarded_lt_startBlock hmem active (by rw [hlater.same.startBlock]; exact pos)
            (by rw [hchain]; exact hmove)
        rw [hchain, hlater.same.startBlock] at hlt
        rw [paymentsTo_of_lt (by omega)]
        rfl
      · rw [fill_of_le (h.reached hu active)]
        rfl

section Backfill

variable {cache : WatchCache} {earlier later : List Op} {limit : Nat} {logs : List Log}

theorem backfill_cursors (db : Db) (chain : ChainSpec) (cache : WatchCache)
    (batch : List PendingBackfill) (logs : List Log) :
    (exec db (.applyBackfill chain cache batch logs)).cursors = db.cursors :=
  exec_cursors fun h : Op.Allows _ (.applyBackfill _ _ _ _) .moveCursor => h

/-- A backfill counts nothing toward a watch that is not in its batch. -/
theorem creditsOf_unlisted {batch : List PendingBackfill}
    (h : ∀ m ∈ backfillMatches chain batch logs, m.watch.id ≠ row.id) :
    (creditsOf db (.applyBackfill chain cache batch logs)).filter (fun c => c.watchId = row.id) =
      [] := by
  refine List.filter_eq_nil_iff.mpr fun c hc hid => ?_
  obtain ⟨m, hm, rfl⟩ := mem_creditsOf_batch hc
  exact h m hm (of_decide_eq_true hid)

/-- **What a backfill counts toward a watch of its batch** goes on from the
tally too. -/
theorem Db.Tallied.listed {b : PendingBackfill} {out : SweepOutcome} {db' : Db}
    (h : (run exec (run exec Db.empty earlier) later).Tallied chain canon row base k₀ k)
    (once : (logs.map fun l => (l.blockHash, l.logIndex)).Nodup)
    (hb : b ∈ pendingBackfills (run exec Db.empty earlier) chain.chainId limit)
    (hid : b.id = row.id)
    (latest : row.Latest (pendingBackfills (run exec Db.empty earlier) chain.chainId limit))
    (hok : (applyBackfill (run exec (run exec Db.empty earlier) later) chain cache
      (pendingBackfills (run exec Db.empty earlier) chain.chainId limit) logs).2 = .ok (out, db')) :
    (creditsOf (run exec (run exec Db.empty earlier) later) (.applyBackfill chain cache
        (pendingBackfills (run exec Db.empty earlier) chain.chainId limit) logs)).filter
          (fun c => c.watchId = row.id) =
      (fill Payment.units row.threshold (total Payment.units (row.tally chain canon base k₀ k))
        (countable (run exec (run exec Db.empty earlier) later) chain logs row b.backfillTo)).map
          (·.credit chain.chainId row.id) := by
  have inv := sound_run (earlier ++ later)
  have follows := follows_run (run exec Db.empty earlier) later
  rw [← run_append] at *
  obtain ⟨u, hu, hlater⟩ := h.retains
  have hsame := hlater.same
  have hu' : (run exec Db.empty (earlier ++ later)).watches.get? u.id = some u := by
    rw [hsame.id]
    exact hu
  by_cases active : u.status = .active
  · rw [← hsame.id, creditsOf_backfill (sound_run earlier) follows inv once hu' hok,
      backfillDue_of_listed hb (hid.trans hsame.id.symm) active,
      if_pos ((Watch.Latest.congr hsame).mpr latest), h.amount (accounts_run _) hu, countable,
      paymentsTo_of_same hsame, hsame.threshold, hsame.startBlock]
    rfl
  · rw [← hsame.id, (backfill_watch inv once hu' hok).1, Watch.take_of_inactive active,
      fill_of_le (h.reached hu active)]
    rfl

end Backfill

end Ops

end Tally

end GumIndexer
