import GumIndexer.Chain
import GumIndexer.Matches
import GumIndexer.Rollup

/-!
# GumIndexer.Backfill

Does a backfill lose anything?

A backfill matches the logs of already swept blocks against the watches of its
batch and counts the matches.  A watch of the batch that is still active is
the one its target is matched to (`scope_get`), so its matches are exactly the
payments to it in `[start_block, backfill_to]` (`backfillMatches_of_watch`),
and the counting loop fills its threshold with those whose row is missing or
pending.  Rows that an earlier watch or a late notification left `ignored` or
`orphaned` are refused by the upsert: they are what a backfill loses
(`backfill_complete_iff`).
-/

namespace GumIndexer

open Base

variable {chain : ChainSpec} {db : Db}

/-! ## The batch -/

/-- The entry of a watch that awaits a backfill up to `upTo`. -/
def Watch.pendingBackfill (w : Watch) (upTo : Nat) : PendingBackfill :=
  ⟨w.id, w.seq, w.tokenAddress, w.paymentAddress, w.startBlock, upTo⟩

/-- An entry of the batch is of a watch that awaits a backfill. -/
theorem mem_pendingBackfills {chainId limit : Nat} {b : PendingBackfill}
    (h : b ∈ pendingBackfills db chainId limit) :
    ∃ w, db.watches.get? w.id = some w ∧ w.chainId = chainId ∧
      w.backfillTo = some b.backfillTo ∧ b = w.pendingBackfill b.backfillTo := by
  unfold pendingBackfills at h
  obtain ⟨w, hw, hb⟩ := List.mem_filterMap.mp h
  have hrow := List.mem_filter.mp ((List.mem_insertionSort _).mp (List.mem_of_mem_take hw))
  obtain ⟨upTo, hupTo, rfl⟩ := Option.map_eq_some_iff.mp hb
  simp only [decide_eq_true_eq] at hrow
  exact ⟨w, Table.get?_of_mem hrow.1, hrow.2.1, hupTo, rfl⟩

/-- The batch is in the order of registration. -/
theorem pendingBackfills_sorted (db : Db) (chainId limit : Nat) :
    (pendingBackfills db chainId limit).Pairwise fun a b => a.seq ≤ b.seq ∧ a.id ≠ b.id := by
  have htotal : Std.Total fun a b : Watch => a.seq ≤ b.seq := ⟨fun a b => Nat.le_total a.seq b.seq⟩
  have htrans : IsTrans Watch fun a b => a.seq ≤ b.seq := ⟨fun _ _ _ => Nat.le_trans⟩
  unfold pendingBackfills
  generalize hsel : (db.watches.rows.filter fun w => w.chainId = chainId ∧ w.backfillTo.isSome) = sel
  have hids : ((sel.insertionSort fun a b => a.seq ≤ b.seq).map Watch.id).Nodup := by
    refine ((List.perm_insertionSort _ sel).map Watch.id).nodup_iff.mpr ?_
    rw [← hsel]
    exact db.watches.nodup.sublist (List.Sublist.map _ List.filter_sublist)
  have hpair : (sel.insertionSort fun a b => a.seq ≤ b.seq).Pairwise
      fun a b => a.seq ≤ b.seq ∧ a.id ≠ b.id :=
    (List.pairwise_insertionSort _ sel).and (List.pairwise_map.mp hids)
  rw [List.pairwise_filterMap]
  refine (hpair.sublist (List.take_sublist limit _)).imp ?_
  intro u v huv b hb b' hb'
  obtain ⟨_, -, rfl⟩ := Option.map_eq_some_iff.mp hb
  obtain ⟨_, -, rfl⟩ := Option.map_eq_some_iff.mp hb'
  exact huv

/-! ## The scope of a batch -/

/-- The key an entry is cached under. -/
def PendingBackfill.key? (chain : ChainSpec) (b : PendingBackfill) : Option WatchKey :=
  (chain.tokenByAddress b.tokenAddress).map fun token => ⟨token.idx, b.paymentAddress⟩

variable {s : BackfillScope} {b : PendingBackfill} {bs : List PendingBackfill}

theorem BackfillScope.add_of_some {key : WatchKey} (h : b.key? chain = some key) :
    s.add chain b = ⟨(s.cache.insert key ⟨b.id, b.seq, b.startBlock⟩).1,
      s.upTo.upsert (b.id, b.backfillTo)⟩ := by
  obtain ⟨token, htoken, rfl⟩ := Option.map_eq_some_iff.mp h
  unfold add
  rw [htoken]

theorem BackfillScope.add_of_none (h : b.key? chain = none) : s.add chain b = s := by
  have htoken : chain.tokenByAddress b.tokenAddress = none := by simpa [PendingBackfill.key?] using h
  unfold add
  rw [htoken]

/-- Entries under other keys leave a key alone. -/
theorem scope_get_of_ne {key : WatchKey} (h : ∀ b ∈ bs, b.key? chain ≠ some key) :
    (bs.foldl (BackfillScope.add chain) s).cache.get key = s.cache.get key := by
  induction bs generalizing s with
  | nil => rfl
  | cons b bs ih =>
      rw [List.foldl_cons, ih fun c hc => h c (List.mem_cons_of_mem b hc)]
      cases hk : b.key? chain with
      | none => rw [BackfillScope.add_of_none hk]
      | some key' =>
          rw [BackfillScope.add_of_some hk]
          refine WatchCache.get_insert_of_ne _ _ _ _ fun heq => h b List.mem_cons_self ?_
          rw [hk, heq]

/-- Entries of other watches leave an upper end alone. -/
theorem scope_upTo_of_ne {id : Uuid} (h : ∀ b ∈ bs, b.id ≠ id) :
    (bs.foldl (BackfillScope.add chain) s).upTo.get? id = s.upTo.get? id := by
  induction bs generalizing s with
  | nil => rfl
  | cons b bs ih =>
      rw [List.foldl_cons, ih fun c hc => h c (List.mem_cons_of_mem b hc)]
      cases hk : b.key? chain with
      | none => rw [BackfillScope.add_of_none hk]
      | some key =>
          rw [BackfillScope.add_of_some hk, Table.get?_upsert, if_neg (h b List.mem_cons_self)]

/-- What the scope holds under a key comes from the last entry with it. -/
theorem scope_get_last {key : WatchKey} {ref : WatchRef}
    (h : (bs.foldl (BackfillScope.add chain) s).cache.get key = some ref) :
    (s.cache.get key = some ref ∧ ∀ b ∈ bs, b.key? chain ≠ some key) ∨
      ∃ pre b post, bs = pre ++ b :: post ∧ b.key? chain = some key ∧
        (∀ c ∈ post, c.key? chain ≠ some key) ∧ ref = ⟨b.id, b.seq, b.startBlock⟩ := by
  induction bs generalizing s with
  | nil => exact .inl ⟨h, fun _ hb => absurd hb List.not_mem_nil⟩
  | cons b bs ih =>
      rcases ih h with ⟨h, hrest⟩ | ⟨pre, c, post, rfl, hk, hpost, href⟩
      · cases hk : b.key? chain with
        | none =>
            rw [BackfillScope.add_of_none hk] at h
            exact .inl ⟨h, List.forall_mem_cons.mpr ⟨by simp [hk], hrest⟩⟩
        | some key' =>
            rw [BackfillScope.add_of_some hk, WatchCache.get_insert] at h
            split at h
            · next heq =>
                exact .inr ⟨[], b, bs, rfl, by rw [hk, heq], hrest, (Option.some.inj h).symm⟩
            · next hne =>
                refine .inl ⟨h, List.forall_mem_cons.mpr ⟨fun heq => hne ?_, hrest⟩⟩
                exact Option.some.inj (hk.symm.trans heq)
      · exact .inr ⟨b :: pre, c, post, rfl, hk, hpost, href⟩

/-- What the scope has under a key it had before, or an entry of the batch has
put there. -/
theorem scope_get_cases {key : WatchKey} {ref : WatchRef}
    (h : (bs.foldl (BackfillScope.add chain) s).cache.get key = some ref) :
    s.cache.get key = some ref ∨
      ∃ b ∈ bs, b.key? chain = some key ∧ ref = ⟨b.id, b.seq, b.startBlock⟩ := by
  rcases scope_get_last h with h | ⟨pre, b, post, rfl, hk, -, href⟩
  · exact .inl h.1
  · exact .inr ⟨b, by simp, hk, href⟩

/-- The last entry under its key is the one the scope holds. -/
theorem scope_last {pre post : List PendingBackfill} {key : WatchKey} (hk : b.key? chain = some key)
    (hkey : ∀ c ∈ post, c.key? chain ≠ some key) (hid : ∀ c ∈ post, c.id ≠ b.id) :
    (backfillScope chain (pre ++ b :: post)).cache.get key = some ⟨b.id, b.seq, b.startBlock⟩ ∧
      (backfillScope chain (pre ++ b :: post)).upTo.get? b.id = some (b.id, b.backfillTo) := by
  unfold backfillScope
  rw [List.foldl_append, List.foldl_cons, scope_get_of_ne hkey, scope_upTo_of_ne hid,
    BackfillScope.add_of_some hk]
  exact ⟨WatchCache.get_insert_self _ _ _, by rw [Table.get?_upsert, if_pos rfl]⟩

/-- Entries under one key are on one target. -/
theorem key?_inj {c : PendingBackfill} {key : WatchKey} (hb : b.key? chain = some key)
    (hc : c.key? chain = some key) :
    b.tokenAddress = c.tokenAddress ∧ b.paymentAddress = c.paymentAddress := by
  obtain ⟨t, ht, rfl⟩ := Option.map_eq_some_iff.mp hb
  obtain ⟨t', ht', heq⟩ := Option.map_eq_some_iff.mp hc
  simp only [WatchKey.mk.injEq] at heq
  obtain ⟨hmem, haddr⟩ := ChainSpec.tokenByAddress_eq_some_iff.mp ht
  obtain ⟨hmem', haddr'⟩ := ChainSpec.tokenByAddress_eq_some_iff.mp ht'
  have htoken : t' = t := ChainSpec.eq_of_idx_eq hmem' hmem heq.1
  exact ⟨by rw [← haddr, ← haddr', htoken], heq.2.symm⟩

/-- An entry is filed under the key of its watch. -/
theorem key?_pendingBackfill {w : Watch} {key : WatchKey} {ref : WatchRef} (upTo : Nat)
    (h : slimEntry chain w = some (key, ref)) : (w.pendingBackfill upTo).key? chain = some key := by
  obtain ⟨token, htoken, heq⟩ := Option.map_eq_some_iff.mp h
  simp only [Prod.mk.injEq] at heq
  rw [← heq.1]
  exact Option.map_eq_some_iff.mpr ⟨token, htoken, rfl⟩

/-- No entry of the batch on the target of the watch has a larger number. -/
def Watch.Latest (w : Watch) (batch : List PendingBackfill) : Prop :=
  ∀ b ∈ batch, b.tokenAddress = w.tokenAddress → b.paymentAddress = w.paymentAddress → b.seq ≤ w.seq

instance (w : Watch) (batch : List PendingBackfill) : Decidable (w.Latest batch) :=
  inferInstanceAs (Decidable (∀ b ∈ batch, _ → _ → _))

/-- It depends on the columns of the watch only. -/
theorem Watch.Latest.congr {w w' : Watch} {batch : List PendingBackfill} (h : w.Same w') :
    w'.Latest batch ↔ w.Latest batch := by
  unfold Latest
  rw [h.tokenAddress, h.paymentAddress, h.seq]

section Listed

variable {w : Watch} {upTo limit : Nat} {key : WatchKey} {ref : WatchRef}

/-- **The latest watch of the batch on its target is the one that is matched
to it**, up to its own upper end. -/
theorem scope_get (inv : Sound db) (hw : db.watches.get? w.id = some w)
    (latest : w.Latest (pendingBackfills db chain.chainId limit))
    (listed : w.pendingBackfill upTo ∈ pendingBackfills db chain.chainId limit)
    (hentry : slimEntry chain w = some (key, ref)) :
    (backfillScope chain (pendingBackfills db chain.chainId limit)).cache.get key = some ref ∧
      (backfillScope chain (pendingBackfills db chain.chainId limit)).upTo.get? w.id =
        some (w.id, upTo) := by
  obtain ⟨pre, post, hsplit⟩ := List.append_of_mem listed
  have hsorted := pendingBackfills_sorted db chain.chainId limit
  rw [hsplit, List.pairwise_append, List.pairwise_cons] at hsorted
  have hkey := key?_pendingBackfill upTo hentry
  rw [hsplit] at latest
  rw [hsplit, slimEntry_ref hentry]
  refine scope_last hkey (fun c hc hck => ?_) fun c hc => Ne.symm (hsorted.2.1.1 c hc).2
  -- a later entry on the target has the same number, and so the same watch
  obtain ⟨hseq, hid⟩ := hsorted.2.1.1 c hc
  obtain ⟨htoken, hpayment⟩ := key?_inj hck hkey
  have hle := latest c (by simp [hc]) htoken hpayment
  have hcmem : c ∈ pendingBackfills db chain.chainId limit := by
    rw [hsplit]
    exact List.mem_append_right pre (List.mem_cons_of_mem _ hc)
  obtain ⟨u, hu, -, -, hcu⟩ := mem_pendingBackfills hcmem
  rw [hcu] at hseq hid hle
  exact hid (inv.seq_inj u.id w.id u w hu hw (Nat.le_antisymm hle hseq)).symm

/-- No other key holds the watch. -/
theorem scope_only {key' : WatchKey} {ref' : WatchRef} (hw : db.watches.get? w.id = some w)
    (hentry : slimEntry chain w = some (key, ref))
    (h : (backfillScope chain (pendingBackfills db chain.chainId limit)).cache.get key' = some ref')
    (hid : ref'.id = w.id) : key' = key := by
  rcases scope_get_cases h with h | ⟨c, hc, hck, rfl⟩
  · contradiction
  · obtain ⟨u, hu, -, -, hcu⟩ := mem_pendingBackfills hc
    rw [hcu] at hid hck
    have huw : u = w := by
      have huid : u.id = w.id := hid
      rw [huid, hw] at hu
      exact (Option.some.inj hu).symm
    rw [huw, key?_pendingBackfill _ hentry] at hck
    exact (Option.some.inj hck).symm

/-- **A watch that is not the latest of its target is not matched at all**: the
entry of another one has replaced its own. -/
theorem scope_of_not_latest {key' : WatchKey} {ref' : WatchRef} (hw : db.watches.get? w.id = some w)
    (hentry : slimEntry chain w = some (key, ref))
    (hnot : ¬ w.Latest (pendingBackfills db chain.chainId limit))
    (h : (backfillScope chain (pendingBackfills db chain.chainId limit)).cache.get key' = some ref') :
    ref'.id ≠ w.id := by
  intro hid
  obtain rfl := scope_only hw hentry h hid
  rcases scope_get_last h with ⟨hnone, -⟩ | ⟨pre, b, post, hsplit, hkey, hpost, rfl⟩
  · contradiction
  have hsorted := pendingBackfills_sorted db chain.chainId limit
  rw [hsplit, List.pairwise_append, List.pairwise_cons] at hsorted
  have hseq : b.seq = w.seq := by
    have hb : b ∈ pendingBackfills db chain.chainId limit := by rw [hsplit]; simp
    obtain ⟨u, hu, -, -, hbu⟩ := mem_pendingBackfills hb
    have huid : u.id = w.id := by
      rw [hbu] at hid
      exact hid
    rw [huid, hw] at hu
    rw [hbu, ← Option.some.inj hu]
    rfl
  unfold Watch.Latest at hnot
  push Not at hnot
  obtain ⟨c, hc, htoken, hpayment, hlt⟩ := hnot
  have hckey : c.key? chain = some key' := by
    obtain ⟨token, hslim, heq⟩ := Option.map_eq_some_iff.mp hentry
    simp only [Prod.mk.injEq] at heq
    rw [PendingBackfill.key?, htoken, hslim, hpayment, ← heq.1]
    rfl
  rw [hsplit, List.mem_append, List.mem_cons] at hc
  rcases hc with hpre | rfl | hlater
  · have hle := (hsorted.2.2 c hpre b List.mem_cons_self).1
    omega
  · omega
  · exact hpost c hlater hckey

/-- **The matches of the watch in a backfill are the payments to it** in its
own range, in the order of the chain. -/
theorem backfillMatches_of_watch {logs : List Log} (inv : Sound db)
    (hw : db.watches.get? w.id = some w)
    (latest : w.Latest (pendingBackfills db chain.chainId limit))
    (listed : w.pendingBackfill upTo ∈ pendingBackfills db chain.chainId limit)
    (hentry : slimEntry chain w = some (key, ref)) :
    (backfillMatches chain (pendingBackfills db chain.chainId limit) logs).filter
        (fun m => m.watch.id = w.id) =
      (paymentsTo chain logs w w.startBlock upTo).map fun p => p.toWatch ref false := by
  obtain ⟨hget, hupTo⟩ := scope_get inv hw latest listed hentry
  have href := slimEntry_ref hentry
  unfold backfillMatches paymentsTo
  simp only
  rw [filter_insertionSort, List.filter_comm,
    matchedOf_of_entry hentry hget fun _ _ h hid => scope_only hw hentry h hid, List.filter_map,
    List.filter_filter, insertionSort_map_toWatch]
  congr 2
  refine List.filter_congr fun p _ => ?_
  have hid : (p.toWatch ref false).watch.id = w.id := by rw [href]; rfl
  have hnumber : (p.toWatch ref false).blockNumber = p.blockNumber := rfl
  simp only [Function.comp, hid, hnumber, hupTo, Option.any_some]
  by_cases hle : p.blockNumber ≤ upTo <;> simp [hle]

/-- A watch that another entry of the batch hides is matched to nothing. -/
theorem backfillMatches_of_not_latest {logs : List Log} (hw : db.watches.get? w.id = some w)
    (hentry : slimEntry chain w = some (key, ref))
    (hnot : ¬ w.Latest (pendingBackfills db chain.chainId limit)) :
    (backfillMatches chain (pendingBackfills db chain.chainId limit) logs).filter
      (fun m => m.watch.id = w.id) = [] := by
  refine List.filter_eq_nil_iff.mpr fun m hm hid => ?_
  obtain ⟨p, -, ref', hget, -, rfl⟩ := mem_matchedOf.mp (mem_backfillMatches.mp hm).1
  exact scope_of_not_latest hw hentry hnot hget (of_decide_eq_true hid)

end Listed

/-- The upper end of a watch comes from its entry. -/
theorem scope_upTo_cases {bs : List PendingBackfill} {s : BackfillScope} {id : Uuid} {e : Uuid × Nat}
    (h : (bs.foldl (BackfillScope.add chain) s).upTo.get? id = some e) :
    s.upTo.get? id = some e ∨ ∃ b ∈ bs, b.id = id ∧ e = (b.id, b.backfillTo) := by
  induction bs generalizing s with
  | nil => exact .inl h
  | cons b bs ih =>
      rcases ih h with h | ⟨c, hc, hid, he⟩
      · cases hk : b.key? chain with
        | none =>
            rw [BackfillScope.add_of_none hk] at h
            exact .inl h
        | some key =>
            rw [BackfillScope.add_of_some hk, Table.get?_upsert] at h
            split at h
            · next heq => exact .inr ⟨b, List.mem_cons_self, heq, (Option.some.inj h).symm⟩
            · exact .inl h
      · exact .inr ⟨c, List.mem_cons_of_mem b hc, hid, he⟩

/-- A backfill counts transfers up to the upper ends of its batch. -/
theorem backfillMatches_le {batch : List PendingBackfill} {logs : List Log} {m : MatchedTransfer}
    {t : Nat} (hm : m ∈ backfillMatches chain batch logs) (hbatch : ∀ b ∈ batch, b.backfillTo ≤ t) :
    m.blockNumber ≤ t := by
  obtain ⟨-, e, he, hle⟩ := mem_backfillMatches.mp hm
  rcases scope_upTo_cases he with hnone | ⟨b, hb, -, rfl⟩
  · contradiction
  · exact hle.trans (hbatch b hb)

/-- Every match of a backfill lies in the range of its watch. -/
theorem backfillMatches_within {limit : Nat} {logs : List Log} {m : MatchedTransfer}
    (h : m ∈ backfillMatches chain (pendingBackfills db chain.chainId limit) logs) :
    ∃ b ∈ pendingBackfills db chain.chainId limit, m.watch.id = b.id ∧
      b.startBlock ≤ m.blockNumber ∧ m.blockNumber ≤ b.backfillTo := by
  obtain ⟨hm, e, he, hle⟩ := mem_backfillMatches.mp h
  obtain ⟨p, -, ref, hget, hstart, rfl⟩ := mem_matchedOf.mp hm
  rcases scope_get_cases hget with hnone | ⟨b, hb, -, rfl⟩
  · contradiction
  rcases scope_upTo_cases he with hnone | ⟨c, hc, hid, rfl⟩
  · contradiction
  -- both entries are of one row
  obtain ⟨u, hu, -, huTo, hbu⟩ := mem_pendingBackfills hb
  obtain ⟨v, hv, -, hvTo, hcv⟩ := mem_pendingBackfills hc
  have huv : u.id = v.id := by
    have hb' : b.id = u.id := by rw [hbu]; rfl
    have hc' : c.id = v.id := by rw [hcv]; rfl
    have hbc : c.id = b.id := hid
    rw [← hb', ← hc', hbc]
  rw [huv, hv] at hu
  obtain rfl := Option.some.inj hu
  have hto : c.backfillTo = b.backfillTo := Option.some.inj (hvTo.symm.trans huTo)
  exact ⟨b, hb, rfl, hstart, by rw [← hto]; exact hle⟩

/-! ## Batches read earlier -/

/-- The payments to a watch are those to its target. -/
theorem paymentsTo_of_target {logs : List Log} {w w' : Watch}
    (htoken : w'.tokenAddress = w.tokenAddress) (hpayment : w'.paymentAddress = w.paymentAddress)
    (lo hi : Nat) : paymentsTo chain logs w' lo hi = paymentsTo chain logs w lo hi := by
  unfold paymentsTo
  congr 1
  refine List.filter_congr fun p _ => decide_eq_decide.mpr (and_congr_left fun _ => ?_)
  rw [Payment.To, Payment.To, htoken, hpayment]

theorem paymentsTo_of_same {logs : List Log} {w w' : Watch} (h : w.Same w') (lo hi : Nat) :
    paymentsTo chain logs w' lo hi = paymentsTo chain logs w lo hi :=
  paymentsTo_of_target h.tokenAddress h.paymentAddress lo hi

/-- A watch of a token that is not configured receives no payments. -/
theorem paymentsTo_of_dormant {logs : List Log} {w : Watch} {lo hi : Nat}
    (h : slimEntry chain w = none) : paymentsTo chain logs w lo hi = [] := by
  refine List.eq_nil_iff_forall_not_mem.mpr fun p hp => ?_
  obtain ⟨hmem, hto, -⟩ := mem_paymentsTo.mp hp
  have htoken : chain.tokenByAddress w.tokenAddress = some p.token :=
    ChainSpec.tokenByAddress_eq_some_iff.mpr ⟨token_of_mem_paymentsOf hmem, hto.1⟩
  rw [slimEntry, htoken] at h
  contradiction

section Stale

variable {db₀ : Db} {w : Watch} {limit : Nat} {b : PendingBackfill}

/-- The watches of `db₀` are still there in `db`. -/
def Db.Follows (db db₀ : Db) : Prop := ∀ w, db₀.watches.get? w.id = some w → db.Retains w

/-- Whatever runs, the watches of the start are there. -/
theorem follows_run (db₀ : Db) (ops : List Op) : (run exec db₀ ops).Follows db₀ :=
  fun _ hw => (Db.Retains.of_get? hw).run ops

/-- An active watch of a batch that was read earlier: it was active then, and
its entry is the one it would have now. -/
theorem listed_before (follows : db.Follows db₀) (hw : db.watches.get? w.id = some w)
    (active : w.status = .active) (hb : b ∈ pendingBackfills db₀ chain.chainId limit)
    (hid : b.id = w.id) :
    ∃ w₀, db₀.watches.get? w₀.id = some w₀ ∧ w₀.Later w ∧ w₀.status = .active ∧
      w₀.chainId = chain.chainId ∧ w₀.backfillTo = some b.backfillTo ∧
      b = w₀.pendingBackfill b.backfillTo := by
  obtain ⟨w₀, hw₀, hchain, hto, hbw⟩ := mem_pendingBackfills hb
  have hid₀ : w₀.id = w.id := by
    rw [← hid, hbw]
    rfl
  obtain ⟨w', hw', hlater⟩ := follows w₀ hw₀
  rw [hid₀, hw] at hw'
  obtain rfl := Option.some.inj hw'
  exact ⟨w₀, hw₀, hlater, hlater.active active, hchain, hto, hbw⟩

/-- **The matches of such a watch are still the payments to it**, if it is the
latest of its target in the batch, and none otherwise. -/
theorem staleMatches_of_watch {logs : List Log} (inv : Sound db₀) (follows : db.Follows db₀)
    (hw : db.watches.get? w.id = some w) (active : w.status = .active)
    (hb : b ∈ pendingBackfills db₀ chain.chainId limit) (hid : b.id = w.id) :
    ∃ ref : WatchRef, ref.id = w.id ∧
      (backfillMatches chain (pendingBackfills db₀ chain.chainId limit) logs).filter
          (fun m => m.watch.id = w.id) =
        (if w.Latest (pendingBackfills db₀ chain.chainId limit) then
          paymentsTo chain logs w w.startBlock b.backfillTo else []).map
            fun p => p.toWatch ref false := by
  obtain ⟨w₀, hw₀, hlater, hactive, hchain, hto, hbw⟩ := listed_before follows hw active hb hid
  have hsame := hlater.same
  simp only [Watch.Latest.congr hsame]
  rw [paymentsTo_of_same hsame, hsame.id, hsame.startBlock]
  cases hentry : slimEntry chain w₀ with
  | some e =>
      obtain ⟨key, ref⟩ := e
      refine ⟨ref, by rw [slimEntry_ref hentry], ?_⟩
      by_cases latest : w₀.Latest (pendingBackfills db₀ chain.chainId limit)
      · rw [if_pos latest]
        exact backfillMatches_of_watch inv hw₀ latest (by rw [← hbw]; exact hb) hentry
      · rw [if_neg latest]
        exact backfillMatches_of_not_latest hw₀ hentry latest
  | none =>
      -- the token is not configured: neither payments nor matches
      refine ⟨⟨w₀.id, w₀.seq, w₀.startBlock⟩, rfl, ?_⟩
      rw [paymentsTo_of_dormant hentry, ite_self, List.map_nil, List.filter_eq_nil_iff]
      intro m hm hmid
      rw [decide_eq_true_eq] at hmid
      obtain ⟨p, -, ref, hget, -, rfl⟩ := mem_matchedOf.mp (mem_backfillMatches.mp hm).1
      rcases scope_get_cases hget with hnone | ⟨c, hc, hkey, rfl⟩
      · contradiction
      obtain ⟨u, hu, -, -, hcu⟩ := mem_pendingBackfills hc
      have huw : u = w₀ := by
        have huid : u.id = w₀.id := by
          rw [← hmid, hcu]
          rfl
        rw [huid, hw₀] at hu
        exact (Option.some.inj hu).symm
      rw [hcu, huw] at hkey
      obtain ⟨token, htoken, -⟩ := Option.map_eq_some_iff.mp hkey
      have htoken' : chain.tokenByAddress w₀.tokenAddress = some token := htoken
      rw [slimEntry, htoken'] at hentry
      contradiction

end Stale

/-! ## What a backfill counts -/

/-- The payments a watch's backfill is for, in the order of the chain, less
those already counted toward some watch. -/
def uncounted (db : Db) (chain : ChainSpec) (logs : List Log) (w : Watch) (upTo : Nat) :
    List Payment :=
  (paymentsTo chain logs w w.startBlock upTo).filter fun p => ¬ db.Confirmed (p.logId chain.chainId)

/-- The payments to a watch up to `upTo` whose row is missing or pending. -/
def countable (db : Db) (chain : ChainSpec) (logs : List Log) (w : Watch) (upTo : Nat) : List Payment :=
  (paymentsTo chain logs w w.startBlock upTo).filter fun p => db.Countable (p.logId chain.chainId)

/-- The payments a backfill is to count toward a watch: those whose row is
missing or pending, as many as it takes to reach the threshold, if the watch is
active and the latest of its target in the batch. -/
def Db.backfillDue (db : Db) (chain : ChainSpec) (batch : List PendingBackfill) (logs : List Log)
    (w : Watch) : List Payment :=
  match batch.find? fun b => b.id = w.id with
  | some b =>
      if w.status = .active ∧ w.Latest batch then
        fill Payment.units w.threshold w.confirmedAmount (countable db chain logs w b.backfillTo)
      else []
  | none => []

/-- No payment that is counted carries the total of its watch to `2 ^ 256`. -/
def Db.RoomFor (db : Db) (chain : ChainSpec) (batch : List PendingBackfill) (logs : List Log) : Prop :=
  ∀ b ∈ batch, ∀ u, db.watches.get? b.id = some u → u.status = .active → u.Latest batch →
    Stays Payment.units (2 ^ 256) u.threshold u.confirmedAmount (countable db chain logs u b.backfillTo)

/-- What makes a backfill commit. -/
theorem applyBackfill_ok_iff {cache : WatchCache} {batch : List PendingBackfill} {logs : List Log} :
    (∃ out db', (applyBackfill db chain cache batch logs).2 = .ok (out, db')) ↔
      ∃ tx, backfillTx db chain batch logs = .ok tx ∧ ∃ db', flushStats chain tx = .ok db' := by
  unfold applyBackfill
  cases htx : backfillTx db chain batch logs with
  | error e => simp [bind, Except.bind]
  | ok tx =>
      cases hflush : flushStats chain tx with
      | error e => simp [bind, Except.bind, hflush]
      | ok db' =>
          refine iff_of_true ⟨tx.out, db', ?_⟩ ⟨tx, rfl, db', hflush⟩
          simp only [bind, Except.bind, hflush]
          rfl

/-- The transaction counts its matches and clears the marks of its batch. -/
theorem backfillTx_ok {batch : List PendingBackfill} {logs : List Log} {tx : SweepTx}
    (h : backfillTx db chain batch logs = .ok tx) :
    ∃ mid, (backfillMatches chain batch logs).foldlM (countConfirmed chain) { db } = .ok mid ∧
      tx = { mid with db := clearBackfills mid.db (batch.map PendingBackfill.id) } := by
  unfold backfillTx at h
  cases hc : (backfillMatches chain batch logs).foldlM (countConfirmed chain) { db } with
  | error e => rw [hc] at h; contradiction
  | ok mid =>
      rw [hc] at h
      exact ⟨mid, rfl, (Except.ok.inj h).symm⟩

/-- It succeeds if the counting does. -/
theorem exists_backfillTx_iff {batch : List PendingBackfill} {logs : List Log} :
    (∃ tx, backfillTx db chain batch logs = .ok tx) ↔
      ∃ mid, (backfillMatches chain batch logs).foldlM (countConfirmed chain) { db } = .ok mid := by
  constructor
  · rintro ⟨tx, h⟩
    obtain ⟨mid, hc, -⟩ := backfillTx_ok h
    exact ⟨mid, hc⟩
  · rintro ⟨mid, hc⟩
    refine ⟨{ mid with db := clearBackfills mid.db (batch.map PendingBackfill.id) }, ?_⟩
    unfold backfillTx
    rw [hc]
    rfl

/-- What `apply_backfill` commits, up to the statistics. -/
theorem applyBackfill_ok {cache : WatchCache} {batch : List PendingBackfill} {logs : List Log}
    {out : SweepOutcome} {db' : Db} (h : (applyBackfill db chain cache batch logs).2 = .ok (out, db')) :
    ∃ mid, (backfillMatches chain batch logs).foldlM (countConfirmed chain) { db } = .ok mid ∧
      out = mid.out ∧
      ∃ stats, db' = { clearBackfills mid.db (batch.map PendingBackfill.id) with stats } := by
  rcases applyBackfill_cases db chain cache batch logs with ⟨tx, db₁, htx, hflush, he⟩ | ⟨e, -, he⟩
  · rw [he] at h
    cases h
    obtain ⟨mid, hc, rfl⟩ := backfillTx_ok htx
    exact ⟨mid, hc, rfl, flushStats_frame hflush⟩
  · rw [he] at h
    contradiction

theorem applyBackfill_confirmed {cache : WatchCache} {batch : List PendingBackfill} {logs : List Log}
    {out : SweepOutcome} {db' : Db} (h : (applyBackfill db chain cache batch logs).2 = .ok (out, db')) :
    ∃ tx, (backfillMatches chain batch logs).foldlM (countConfirmed chain) { db } = .ok tx ∧
      out.confirmed = tx.out.confirmed := by
  obtain ⟨mid, hc, rfl, -⟩ := applyBackfill_ok h
  exact ⟨mid, hc, rfl⟩

/-- Different logs give different matches. -/
theorem nodup_backfillMatches {batch : List PendingBackfill} {logs : List Log}
    (once : (logs.map fun l => (l.blockHash, l.logIndex)).Nodup) :
    ((backfillMatches chain batch logs).map (·.logId chain.chainId)).Nodup := by
  unfold backfillMatches
  refine ((List.perm_insertionSort _ _).map _).nodup_iff.mpr ?_
  exact (matches_nodup once).sublist (List.Sublist.map _ List.filter_sublist)

theorem filter_toCredit (ms : List MatchedTransfer) (chainId : Nat) (id : Uuid) :
    (ms.map (·.toCredit chainId)).filter (fun c => c.watchId = id) =
      (ms.filter fun m => m.watch.id = id).map (·.toCredit chainId) := by
  rw [List.filter_map]
  rfl

/-- Clearing the mark of one watch. -/
theorem get?_setWatch_backfilled (db : Db) (id id' : Uuid) :
    (setWatch db id Watch.backfilled).watches.get? id' =
      (db.watches.get? id').map fun w => if id = id' then w.backfilled else w := by
  unfold setWatch
  cases hg : db.watches.get? id with
  | none =>
      by_cases hid : id = id'
      · subst hid
        rw [hg]
        rfl
      · simp [hid]
  | some u =>
      obtain rfl := Table.key_of_get? hg
      simp only [Db.putWatch]
      rw [Table.get?_replace]
      by_cases hid : u.id = id'
      · subst hid
        rw [if_pos (show u.backfilled.id = u.id from rfl), hg]
        simp
      · rw [if_neg (show u.backfilled.id ≠ id' from hid)]
        simp [hid]

/-- A backfill is over for the watches of its batch, and for no others. -/
theorem get?_clearBackfills (db : Db) (ids : List Uuid) (id : Uuid) :
    (clearBackfills db ids).watches.get? id =
      (db.watches.get? id).map fun w => if id ∈ ids then w.backfilled else w := by
  induction ids generalizing db with
  | nil => simp [clearBackfills]
  | cons i ids ih =>
      change (clearBackfills (setWatch db i Watch.backfilled) ids).watches.get? id = _
      rw [ih, get?_setWatch_backfilled, Option.map_map]
      congr 1
      funext w
      by_cases hi : i = id
      · by_cases hmem : id ∈ ids <;> simp [hi, hmem, Watch.backfilled]
      · by_cases hmem : id ∈ ids <;> simp [hi, hmem, Ne.symm hi]

/-- **What a backfill counts toward a watch**, and whether the watch still
awaits it. -/
theorem backfill_watch {cache : WatchCache} {batch : List PendingBackfill} {logs : List Log}
    {out : SweepOutcome} {db' : Db} {w : Watch} (inv : Sound db)
    (once : (logs.map fun l => (l.blockHash, l.logIndex)).Nodup)
    (hw : db.watches.get? w.id = some w)
    (hok : (applyBackfill db chain cache batch logs).2 = .ok (out, db')) :
    (creditsOf db (.applyBackfill chain cache batch logs)).filter (fun c => c.watchId = w.id) =
        (w.take (db.share chain.chainId w.id (backfillMatches chain batch logs))).map
          (·.toCredit chain.chainId) ∧
      ∃ w', db'.watches.get? w.id = some w' ∧
        w'.backfillTo = if w.id ∈ batch.map PendingBackfill.id then none else w.backfillTo := by
  have hcredits : creditsOf db (.applyBackfill chain cache batch logs) =
      out.confirmed.map (·.toCredit chain.chainId) := by
    simp only [creditsOf, hok]
  obtain ⟨tx, htx, rfl, stats, rfl⟩ := applyBackfill_ok hok
  obtain ⟨w₁, hw₁, htook, hconfirmed⟩ := countAll_took inv (nodup_backfillMatches once) htx hw
  constructor
  · rw [hcredits, filter_toCredit]
    congr 1
  · refine ⟨if w.id ∈ batch.map PendingBackfill.id then w₁.backfilled else w₁, ?_, ?_⟩
    · change (clearBackfills tx.db (batch.map PendingBackfill.id)).watches.get? w.id = _
      rw [get?_clearBackfills, hw₁, Option.map_some]
    · by_cases hlisted : w.id ∈ batch.map PendingBackfill.id
      · rw [if_pos hlisted, if_pos hlisted]
        rfl
      · rw [if_neg hlisted, if_neg hlisted]
        exact htook.backfillTo

/-- The share of a watch, if its matches are known as payments. -/
theorem share_eq_map {ms : List MatchedTransfer} {w : Watch} {ref : WatchRef} {ps : List Payment}
    (h : ms.filter (fun m => m.watch.id = w.id) = ps.map fun p => p.toWatch ref false) :
    db.share chain.chainId w.id ms =
      (ps.filter fun p => db.Countable (p.logId chain.chainId)).map fun p => p.toWatch ref false := by
  have hsplit : db.share chain.chainId w.id ms =
      (ms.filter fun m => m.watch.id = w.id).filter fun m => db.Countable (m.logId chain.chainId) := by
    rw [List.filter_filter, Db.share]
    refine List.filter_congr fun m _ => ?_
    by_cases hid : m.watch.id = w.id <;> simp [hid]
  rw [hsplit, h, List.filter_map]
  rfl

/-- What is counted toward an active watch, as payments. -/
theorem take_map {w : Watch} {ref : WatchRef} {ps : List Payment} (active : w.status = .active) :
    w.take (ps.map fun p => p.toWatch ref false) =
      (fill Payment.units w.threshold w.confirmedAmount ps).map fun p => p.toWatch ref false := by
  rw [Watch.take_of_active active, fill_map]
  rfl

theorem total_map_toWatch (ref : WatchRef) (ps : List Payment) :
    total MatchedTransfer.units (ps.map fun p => p.toWatch ref false) = total Payment.units ps := by
  rw [total, total, List.map_map]
  rfl

/-- Of the uncounted payments, those that can be counted. -/
theorem filter_countable_uncounted {logs : List Log} {w : Watch} {upTo : Nat} :
    (uncounted db chain logs w upTo).filter (fun p => db.Countable (p.logId chain.chainId)) =
      countable db chain logs w upTo := by
  rw [uncounted, countable, List.filter_filter]
  refine List.filter_congr fun p _ => ?_
  by_cases hc : db.Countable (p.logId chain.chainId)
  · simp [hc, hc.not_confirmed]
  · simp [hc]

/-- The upsert refuses the row, although it was never counted. -/
def Db.Refused (db : Db) (log : LogId) : Prop :=
  HasStatus db.transfers log .ignored ∨ HasStatus db.transfers log .orphaned

instance (db : Db) (log : LogId) : Decidable (db.Refused log) := inferInstanceAs (Decidable (_ ∨ _))

/-- A payment that was not counted can be counted unless its row is ignored or
orphaned. -/
theorem not_countable_iff {log : LogId} (h : ¬ db.Confirmed log) :
    ¬ db.Countable log ↔ db.Refused log := by
  unfold Db.Countable
  constructor
  · intro hn
    push Not at hn
    obtain ⟨t, ht, hp⟩ := hn
    cases hs : t.status with
    | pending => exact absurd hs hp
    | confirmed => exact absurd ⟨t, ht, hs⟩ h
    | ignored => exact .inl ⟨t, ht, hs⟩
    | orphaned => exact .inr ⟨t, ht, hs⟩
  · rintro (⟨t, ht, hs⟩ | ⟨t, ht, hs⟩) hc
    · rw [hc t ht] at hs
      contradiction
    · rw [hc t ht] at hs
      contradiction

/-- What the backfill of a watch owes: the transaction commits, every payment
to the watch in its range that was not counted before is counted toward it,
unless earlier ones have reached its threshold, and whatever is counted lies
in the range of its own watch. -/
structure BackfillComplete (db : Db) (chain : ChainSpec) (cache : WatchCache)
    (batch : List PendingBackfill) (logs : List Log) (w : Watch) (upTo : Nat) : Prop where
  commits : ∃ out db', (applyBackfill db chain cache batch logs).2 = .ok (out, db')
  counted : ∀ pre p post, uncounted db chain logs w upTo = pre ++ p :: post →
    ⟨w.id, p.logId chain.chainId, p.units⟩ ∈ creditsOf db (.applyBackfill chain cache batch logs) ∨
      w.threshold ≤ w.confirmedAmount + total Payment.units pre
  within : ∀ out db', (applyBackfill db chain cache batch logs).2 = .ok (out, db') →
    ∀ m ∈ out.confirmed, ∃ b ∈ batch, m.watch.id = b.id ∧ b.startBlock ≤ m.blockNumber ∧
      m.blockNumber ≤ b.backfillTo

section Counted

variable {db₀ : Db} {limit : Nat} {logs : List Log} {w : Watch} {b : PendingBackfill}

/-- A watch has one entry in the batch. -/
theorem find?_batch (hb : b ∈ pendingBackfills db₀ chain.chainId limit) (hid : b.id = w.id) :
    ((pendingBackfills db₀ chain.chainId limit).find? fun c => c.id = w.id) = some b := by
  have hsome : ((pendingBackfills db₀ chain.chainId limit).find? fun c => c.id = w.id).isSome :=
    List.find?_isSome.mpr ⟨b, hb, by simpa using hid⟩
  obtain ⟨c, hc⟩ := Option.isSome_iff_exists.mp hsome
  obtain ⟨u, hu, -, huTo, hcu⟩ := mem_pendingBackfills (List.mem_of_find?_eq_some hc)
  obtain ⟨v, hv, -, hvTo, hbv⟩ := mem_pendingBackfills hb
  have huid : u.id = w.id := by
    have hcid : c.id = w.id := by simpa using List.find?_some hc
    rw [← hcid, hcu]
    rfl
  have hvid : v.id = w.id := by
    rw [← hid, hbv]
    rfl
  rw [huid] at hu
  rw [hvid, hu] at hv
  obtain rfl := Option.some.inj hv
  rw [hc, hcu, hbv, Option.some.inj (huTo.symm.trans hvTo)]

/-- What is due to an active watch of the batch. -/
theorem backfillDue_of_listed (hb : b ∈ pendingBackfills db₀ chain.chainId limit) (hid : b.id = w.id)
    (active : w.status = .active) :
    db.backfillDue chain (pendingBackfills db₀ chain.chainId limit) logs w =
      if w.Latest (pendingBackfills db₀ chain.chainId limit) then
        fill Payment.units w.threshold w.confirmedAmount (countable db chain logs w b.backfillTo)
      else [] := by
  unfold Db.backfillDue
  rw [find?_batch hb hid]
  simp [active]

/-- **What a backfill takes for a watch is what is due to it.** -/
theorem take_backfill (limit : Nat) (logs : List Log) (inv₀ : Sound db₀) (follows : db.Follows db₀)
    (hw : db.watches.get? w.id = some w) :
    ∃ ref : WatchRef, ref.id = w.id ∧
      w.take (db.share chain.chainId w.id
          (backfillMatches chain (pendingBackfills db₀ chain.chainId limit) logs)) =
        (db.backfillDue chain (pendingBackfills db₀ chain.chainId limit) logs w).map
          fun p => p.toWatch ref false := by
  by_cases active : w.status = .active
  · by_cases hlisted : ∃ b ∈ pendingBackfills db₀ chain.chainId limit, b.id = w.id
    · obtain ⟨b, hb, hid⟩ := hlisted
      obtain ⟨ref, href, hmatches⟩ := staleMatches_of_watch inv₀ follows hw active hb hid
      refine ⟨ref, href, ?_⟩
      rw [share_eq_map hmatches, take_map active, backfillDue_of_listed hb hid active]
      split <;> rfl
    · -- no entry, no matches
      refine ⟨⟨w.id, w.seq, w.startBlock⟩, rfl, ?_⟩
      have hnone : db.share chain.chainId w.id
          (backfillMatches chain (pendingBackfills db₀ chain.chainId limit) logs) = [] := by
        refine List.filter_eq_nil_iff.mpr fun m hm hmw => hlisted ?_
        obtain ⟨b, hb, hid, -⟩ := backfillMatches_within hm
        rw [decide_eq_true_eq] at hmw
        exact ⟨b, hb, hid.symm.trans hmw.1⟩
      have hfind : ((pendingBackfills db₀ chain.chainId limit).find? fun b => b.id = w.id) = none :=
        List.find?_eq_none.mpr fun b hb hid => hlisted ⟨b, hb, of_decide_eq_true hid⟩
      rw [hnone, Watch.take_of_active active, Db.backfillDue, hfind]
      rfl
  · refine ⟨⟨w.id, w.seq, w.startBlock⟩, rfl, ?_⟩
    have hdue : db.backfillDue chain (pendingBackfills db₀ chain.chainId limit) logs w = [] := by
      unfold Db.backfillDue
      split
      · exact if_neg fun h => active h.1
      · rfl
    rw [Watch.take_of_inactive active, hdue]
    rfl

/-- A watch gains what is due to it. -/
theorem gains_backfill (inv₀ : Sound db₀) (follows : db.Follows db₀)
    (hw : db.watches.get? w.id = some w) :
    db.gains chain.chainId (backfillMatches chain (pendingBackfills db₀ chain.chainId limit) logs) w =
      total Payment.units
        (db.backfillDue chain (pendingBackfills db₀ chain.chainId limit) logs w) := by
  obtain ⟨ref, -, htake⟩ := take_backfill limit logs inv₀ follows hw
  rw [Db.gains, htake, total_map_toWatch]

/-- **The counting loop succeeds if and only if there is room for what it
counts.** -/
theorem roomFor_iff (inv₀ : Sound db₀) (follows : db.Follows db₀) (inv : Sound db) (events : EventLogs db)
    (once : (logs.map fun l => (l.blockHash, l.logIndex)).Nodup) :
    (∃ tx, (backfillMatches chain (pendingBackfills db₀ chain.chainId limit) logs).foldlM
        (countConfirmed chain) { db } = .ok tx) ↔
      db.RoomFor chain (pendingBackfills db₀ chain.chainId limit) logs := by
  have hreaches : ∀ u, db.watches.get? u.id = some u → SweepTx.reaches { db } chain.chainId u
      (backfillMatches chain (pendingBackfills db₀ chain.chainId limit) logs) =
        u.confirmedAmount + total Payment.units
          (db.backfillDue chain (pendingBackfills db₀ chain.chainId limit) logs u) := by
    intro u hu
    rw [← gains_backfill inv₀ follows hu]
    rfl
  rw [countAll_ok_iff inv events (nodup_backfillMatches once)]
  constructor
  · intro h b hb u hu active latest
    have hid := Table.key_of_get? hu
    rw [← hid] at hu
    have hreach := h u hu
    rw [hreaches u hu, backfillDue_of_listed hb hid.symm active, if_pos latest] at hreach
    exact (stays_iff (inv.fits u.id u hu).2).mpr hreach
  · intro h u hu
    have hfits := (inv.fits u.id u hu).2
    rw [hreaches u hu, Db.backfillDue]
    split
    · next b hfind =>
        have hid : b.id = u.id := by simpa using List.find?_some hfind
        split
        · next hdue =>
            exact (stays_iff hfits).mp
              (h b (List.mem_of_find?_eq_some hfind) u (by rw [hid]; exact hu) hdue.1 hdue.2)
        · exact hfits
    · exact hfits

/-- **A backfill commits if and only if** there is room in the totals of its
watches and in the volumes of their tokens. -/
theorem backfill_commits_iff {cache : WatchCache} (inv₀ : Sound db₀) (follows : db.Follows db₀)
    (inv : Sound db) (events : EventLogs db) (capped : db.Capped)
    (once : (logs.map fun l => (l.blockHash, l.logIndex)).Nodup) :
    (∃ out db', (applyBackfill db chain cache (pendingBackfills db₀ chain.chainId limit) logs).2 =
        .ok (out, db')) ↔
      db.RoomFor chain (pendingBackfills db₀ chain.chainId limit) logs ∧
        db.VolumeFits chain.chainId fun w => total Payment.units
          (db.backfillDue chain (pendingBackfills db₀ chain.chainId limit) logs w) := by
  have hvolume : ∀ {tx}, backfillTx db chain (pendingBackfills db₀ chain.chainId limit) logs = .ok tx →
      ((∃ db', flushStats chain tx = .ok db') ↔ _) := fun htx =>
    (flush_backfillTx_ok_iff inv capped (nodup_backfillMatches once) htx).trans
      (volumeFits_congr _ (fun w hw => gains_backfill inv₀ follows (Table.get?_of_mem hw)) _)
  rw [applyBackfill_ok_iff, ← roomFor_iff inv₀ follows inv events once, ← exists_backfillTx_iff]
  constructor
  · rintro ⟨tx, htx, hflush⟩
    exact ⟨⟨tx, htx⟩, (hvolume htx).mp hflush⟩
  · rintro ⟨⟨tx, htx⟩, hfits⟩
    exact ⟨tx, htx, (hvolume htx).mpr hfits⟩

/-- What a successful backfill counts toward a watch. -/
theorem creditsOf_backfill {cache : WatchCache} {out : SweepOutcome} {db' : Db} (inv₀ : Sound db₀)
    (follows : db.Follows db₀) (inv : Sound db)
    (once : (logs.map fun l => (l.blockHash, l.logIndex)).Nodup)
    (hw : db.watches.get? w.id = some w)
    (hok : (applyBackfill db chain cache (pendingBackfills db₀ chain.chainId limit) logs).2 =
      .ok (out, db')) :
    (creditsOf db (.applyBackfill chain cache (pendingBackfills db₀ chain.chainId limit)
        logs)).filter (fun c => c.watchId = w.id) =
      (db.backfillDue chain (pendingBackfills db₀ chain.chainId limit) logs w).map
        fun p => ⟨w.id, p.logId chain.chainId, p.units⟩ := by
  obtain ⟨ref, href, htake⟩ := take_backfill limit logs inv₀ follows hw
  obtain ⟨hcredits, -⟩ := backfill_watch inv once hw hok
  rw [hcredits, htake, List.map_map, ← href]
  rfl

/-- **What a backfill counts toward a watch** are the payments due to it. -/
theorem mem_creditsOf_backfill {cache : WatchCache} {out : SweepOutcome} {db' : Db} {p : Payment}
    (inv₀ : Sound db₀) (follows : db.Follows db₀) (inv : Sound db)
    (once : (logs.map fun l => (l.blockHash, l.logIndex)).Nodup)
    (hw : db.watches.get? w.id = some w)
    (hok : (applyBackfill db chain cache (pendingBackfills db₀ chain.chainId limit) logs).2 =
      .ok (out, db')) :
    ⟨w.id, p.logId chain.chainId, p.units⟩ ∈ creditsOf db
        (.applyBackfill chain cache (pendingBackfills db₀ chain.chainId limit) logs) ↔
      ∃ q ∈ db.backfillDue chain (pendingBackfills db₀ chain.chainId limit) logs w,
        q.logId chain.chainId = p.logId chain.chainId ∧ q.units = p.units := by
  have hlist := creditsOf_backfill inv₀ follows inv once hw hok
  have hmem : ∀ cs : List Credit, ⟨w.id, p.logId chain.chainId, p.units⟩ ∈ cs ↔
      ⟨w.id, p.logId chain.chainId, p.units⟩ ∈ cs.filter fun c => c.watchId = w.id := by simp
  rw [hmem, hlist, List.mem_map]
  simp only [Credit.mk.injEq, true_and]

/-- What a payment that is not counted yet needs for its backfill: a row that
is missing or pending, or an earlier payment that reached the threshold. -/
theorem counted_or_reached_iff {upTo : Nat} {p : Payment} {pre post : List Payment}
    (hsplit : uncounted db chain logs w upTo = pre ++ p :: post) :
    ((∃ q ∈ fill Payment.units w.threshold w.confirmedAmount (countable db chain logs w upTo),
        q.logId chain.chainId = p.logId chain.chainId ∧ q.units = p.units) ∨
      w.threshold ≤ w.confirmedAmount + total Payment.units pre) ↔
    (db.Refused (p.logId chain.chainId) →
      w.threshold ≤ w.confirmedAmount + total Payment.units pre) := by
  have hp : ¬ db.Confirmed (p.logId chain.chainId) := by
    have hmem : p ∈ uncounted db chain logs w upTo := by rw [hsplit]; simp
    simpa using (List.mem_filter.mp hmem).2
  rw [← not_countable_iff hp]
  constructor
  · rintro (⟨q, hq, hlog, -⟩ | hreached) hnot
    · -- what is counted had a countable row
      have hcountable := (List.mem_filter.mp ((isPrefix_fill _ _ _).subset hq)).2
      rw [hlog] at hcountable
      exact absurd (of_decide_eq_true hcountable) hnot
    · exact hreached
  · intro h
    by_cases hcountable : db.Countable (p.logId chain.chainId)
    · rw [← filter_countable_uncounted, hsplit, List.filter_append,
        List.filter_cons_of_pos (by simpa using hcountable)]
      rcases mem_fill_or_le w.threshold w.confirmedAmount
        (pre.filter fun p => db.Countable (p.logId chain.chainId)) p
        (post.filter fun p => db.Countable (p.logId chain.chainId)) with hmem | hle
      · exact .inl ⟨p, hmem, rfl, rfl⟩
      · have hpre : total Payment.units (pre.filter fun p => db.Countable (p.logId chain.chainId)) ≤
            total Payment.units pre := total_filter_le _ pre
        exact .inr (hle.trans (Nat.add_le_add_left hpre _))
    · exact .inr (h hcountable)

end Counted

/-- **When a backfill loses nothing**: the totals and the volumes have room for
what it counts, the watch is the latest of its target in the batch (or nothing
is left for it), and every payment to it in its range whose row an earlier watch
or a late notification left ignored or orphaned comes after payments that reach
the threshold anyway.  The batch may have been read before other operations. -/
theorem backfill_complete_iff (chain : ChainSpec) (cache : WatchCache) (ops later : List Op)
    (limit : Nat) (logs : List Log) (w : Watch) (upTo : Nat)
    (once : (logs.map fun l => (l.blockHash, l.logIndex)).Nodup)
    (hw : w ∈ (run exec (run exec Db.empty ops) later).watches.rows) (active : w.status = .active)
    (pending : w.backfillTo = some upTo)
    (listed : w.id ∈
      (pendingBackfills (run exec Db.empty ops) chain.chainId limit).map PendingBackfill.id) :
    let db := run exec (run exec Db.empty ops) later
    let batch := pendingBackfills (run exec Db.empty ops) chain.chainId limit
    BackfillComplete db chain cache batch logs w upTo ↔
      db.RoomFor chain batch logs ∧
        (db.VolumeFits chain.chainId fun u => total Payment.units (db.backfillDue chain batch logs u)) ∧
        (uncounted db chain logs w upTo ≠ [] → w.Latest batch) ∧
        ∀ pre p post, uncounted db chain logs w upTo = pre ++ p :: post →
          db.Refused (p.logId chain.chainId) →
          w.threshold ≤ w.confirmedAmount + total Payment.units pre := by
  intro db batch
  have inv₀ : Sound (run exec Db.empty ops) := sound_run ops
  have hrun : run exec Db.empty (ops ++ later) = db := run_append _ _ _
  have inv : Sound db := hrun ▸ sound_run (ops ++ later)
  have events : EventLogs db := hrun ▸ eventLogs_run (ops ++ later)
  have capped : db.Capped := hrun ▸ capped_run (ops ++ later)
  have follows : db.Follows (run exec Db.empty ops) := follows_run _ later
  have hget : db.watches.get? w.id = some w := Table.get?_of_mem hw
  obtain ⟨b, hb, hid⟩ := List.mem_map.mp listed
  have hupTo : b.backfillTo = upTo := by
    obtain ⟨w₀, -, hlater, -, -, hto, -⟩ := listed_before follows hget active hb hid
    exact Option.some.inj (hto.symm.trans (hlater.backfillTo upTo pending))
  have hdue : db.backfillDue chain batch logs w = _ := backfillDue_of_listed hb hid active
  rw [hupTo] at hdue
  have hcommits : (∃ out db', (applyBackfill db chain cache batch logs).2 = .ok (out, db')) ↔ _ :=
    backfill_commits_iff inv₀ follows inv events capped once
  constructor
  · intro complete
    obtain ⟨hroom, hfits⟩ := hcommits.mp complete.commits
    obtain ⟨out, db', hok⟩ := complete.commits
    have hmem : ∀ {p : Payment}, _ ↔ _ := fun {p} =>
      mem_creditsOf_backfill (p := p) inv₀ follows inv once hget hok
    have hlatest : uncounted db chain logs w upTo ≠ [] → w.Latest batch := by
      intro hne
      obtain ⟨p, post, hsplit⟩ := List.exists_cons_of_ne_nil hne
      rcases complete.counted [] p post hsplit with hcounted | hreached
      · obtain ⟨q, hq, -⟩ := hmem.mp hcounted
        by_contra hnot
        rw [hdue, if_neg hnot] at hq
        exact absurd hq List.not_mem_nil
      · -- an active watch is short of its threshold
        have hshort := inv.short w.id w hget active
        rw [total_nil] at hreached
        omega
    refine ⟨hroom, hfits, hlatest, fun pre p post hsplit => ?_⟩
    have latest := hlatest (by rw [hsplit]; simp)
    refine (counted_or_reached_iff hsplit).mp ((complete.counted pre p post hsplit).imp_left fun h => ?_)
    rw [if_pos latest] at hdue
    rw [← hdue]
    exact hmem.mp h
  · rintro ⟨room, fits, hlatest, lost⟩
    have hdone := hcommits.mpr ⟨room, fits⟩
    refine ⟨hdone, fun pre p post hsplit => ?_, fun out db' hok m hm => ?_⟩
    · obtain ⟨out, db', hok⟩ := hdone
      have latest := hlatest (by rw [hsplit]; simp)
      refine ((counted_or_reached_iff hsplit).mpr (lost pre p post hsplit)).imp_left fun h => ?_
      rw [if_pos latest] at hdue
      rw [← hdue] at h
      exact (mem_creditsOf_backfill inv₀ follows inv once hget hok).mpr h
    · obtain ⟨tx, htx, hconfirmed⟩ := applyBackfill_confirmed hok
      obtain ⟨cs, hcs, hout, -⟩ := countAll_trace htx
      rw [hconfirmed, hout] at hm
      exact backfillMatches_within (hcs.mem hm)

/-- Order a watch once block 105 is the head, with ten blocks of lookback. -/
def lateOrder : NewWatch := { watchOrder with headEstimate := 105, lookbackBlocks := 10 }

/-- A watch is cancelled before the payment of block 103 is swept, after the
head path announced what it `heard`, and its target is ordered again. -/
def reusedTarget (heard : List MatchedTransfer) : List Op :=
  [.ensureCursor baseChain.chainId 100, .createWatch 1 watchOrder] ++
    heard.map (.recordPending baseChain) ++
    [.cancelWatch 1,
      .applySweep baseChain .new 100 105 (lonePayment.getLogs (sweepFilter baseChain 101 105)),
      .createWatch 2 lateOrder]

/-- What the head path hears about the payment of block 103. -/
def heardByFirst : MatchedTransfer where
  watch := ⟨1, 1, 101⟩
  tokenIdx := 0
  src := 7
  dst := 9
  amount := 40
  blockNumber := 103
  blockHash := 103
  txHash := BitVec.ofNat 256 (2 ^ 64 * 103)
  logIndex := 0
  removed := false

/-- The filter for the transfers to a watch up to `upTo`. -/
def Watch.transferFilter (w : Watch) (chain : ChainSpec) (upTo : Nat) : Filter :=
  { sweepFilter chain w.startBlock upTo with topic2 := [intoWord w.paymentAddress] }

/-- Without an announcement, the backfill counts the payment. -/
theorem backfill_complete_unannounced :
    BackfillComplete (run exec Db.empty (reusedTarget [])) baseChain .new
        (pendingBackfills (run exec Db.empty (reusedTarget [])) baseChain.chainId 50)
        (lonePayment.getLogs ((lateOrder.row 2 2 105 0).transferFilter baseChain 105))
        (lateOrder.row 2 2 105 0) 105 ∧
      (uncounted (run exec Db.empty (reusedTarget [])) baseChain
        (lonePayment.getLogs ((lateOrder.row 2 2 105 0).transferFilter baseChain 105))
        (lateOrder.row 2 2 105 0) 105).map Payment.units = [40] := by
  have hbatch : pendingBackfills (run exec Db.empty (reusedTarget [])) baseChain.chainId 50 =
      [(lateOrder.row 2 2 105 0).pendingBackfill 105] := by decide +kernel
  have hget : (run exec Db.empty (reusedTarget [])).watches.get? 2 = some (lateOrder.row 2 2 105 0) := by
    decide +kernel
  have hrows : (run exec Db.empty (reusedTarget [])).transfers.rows = [] := by decide +kernel
  refine ⟨(backfill_complete_iff baseChain .new (reusedTarget []) [] 50
    (lonePayment.getLogs ((lateOrder.row 2 2 105 0).transferFilter baseChain 105))
    (lateOrder.row 2 2 105 0) 105 (lonePayment.once_getLogs _) (Table.mem_of_get? hget) rfl rfl
    (by rw [hbatch]; exact List.mem_singleton_self _)).mpr ⟨?_, by decide +kernel,
      fun _ => by decide +kernel, ?_⟩, by decide +kernel⟩
  · intro b hb u hu active _
    rw [run_nil] at hu ⊢
    rw [hbatch, List.mem_singleton] at hb
    subst hb
    obtain rfl : lateOrder.row 2 2 105 0 = u := Option.some.inj (hget.symm.trans hu)
    exact (stays_iff (by decide)).mpr (by decide +kernel)
  · rintro pre p post - (⟨t, ht, -⟩ | ⟨t, ht, -⟩)
    · exact absurd (Table.mem_of_get? ht) (by rw [run_nil, hrows]; exact List.not_mem_nil)
    · exact absurd (Table.mem_of_get? ht) (by rw [run_nil, hrows]; exact List.not_mem_nil)

/-- With one, the sweep after the cancellation left the row `ignored`.  The new
watch covers block 103 by its backfill, but the payment is never counted. -/
theorem announced_payment_lost :
    ∃ (chain : ChainSpec) (canon : Canon) (ops : List Op) (w : Watch) (upTo : Nat),
      w ∈ (run exec Db.empty ops).watches.rows ∧ w.status = .active ∧ w.backfillTo = some upTo ∧
      w.id ∈ (pendingBackfills (run exec Db.empty ops) chain.chainId 50).map PendingBackfill.id ∧
      ¬ BackfillComplete (run exec Db.empty ops) chain .new
        (pendingBackfills (run exec Db.empty ops) chain.chainId 50)
        (canon.getLogs (w.transferFilter chain upTo)) w upTo := by
  refine ⟨baseChain, lonePayment, reusedTarget [heardByFirst], lateOrder.row 2 2 105 0, 105,
    by decide +kernel, rfl, rfl, by decide +kernel, fun complete => ?_⟩
  have hcredits : creditsOf (run exec Db.empty (reusedTarget [heardByFirst])) (.applyBackfill baseChain
      .new (pendingBackfills (run exec Db.empty (reusedTarget [heardByFirst])) baseChain.chainId 50)
      (lonePayment.getLogs ((lateOrder.row 2 2 105 0).transferFilter baseChain 105))) = [] := by
    decide +kernel
  have hone : (uncounted (run exec Db.empty (reusedTarget [heardByFirst])) baseChain
      (lonePayment.getLogs ((lateOrder.row 2 2 105 0).transferFilter baseChain 105))
      (lateOrder.row 2 2 105 0) 105).length = 1 := by decide +kernel
  obtain ⟨p, hp⟩ := List.length_eq_one_iff.mp hone
  rcases complete.counted [] p [] hp with hcounted | hreached
  · exact absurd hcounted (by rw [hcredits]; exact List.not_mem_nil)
  · exact absurd hreached (by decide)

end GumIndexer
