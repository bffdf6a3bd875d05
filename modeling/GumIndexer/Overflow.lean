import GumIndexer.Replay

/-!
# GumIndexer.Overflow

Can a log wedge a chain?

A total is a `NUMERIC(78, 0)` while it is added to and a `uint256` when it is
read back, so a counting transaction fails if a payment carries the total of
its watch to `2 ^ 256`; and the volume of a token is a `NUMERIC(78, 0)` over all
its watches, so it fails if that would reach `10 ^ 78`.  Since nothing is
written, it fails again on every retry.  Nothing else makes it fail: the amounts
on record are `uint256` values (`Db.Readable`), so the leftovers can always be
resolved (`resolveAll_total`).  `sweep_advances_iff` is the exact condition.
-/

namespace GumIndexer

open Base

variable {db db' : Db} {chain : ChainSpec} {a : Act}

/-! ## Resolving never fails -/

/-- The amount of every transfer on record is a `uint256`. -/
def Db.Readable (db : Db) : Prop := ∀ log t, db.transfers.get? log = some t → t.amount < 2 ^ 256

/-- A step writes amounts of 256 bits only. -/
theorem Db.Readable.step (h : Step db a db') (inv : db.Readable) : db'.Readable := by
  intro log t ht
  rcases h.writes ht with hold | hw
  · exact inv log t hold
  · cases hw with
    | @announce _ m _ _ _ _ => exact m.amount.isLt
    | @insert _ m _ _ _ => exact m.amount.isLt
    | @confirm _ _ u found _ => exact inv _ u found
    | @ignore u found _ => exact inv _ u found
    | @orphan u found _ => exact inv _ u found

/-- So every row of a reachable database can be read. -/
theorem readable_run (ops : List Op) : (run exec Db.empty ops).Readable :=
  reachable_invariant Db.Readable (fun _ _ _ => Db.Readable.step)
    (fun log t ht => by simp [Db.empty] at ht) ops

/-- What makes the reads and event numbers of a transaction succeed. -/
structure Db.Healthy (db : Db) : Prop where
  sound : Sound db
  events : EventLogs db
  readable : db.Readable

/-- A step keeps the database healthy. -/
theorem Db.Healthy.step (h : Step db a db') (inv : db.Healthy) : db'.Healthy :=
  ⟨inv.sound.step h, inv.events.step h, inv.readable.step h⟩

/-- Every reachable database is healthy. -/
theorem healthy_run (ops : List Op) : (run exec Db.empty ops).Healthy :=
  ⟨sound_run ops, eventLogs_run ops, readable_run ops⟩

/-- **The leftovers can always be resolved.** -/
theorem resolveAll_total {tx : SweepTx} {ts : List Transfer} (canonical : List (B256 × Nat))
    (inv : tx.db.Healthy) (hts : tx.db.transfers.Lists (Leftover chain.chainId) ts) :
    ∃ tx', ts.foldlM (resolveLeftover chain canonical) tx = .ok tx' := by
  cases h : ts.foldlM (resolveLeftover chain canonical) tx with
  | ok tx' => exact ⟨tx', rfl⟩
  | error e =>
      obtain ⟨t, rest, tx₁, ⟨hinv, hlist⟩, ht⟩ := foldlM_error
        (fun rest tx => tx.db.Healthy ∧ tx.db.transfers.Lists (Leftover chain.chainId) rest)
        (fun t rest s s' hs hok => by
          obtain ⟨hst, hrest, -⟩ := resolveLeftover_ok hs.2 hok
          exact ⟨hs.1.step hst, hrest⟩) ⟨inv, hts⟩ h
      have found := hlist.found t List.mem_cons_self
      rcases resolveLeftover_cases chain canonical found (hlist.sat t List.mem_cons_self) with
        ⟨tx', ho, -⟩ | ⟨hover | ⟨w, hw, hfits⟩, -⟩ | ⟨w, hw, htaken, -⟩
      · rw [ho] at ht
        contradiction
      · exact absurd (hinv.readable _ t found) (Nat.not_lt_of_le hover)
      · exact absurd (hinv.sound.fits _ w hw) hfits
      · exact absurd htaken (hinv.events.log _ w hw).seq_free

/-! ## Counting fails on overflow only -/

/-- Counting the matches, in order and each once, carries the total of no
active watch to `2 ^ 256` before or when its threshold is reached. -/
def Db.Holds (db : Db) (chainId : Nat) (ms : List MatchedTransfer) : Prop :=
  ∀ w ∈ db.watches.rows, w.status = .active →
    Stays MatchedTransfer.units (2 ^ 256) w.threshold w.confirmedAmount
      (db.share chainId w.id ms.eraseDups)

/-- Different logs have different identities. -/
def Identified (logs : List Log) : Prop :=
  ∀ l ∈ logs, ∀ l' ∈ logs, l.removed = false → l'.removed = false → ∀ hash index,
    l.blockHash = some hash → l'.blockHash = some hash →
    l.logIndex = some index → l'.logIndex = some index → l = l'

variable {cache : WatchCache} {logs : List Log}

/-- Matches with one identity are one match. -/
theorem Identified.inj {m m' : MatchedTransfer} (h : Identified logs)
    (hm : m ∈ matchedOf chain cache logs) (hm' : m' ∈ matchedOf chain cache logs)
    (heq : m.logId chain.chainId = m'.logId chain.chainId) : m = m' := by
  obtain ⟨l, hl, hr, hmatch⟩ := mem_matchedOf_log.mp hm
  obtain ⟨l', hl', hr', hmatch'⟩ := mem_matchedOf_log.mp hm'
  obtain ⟨-, hh, hi⟩ := matchLog_place hmatch
  obtain ⟨-, hh', hi'⟩ := matchLog_place hmatch'
  simp only [MatchedTransfer.logId, LogId.mk.injEq, true_and] at heq
  obtain rfl := h l hl l' hl' hr hr' m.blockHash m.logIndex hh (heq.1 ▸ hh') hi (heq.2 ▸ hi')
  exact Option.some.inj (hmatch.symm.trans hmatch')

/-- Without the repetitions, different matches are of different logs. -/
theorem nodup_eraseDups_logId {ms : List MatchedTransfer}
    (inj : ∀ m ∈ ms, ∀ m' ∈ ms, m.logId chain.chainId = m'.logId chain.chainId → m = m') :
    (ms.eraseDups.map (·.logId chain.chainId)).Nodup :=
  List.Nodup.map_on (fun m hm m' hm' =>
    inj m (List.mem_eraseDups.mp hm) m' (List.mem_eraseDups.mp hm')) (nodup_eraseDups ms)

/-- The loop succeeds exactly if every total stays a `uint256`. -/
theorem countAll_ok_iff_holds (tx : SweepTx) (ms : List MatchedTransfer) (inv : tx.db.Healthy)
    (inj : ∀ m ∈ ms, ∀ m' ∈ ms, m.logId chain.chainId = m'.logId chain.chainId → m = m') :
    (∃ tx', ms.foldlM (countConfirmed chain) tx = .ok tx') ↔ tx.db.Holds chain.chainId ms := by
  rw [(absorbs_countConfirmed chain).foldlM_eraseDups ms ⟨inv.sound, inv.events⟩,
    countAll_ok_iff inv.sound inv.events (nodup_eraseDups_logId inj)]
  constructor
  · intro h w hw ha
    have found := Table.get?_of_mem hw
    have hlt := h w found
    rw [SweepTx.reaches, Watch.take_of_active ha] at hlt
    exact (stays_iff (inv.sound.fits _ w found).2).mpr hlt
  · intro h w found
    have hfits := (inv.sound.fits _ w found).2
    unfold SweepTx.reaches
    by_cases ha : w.status = .active
    · rw [Watch.take_of_active ha]
      exact (stays_iff hfits).mp (h w (Table.mem_of_get? found) ha)
    · rw [Watch.take_of_inactive ha]
      exact hfits

/-- A sweep's transaction fails only while it counts. -/
theorem sweepTx_ok_iff_counts {discovered : List WatchKey} {toBlock : Nat} (inv : db.Healthy) :
    (∃ tx, sweepTx db chain cache discovered toBlock logs = .ok tx) ↔
      ∃ tx, (sweepMatches chain cache logs).foldlM (countConfirmed chain)
        { db, out := { discovered } } = .ok tx := by
  unfold sweepTx
  cases hc : (sweepMatches chain cache logs).foldlM (countConfirmed chain)
      { db, out := { discovered } } with
  | error e => simp [bind, Except.bind]
  | ok tx =>
      refine iff_of_true ?_ ⟨tx, rfl⟩
      obtain ⟨cs, -, -, htr⟩ := countAll_trace hc
      exact resolveAll_total _ (htr.invariant Db.Healthy (fun _ _ _ => Db.Healthy.step) inv)
        (lists_leftovers _ _ _)

/-- **The transaction of a sweep succeeds exactly if every total holds.** -/
theorem sweepTx_ok_iff {discovered : List WatchKey} {toBlock : Nat} (inv : db.Healthy)
    (identified : Identified logs) :
    (∃ tx, sweepTx db chain cache discovered toBlock logs = .ok tx) ↔
      db.Holds chain.chainId (sweepMatches chain cache logs) :=
  (sweepTx_ok_iff_counts inv).trans
    (countAll_ok_iff_holds { db, out := { discovered } } (sweepMatches chain cache logs) inv
      fun _ hm _ hm' => identified.inj (mem_sweepMatches.mp hm) (mem_sweepMatches.mp hm'))

/-- The same for the transaction of a backfill. -/
theorem backfillTx_ok_iff {batch : List PendingBackfill} (inv : db.Healthy)
    (identified : Identified logs) :
    (∃ tx, backfillTx db chain batch logs = .ok tx) ↔
      db.Holds chain.chainId (backfillMatches chain batch logs) := by
  have hcount := countAll_ok_iff_holds { db } (backfillMatches chain batch logs)
    inv fun m hm m' hm' => identified.inj (mem_backfillMatches.mp hm).1 (mem_backfillMatches.mp hm').1
  rw [← hcount]
  unfold backfillTx
  cases (backfillMatches chain batch logs).foldlM (countConfirmed chain) { db } with
  | error e => simp [bind, Except.bind]
  | ok tx => exact iff_of_true ⟨_, rfl⟩ ⟨tx, rfl⟩

/-- What the loop counts, each match once, decides whether the statistics can
be written. -/
theorem flush_ok_iff_fits {discovered : List WatchKey} {ms : List MatchedTransfer} {mid tx : SweepTx}
    (inv : db.Healthy) (capped : db.Capped)
    (inj : ∀ m ∈ ms, ∀ m' ∈ ms, m.logId chain.chainId = m'.logId chain.chainId → m = m')
    (h : ms.foldlM (countConfirmed chain) { db, out := { discovered } } = .ok mid)
    (volumes : Volumes db tx) (hconfirmed : tx.out.confirmed = mid.out.confirmed)
    (hstats : tx.db.stats = db.stats) :
    (∃ db', flushStats chain tx = .ok db') ↔
      db.VolumeFits chain.chainId (db.gains chain.chainId ms.eraseDups) := by
  rw [(absorbs_countConfirmed chain).foldlM_eraseDups ms ⟨inv.sound, inv.events⟩] at h
  exact flush_ok_iff inv.sound capped (nodup_eraseDups_logId inj) h volumes hconfirmed hstats

/-- The statistics of a sweep are flushed exactly if the volume fits. -/
theorem flush_sweepTx_iff {discovered : List WatchKey} {toBlock : Nat} {tx : SweepTx}
    (inv : db.Healthy) (capped : db.Capped) (identified : Identified logs)
    (htx : sweepTx db chain cache discovered toBlock logs = .ok tx) :
    (∃ db', flushStats chain tx = .ok db') ↔ db.VolumeFits chain.chainId
      (db.gains chain.chainId (sweepMatches chain cache logs).eraseDups) := by
  obtain ⟨mid, hcount, hresolve⟩ := sweepTx_phases htx
  obtain ⟨-, hconfirmed, -⟩ := resolveAll_trace (lists_leftovers _ _ _) hresolve
  exact flush_ok_iff_fits inv capped
    (fun _ hm _ hm' => identified.inj (mem_sweepMatches.mp hm) (mem_sweepMatches.mp hm')) hcount
    (sweepTx_volumes htx) hconfirmed (sweepTx_stats htx)

/-- The same for the statistics of a backfill. -/
theorem flush_backfillTx_iff {batch : List PendingBackfill} {tx : SweepTx} (inv : db.Healthy)
    (capped : db.Capped) (identified : Identified logs)
    (htx : backfillTx db chain batch logs = .ok tx) :
    (∃ db', flushStats chain tx = .ok db') ↔ db.VolumeFits chain.chainId
      (db.gains chain.chainId (backfillMatches chain batch logs).eraseDups) := by
  obtain ⟨mid, hcount, hmid⟩ := backfillTx_ok htx
  exact flush_ok_iff_fits inv capped
    (fun _ hm _ hm' => identified.inj (mem_backfillMatches.mp hm).1 (mem_backfillMatches.mp hm').1)
    hcount (backfillTx_volumes htx) (by rw [hmid]) (backfillTx_stats htx)

/-- **When a sweep moves the cursor**: the totals and the volume have to fit. -/
theorem sweep_commits_iff {cursor toBlock : Nat} (inv : db.Healthy) (capped : db.Capped)
    (identified : Identified logs) (hat : db.CursorAt chain.chainId cursor) :
    (∃ out db', (applySweep db chain cache cursor toBlock logs).2 = .ok (.applied out, db') ∧
        db'.CursorAt chain.chainId toBlock) ↔
      db.Holds chain.chainId (sweepMatches chain (deltaLoad db chain cache).1 logs) ∧
        db.VolumeFits chain.chainId (db.gains chain.chainId
          (sweepMatches chain (deltaLoad db chain cache).1 logs).eraseDups) := by
  have hcounts : (∃ tx, sweepTx db chain (deltaLoad db chain cache).1 (deltaLoad db chain cache).2
      toBlock logs = .ok tx) ↔ _ := sweepTx_ok_iff inv identified
  rw [← hcounts]
  constructor
  · rintro ⟨out, db', happly, -⟩
    obtain ⟨tx, db₁, -, htx, hflush, -, -⟩ := applySweep_applied happly
    exact ⟨⟨tx, htx⟩, (flush_sweepTx_iff inv capped identified htx).mp ⟨db₁, hflush⟩⟩
  · rintro ⟨⟨tx, htx⟩, hfits⟩
    obtain ⟨db₁, hflush⟩ := (flush_sweepTx_iff inv capped identified htx).mpr hfits
    rw [applySweep_of_ok hat htx hflush]
    exact ⟨_, _, rfl, Db.cursorAt_setCursor (sweepTx_cursorAt htx hflush hat) toBlock⟩

/-- **When a backfill commits**, likewise. -/
theorem applyBackfill_commits_iff {batch : List PendingBackfill} (inv : db.Healthy) (capped : db.Capped)
    (identified : Identified logs) :
    (∃ out db', (applyBackfill db chain cache batch logs).2 = .ok (out, db')) ↔
      db.Holds chain.chainId (backfillMatches chain batch logs) ∧
        db.VolumeFits chain.chainId
          (db.gains chain.chainId (backfillMatches chain batch logs).eraseDups) := by
  rw [applyBackfill_ok_iff, ← backfillTx_ok_iff inv identified]
  constructor
  · rintro ⟨tx, htx, hflush⟩
    exact ⟨⟨tx, htx⟩, (flush_backfillTx_iff inv capped identified htx).mp hflush⟩
  · rintro ⟨⟨tx, htx⟩, hfits⟩
    exact ⟨tx, htx, (flush_backfillTx_iff inv capped identified htx).mpr hfits⟩

/-- **When a chain is wedged.**  In every reachable state, a sweep from the
cursor over well-formed logs commits and moves the cursor to its upper end if
and only if no payment it is to count carries the total of its watch to
`2 ^ 256`, and what it is to count carries the volume of no token to `10 ^ 78`;
and a backfill commits under the same condition. -/
theorem sweep_advances_iff (ops : List Op) (chain : ChainSpec) (cache : WatchCache)
    (logs : List Log) (identified : Identified logs) :
    let db := run exec Db.empty ops
    (∀ cursor toBlock, db.CursorAt chain.chainId cursor →
      ((∃ out db', (applySweep db chain cache cursor toBlock logs).2 = .ok (.applied out, db') ∧
          db'.CursorAt chain.chainId toBlock) ↔
        db.Holds chain.chainId (sweepMatches chain (deltaLoad db chain cache).1 logs) ∧
          db.VolumeFits chain.chainId (db.gains chain.chainId
            (sweepMatches chain (deltaLoad db chain cache).1 logs).eraseDups))) ∧
      ∀ batch, (∃ out db', (applyBackfill db chain cache batch logs).2 = .ok (out, db')) ↔
        db.Holds chain.chainId (backfillMatches chain batch logs) ∧
          db.VolumeFits chain.chainId
            (db.gains chain.chainId (backfillMatches chain batch logs).eraseDups) :=
  ⟨fun _ _ hat => sweep_commits_iff (healthy_run ops) (capped_run ops) identified hat,
    fun _ => applyBackfill_commits_iff (healthy_run ops) (capped_run ops) identified⟩

/-- A watch for `2 ^ 256 - 1` base units, the largest threshold there is. -/
def hugeWatch : List Op :=
  [.ensureCursor baseChain.chainId 100,
    .createWatch 1 { watchOrder with threshold := BitVec.ofNat 256 (2 ^ 256 - 1) }]

/-- A payment that leaves the threshold open by one unit, and one of two
units. -/
def hugePayments : List Log := [transferLog 7 9 (2 ^ 256 - 2) 101 0, transferLog 7 9 2 102 0]

/-- The first payment alone is no obstacle. -/
theorem sweep_advances_iff_first :
    ∃ out db', (applySweep (run exec Db.empty hugeWatch) baseChain .new 100 101
        [transferLog 7 9 (2 ^ 256 - 2) 101 0]).2 = .ok (.applied out, db') ∧
      db'.CursorAt baseChain.chainId 101 := by
  have identified : Identified [transferLog 7 9 (2 ^ 256 - 2) 101 0] := by
    intro l hl l' hl' _ _ _ _ _ _ _ _
    rw [List.mem_singleton.mp hl, List.mem_singleton.mp hl']
  refine ((sweep_advances_iff hugeWatch baseChain .new _ identified).1 100 101
    (by decide +kernel)).mpr ⟨fun w hw _ => ?_, by decide +kernel⟩
  have hlt : ∀ w ∈ (run exec Db.empty hugeWatch).watches.rows, w.confirmedAmount < 2 ^ 256 ∧
      w.confirmedAmount + total MatchedTransfer.units (fill MatchedTransfer.units w.threshold
        w.confirmedAmount ((run exec Db.empty hugeWatch).share baseChain.chainId w.id
          (sweepMatches baseChain (deltaLoad (run exec Db.empty hugeWatch) baseChain .new).1
            [transferLog 7 9 (2 ^ 256 - 2) 101 0]).eraseDups)) < 2 ^ 256 := by
    decide +kernel
  exact (stays_iff (hlt w hw).1).mpr (hlt w hw).2

/-- The two payments wedge the chain: the sweep over them fails as corrupt,
and however often it is tried again the cursor stays where it is. -/
theorem huge_payments_wedge :
    execError (run exec Db.empty hugeWatch) (.applySweep baseChain .new 100 102 hugePayments) =
        some (.corrupt ⟨2 ^ 256, 0⟩) ∧
      ∀ n, (run exec Db.empty (hugeWatch ++
          List.replicate n (.applySweep baseChain .new 100 102 hugePayments))).CursorAt
        baseChain.chainId 100 := by
  have herror : execError (run exec Db.empty hugeWatch)
      (.applySweep baseChain .new 100 102 hugePayments) = some (.corrupt ⟨2 ^ 256, 0⟩) := by
    decide +kernel
  refine ⟨herror, fun n => ?_⟩
  have hidle : exec (run exec Db.empty hugeWatch) (.applySweep baseChain .new 100 102 hugePayments) =
      run exec Db.empty hugeWatch := by
    unfold exec
    exact committed_of_failure herror
  have hretry : run exec (run exec Db.empty hugeWatch)
      (List.replicate n (.applySweep baseChain .new 100 102 hugePayments)) =
        run exec Db.empty hugeWatch := by
    induction n with
    | zero => rfl
    | succ n ih => rw [List.replicate_succ, run_cons, hidle, ih]
  rw [run_append, hretry]
  decide +kernel

end GumIndexer
