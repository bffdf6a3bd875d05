import GumIndexer.Stats

/-!
# GumIndexer.Reconcile

The statistics of a token over whole runs.

Every operation moves the statistics of a token and the measures of its watches
by the same amounts (`exec_balance`), and so does the commit of a sweep if the
rows that it settles are what they were when it read them (`finish_balance`).
So in every state that such runs reach they agree (`stats_reconcile`).  A sweep
that settles a row which a backfill has confirmed meanwhile takes away a confirmed
transfer that stays counted (`settled_twice_drifts`).

Two things are needed of the world outside the store.  A cache entry is that of
a watch of the chain, and a log, which is identified by the hash of its block
and its index, is always reported as one of the same token (`Op.Wired`):
otherwise a transfer announced to a watch of one token could be confirmed for a
watch of another.  And the volume of one transaction is a `U256` that wraps, so
what a transaction counts for a token has to stay below `2^256` (`Op.Summed`).
-/

namespace GumIndexer

open Base

variable {db db' : Db} {chain : ChainSpec} {a : Act} {op : Op} {on : Uuid → Bool} {s : Stat}
  {tokenOf : LogId → Address} {c : Nat} {token : Address}

/-! ## Statistics and measures -/

/-- What the statistics say a measure is. -/
def StatsRollup.get (r : StatsRollup) : Stat → Nat
  | .confirmed => r.confirmedCount
  | .counted => r.confirmedCount
  | .volume => r.confirmedVolume
  | .thresholds => r.thresholdsReached
  | .orphaned => r.orphanedCount

/-- A delta raises every measure by what it holds, as long as the volume does
not wrap. -/
theorem StatsDelta.Holds.plus {d : StatsDelta} {n : Stat → Nat} (h : d.Holds n)
    (hvolume : n .volume < 2 ^ 256) (r : StatsRollup) (s : Stat) :
    (r.plus d).get s = r.get s + n s := by
  cases s with
  | confirmed => exact congrArg (r.confirmedCount + ·) h.confirmed
  | counted => exact congrArg (r.confirmedCount + ·) h.counted
  | volume =>
      change r.confirmedVolume + d.volume.toNat = r.confirmedVolume + n .volume
      rw [h.volume, BitVec.toNat_ofNat, Nat.mod_eq_of_lt hvolume]
  | thresholds => exact congrArg (r.thresholdsReached + ·) h.thresholds
  | orphaned => exact congrArg (r.orphanedCount + ·) h.orphaned

/-- Statistics and measures moved by the same amounts. -/
def Balances (on : Uuid → Bool) (c : Nat) (token : Address) (db db' : Db) : Prop :=
  ∀ s, (db'.rollup c token).get s + db.measure on s = (db.rollup c token).get s + db'.measure on s

/-- A transaction that ends by flushing what it noted. -/
theorem Accrued.balances {tx : SweepTx} (inv : Accrued chain tokenOf on c token db tx)
    (hstats : tx.db.stats = db.stats) (hsum : tx.counted on < 2 ^ 256)
    (hflush : flushStats chain tx = .ok db') : Balances on c token db db' := by
  intro s
  obtain ⟨n, hn, holds, hvolume⟩ := inv.grown
  have hrollup : db'.rollup c token = (db.rollup c token).plus (tx.noted chain c token) := by
    have htx : tx.db.rollup c token = db.rollup c token := by rw [Db.rollup, hstats, Db.rollup]
    rw [rollup_flush hflush, htx]
    rfl
  have hmeasure : db'.measure on s = tx.db.measure on s := by
    obtain ⟨stats, rfl⟩ := flushStats_frame hflush
    rfl
  rw [hrollup, holds.plus (hvolume ▸ hsum), hmeasure, hn s]
  omega

/-! ## One operation -/

/-- Whatever the operation counts or announces is for a watch of the token its
log is about. -/
def Op.Suited (tokenOf : LogId → Address) (db : Db) (op : Op) : Prop :=
  ∀ a, op.Allows db a → a.Suits tokenOf db

/-- What a transaction counted is what its credits add up to. -/
theorem counted_eq_credits (tx : SweepTx) (chainId : Nat) :
    tx.counted on = total Credit.amount
      ((tx.out.confirmed.map (·.toCredit chainId)).filter fun cr => on cr.watchId) := by
  rw [List.filter_map, total, List.map_map]
  rfl

/-- They move no measure either. -/
theorem exec_measure (hsweep : ∀ chain cache expectedCursor toBlock logs,
      op ≠ .applySweep chain cache expectedCursor toBlock logs)
    (hbackfill : ∀ chain cache batch logs, op ≠ .applyBackfill chain cache batch logs) :
    (exec db op).measure on s = db.measure on s := by
  obtain ⟨acts, htr, -, hallow⟩ := exec_trace db op
  refine htr.invariant_mem (fun d => d.measure on s = db.measure on s)
    (fun d a d' ha hstep hd => (hstep.measure_of_still ?_).trans hd) rfl
  have hall := hallow a ha
  cases a with
  | count chainId m =>
      cases op <;> try contradiction
      · exact absurd rfl (hsweep _ _ _ _ _)
      · exact absurd rfl (hbackfill _ _ _ _)
  | orphan t =>
      cases op <;> try contradiction
      exact absurd rfl (hsweep _ _ _ _ _)
  | _ => trivial

/-- **Every operation moves the statistics of a token and the measures of its
watches alike.** -/
theorem exec_balance (suited : op.Suited tokenOf db) (marks : Marks on c token db)
    (rooted : Rooted tokenOf db)
    (hsum : total Credit.amount ((creditsOf db op).filter fun cr => on cr.watchId) < 2 ^ 256) :
    Balances on c token db (exec db op) := by
  have hidle : exec db op = db → Balances on c token db (exec db op) := by
    intro h s
    rw [h]
  by_cases hsweep : ∃ chain cache expectedCursor toBlock logs,
      op = .applySweep chain cache expectedCursor toBlock logs
  · obtain ⟨chain, cache, expectedCursor, toBlock, logs, rfl⟩ := hsweep
    rcases applySweep_cases db chain cache expectedCursor toBlock logs with
      ⟨tx, db', -, htx, hflush, he⟩ | ⟨actual, -, he⟩ | he | ⟨e, -, he⟩
    · simp only [creditsOf, he, ← counted_eq_credits] at hsum
      simp only [exec, he, committed]
      have hbalances : Balances on c token db db' :=
        (sweepTx_accrued marks rooted (fun m hm => suited (.count chain.chainId m) ⟨rfl, hm⟩)
          htx).balances (sweepTx_stats htx) hsum hflush
      exact hbalances
    all_goals exact hidle (by simp only [exec, he, committed])
  · by_cases hbackfill : ∃ chain cache batch logs, op = .applyBackfill chain cache batch logs
    · obtain ⟨chain, cache, batch, logs, rfl⟩ := hbackfill
      rcases applyBackfill_cases db chain cache batch logs with
        ⟨tx, db', htx, hflush, he⟩ | ⟨e, -, he⟩
      · simp only [creditsOf, he, ← counted_eq_credits] at hsum
        simp only [exec, he, committed]
        exact (backfillTx_accrued marks rooted (fun m hm => suited (.count chain.chainId m) ⟨rfl, hm⟩)
          htx).balances (backfillTx_stats htx) hsum hflush
      · exact hidle (by simp only [exec, he, committed])
    · push Not at hsweep hbackfill
      intro s
      rw [exec_measure hsweep hbackfill, Db.rollup, exec_stats hsweep hbackfill, Db.rollup]

/-- **So does the commit of a sweep**, if what it has read is unchanged. -/
theorem finish_balance {o : OpenSweep}
    (suits : ∀ m ∈ o.counted, Act.Suits tokenOf db (.count o.chain.chainId m))
    (marks : Marks on c token db) (rooted : Rooted tokenOf db)
    (undisturbed : ∀ t ∈ o.selected, db.transfers.get? t.key = some t)
    (hsum : total MatchedTransfer.units (o.counted.filter fun m => on m.watch.id) < 2 ^ 256)
    (h : o.finish db = some db') : Balances on c token db db' := by
  obtain ⟨mid, tx, d, hmid, htx, hflush, rfl⟩ := OpenSweep.finish_phases h
  obtain ⟨hcount, hconfirmed⟩ := OpenSweep.recount_eq_some hmid
  have hlists := OpenSweep.lists_selected undisturbed hmid
  obtain ⟨htr, hout, -⟩ := resolveAll_trace hlists htx
  have accrued : Accrued o.chain tokenOf on c token db tx :=
    resolveAll_accrued (countAll_accrued (accrued_start marks rooted o.discovered) suits hcount)
      hlists htx
  have hbalances : Balances on c token db d :=
    accrued.balances (stats_of_sweep ((OpenSweep.recount_trace hmid).2.2.append htr))
      (by rw [SweepTx.counted, hout, hconfirmed]; exact hsum) hflush
  exact fun s => hbalances s

/-- A suited operation keeps every row with a watch of its token. -/
theorem Rooted.exec (suited : op.Suited tokenOf db) (inv : Rooted tokenOf db) :
    Rooted tokenOf (exec db op) := by
  obtain ⟨acts, htr, -, hallow⟩ := exec_trace db op
  refine (htr.invariant_mem (fun d => Rooted tokenOf d ∧ ∀ a, op.Allows db a → a.Suits tokenOf d)
    (fun d a d' ha hstep hd => ⟨hd.1.step hstep (hd.2 a (hallow a ha)), fun b hb => ?_⟩)
    ⟨inv, suited⟩).1
  exact Act.Suits.step hstep (hd.2 b hb)

/-! ## What the world outside promises -/

/-- The payments of the logs are of the tokens `tokenOf` gives for them. -/
def Log.Agree (tokenOf : LogId → Address) (chain : ChainSpec) (logs : List Log) : Prop :=
  ∀ l ∈ logs, ∀ p, payment? chain l = some p → p.token.address = tokenOf (p.logId chain.chainId)

/-- Caches hold entries of watches of the chain, and the identity of a log
determines its token. -/
def Op.Wired (tokenOf : LogId → Address) (db : Db) : Op → Prop
  | .recordPending chain m => ∃ (cache : WatchCache) (l : Log), cache.Genuine db chain ∧
      (matchLog chain cache l).toOption = some m ∧ Log.Agree tokenOf chain [l]
  | .applySweep chain cache _ _ logs => cache.Genuine db chain ∧ Log.Agree tokenOf chain logs
  | .applyBackfill chain _ _ logs => Log.Agree tokenOf chain logs
  | _ => True

/-- The watch is of the token of the chain. -/
def Db.onToken (db : Db) (c : Nat) (token : Address) (id : Uuid) : Bool :=
  (db.watches.get? id).any fun w => w.chainId = c ∧ w.tokenAddress = token

/-- What the operation counts toward the watches of a token is below `2^256`. -/
def Op.Summed (db : Db) (op : Op) : Prop :=
  ∀ c token, total Credit.amount
    ((creditsOf db op).filter fun cr => (exec db op).onToken c token cr.watchId) < 2 ^ 256

/-- A payment that an entry of the cache takes is to a watch of its token. -/
theorem WatchCache.Genuine.target {cache : WatchCache} {p : Payment} {l : Log} {ref : WatchRef}
    (genuine : cache.Genuine db chain) (hp : payment? chain l = some p)
    (hget : cache.get p.key = some ref) : db.Target chain.chainId p.token.address ref.id := by
  obtain ⟨w, hw, hchain, hentry⟩ := genuine p.key ref hget
  obtain ⟨token, htoken, heq⟩ := Option.map_eq_some_iff.mp hentry
  obtain ⟨hmem, haddress⟩ := ChainSpec.tokenByAddress_eq_some_iff.mp htoken
  obtain ⟨src, dst, -, -, hptoken, -⟩ := payment?_spec hp
  simp only [Prod.mk.injEq] at heq
  have hidx : token.idx = p.token.idx := congrArg WatchKey.tokenIdx heq.1
  have hsame : token = p.token :=
    ChainSpec.eq_of_idx_eq hmem (ChainSpec.tokenByLogAddress_eq_some_iff.mp hptoken).1 hidx
  refine ⟨w, ?_, hchain, ?_⟩
  · rw [← heq.2]
    exact hw
  · rw [← haddress, hsame]

/-- A genuine entry matches a log to a watch of the token of the log. -/
theorem WatchCache.Genuine.suits {cache : WatchCache} {l : Log} {m : MatchedTransfer}
    (genuine : cache.Genuine db chain)
    (agree : ∀ p, payment? chain l = some p → p.token.address = tokenOf (p.logId chain.chainId))
    (hm : (matchLog chain cache l).toOption = some m) :
    db.Target chain.chainId (tokenOf (m.logId chain.chainId)) m.watch.id := by
  rw [matchLog_toOption] at hm
  obtain ⟨p, hp, hmatch⟩ := Option.bind_eq_some_iff.mp hm
  obtain ⟨ref, hget, -, rfl⟩ := Payment.match?_eq_some_iff.mp hmatch
  have htarget := genuine.target hp hget
  rw [agree p hp] at htarget
  exact htarget

/-- So does every match of a sweep. -/
theorem WatchCache.Genuine.suits_matched {cache : WatchCache} {logs : List Log} {m : MatchedTransfer}
    (genuine : cache.Genuine db chain) (agree : Log.Agree tokenOf chain logs)
    (hm : m ∈ matchedOf chain cache logs) : Act.Suits tokenOf db (.count chain.chainId m) := by
  obtain ⟨l, hl, hmatch⟩ := List.mem_filterMap.mp hm
  exact genuine.suits (agree l (List.mem_filter.mp hl).1) hmatch

/-- What is wired is suited. -/
theorem Op.Wired.suited (wired : op.Wired tokenOf db)
    (hscope : ∀ chain cache batch logs, op = .applyBackfill chain cache batch logs →
      (backfillScope chain batch).cache.Genuine db chain) : op.Suited tokenOf db := by
  intro a hallow
  cases a with
  | announce chainId m =>
      cases op <;> try contradiction
      obtain ⟨rfl, rfl⟩ := hallow
      obtain ⟨cache, l, genuine, hm, agree⟩ := wired
      exact genuine.suits (agree l (List.mem_singleton_self l)) hm
  | count chainId m =>
      cases op <;> try contradiction
      · obtain ⟨rfl, hm⟩ := hallow
        exact wired.1.deltaLoad.suits_matched wired.2 (mem_sweepMatches.mp hm)
      · obtain ⟨rfl, hm⟩ := hallow
        exact (hscope _ _ _ _ rfl).suits_matched wired (mem_backfillMatches.mp hm).1
  | _ => trivial

/-! ## Runs -/

/-- `onToken` marks the watches of a token. -/
theorem marks_onToken (db : Db) (c : Nat) (token : Address) : Marks (db.onToken c token) c token db := by
  intro id w hw
  rw [Db.onToken, hw, Option.any_some]

/-- The watches there were are of the token they were of. -/
theorem onToken_of_get? {acts : List Act} {id : Uuid} {w : Watch} (htr : Trace Step db acts db')
    (hw : db.watches.get? id = some w) : db'.onToken c token id = db.onToken c token id := by
  have hid : w.id = id := Table.key_of_get? hw
  obtain ⟨w', hw', hlater⟩ := htr.invariant (Db.Retains · w) (fun _ _ _ => Db.Retains.step)
    (Db.Retains.of_get? (by rw [hid]; exact hw))
  rw [hid] at hw'
  rw [Db.onToken, hw', Db.onToken, hw, Option.any_some, Option.any_some, hlater.same.chainId,
    hlater.same.tokenAddress]

/-- Unless a watch is registered, the watches of a token stay the same. -/
theorem Trace.onToken_eq {acts : List Act} (htr : Trace Step db acts db')
    (hacts : ∀ a ∈ acts, ∀ w, a ≠ .register w) : db'.onToken c token = db.onToken c token := by
  funext id
  cases hw : db.watches.get? id with
  | some w => exact onToken_of_get? htr hw
  | none => rw [Db.onToken, Trace.no_new_watch htr hacts hw, Db.onToken, hw]

/-- The same for an operation that registers nothing. -/
theorem onToken_eq (hop : ∀ id new, ¬ op.Creates id new) :
    (exec db op).onToken c token = db.onToken c token := by
  obtain ⟨acts, htr, -, hallow⟩ := exec_trace db op
  refine Trace.onToken_eq htr fun a ha w heq => ?_
  obtain ⟨id, new, hcreates⟩ := (heq ▸ hallow a ha : op.Allows db (.register w)).of_register
  exact hop id new hcreates

/-- A measure depends on the watches that exist. -/
theorem measure_congr {on' : Uuid → Bool} (logs : EventLogs db) (rooted : Rooted tokenOf db)
    (h : ∀ id w, db.watches.get? id = some w → on id = on' id) :
    db.measure on s = db.measure on' s := by
  have hwatches : db.watches.sumOf (fun w => included (on w.id) (s.ofWatch w)) =
      db.watches.sumOf fun w => included (on' w.id) (s.ofWatch w) :=
    Table.sumOf_congr fun w hw => by rw [h w.id w (Table.get?_of_mem hw)]
  have hrows : rowsOn s on db.transfers = rowsOn s on' db.transfers := by
    refine Table.sumOf_congr fun t ht => ?_
    obtain ⟨w, hw, -⟩ := rooted t.key t (Table.get?_of_mem ht)
    rw [h t.watchId w hw]
  have hevents : db.outbox.sumOf (fun e => included (on e.watchId) (s.ofType e.eventType)) =
      db.outbox.sumOf fun e => included (on' e.watchId) (s.ofType e.eventType) := by
    refine Table.sumOf_congr fun e he => ?_
    obtain ⟨w, hw⟩ := logs.known e he
    rw [h e.watchId w hw]
  rw [Db.measure, hwatches, hrows, hevents, Db.measure]

/-- The statistics of every token are its measures. -/
def Balanced (db : Db) : Prop :=
  ∀ c token s, (db.rollup c token).get s = db.measure (db.onToken c token) s

/-- What moves statistics and measures alike keeps them equal. -/
theorem Balanced.trace {acts : List Act} (htr : Trace Step db acts db') (logs : EventLogs db)
    (rooted : Rooted tokenOf db) (inv : Balanced db)
    (h : ∀ c token, Marks (db'.onToken c token) c token db →
      Balances (db'.onToken c token) c token db db') : Balanced db' := by
  intro c token s
  have hsame : ∀ id w, db.watches.get? id = some w → db'.onToken c token id = db.onToken c token id :=
    fun id w hw => onToken_of_get? htr hw
  have hbalance := h c token (fun id w hw => (hsame id w hw).trans (marks_onToken db c token id w hw)) s
  rw [measure_congr logs rooted hsame, inv c token s] at hbalance
  omega

/-! ## Open sweeps -/

/-- What the operation that a step runs or begins is promised. -/
def ServerStep.Wired (tokenOf : LogId → Address) (s : Server) (i : ServerStep) : Prop :=
  ∀ op ∈ i.op?, op.Wired tokenOf s.db

/-- What a transaction counts toward the watches of a token is below `2^256`. -/
def ServerStep.Summed (s : Server) : ServerStep → Prop
  | .op o => o.Summed s.db
  | .commit c =>
      match s.txs c with
      | some (.sweep o) => ∀ c' token, total MatchedTransfer.units
          (o.counted.filter fun m => s.db.onToken c' token m.watch.id) < 2 ^ 256
      | _ => True
  | _ => True

/-- Rows belong to watches of the token their log is about, and so does what
open sweeps have counted. -/
structure Server.Rooted (tokenOf : LogId → Address) (s : Server) : Prop where
  rows : GumIndexer.Rooted tokenOf s.db
  suits : ∀ c o, s.txs c = some (.sweep o) →
    ∀ m ∈ o.counted, Act.Suits tokenOf s.db (.count o.chain.chainId m)

namespace Server

variable {s : Server} {i : ServerStep}

/-- Whatever a step counts or announces is for a watch of the token its log is
about. -/
theorem Rooted.suited (inv : s.Rooted tokenOf) (suited : ∀ op, i = .op op → op.Suited tokenOf s.db)
    (a : Act) (hallow : i.Allows s a) : a.Suits tokenOf s.db := by
  cases i with
  | op o => exact suited o rfl a hallow
  | commit c =>
      cases a with
      | count chainId m =>
          obtain ⟨o, ho, rfl, hm⟩ := hallow
          exact inv.suits c o ho m hm
      | announce _ _ => exact hallow.elim
      | _ => trivial
  | _ => exact hallow.elim

/-- A step of the server keeps the rows with watches of their tokens. -/
theorem Rooted.step (inv : s.Rooted tokenOf) (suited : ∀ op, i = .op op → op.Suited tokenOf s.db)
    (wired : i.Wired tokenOf s) (undisturbed : i.Undisturbed s) : (s.step i).Rooted tokenOf := by
  obtain ⟨acts, htr, hallow⟩ := step_trace undisturbed
  have hsuits : ∀ {a : Act}, a.Suits tokenOf s.db → a.Suits tokenOf (s.step i).db := fun h =>
    htr.invariant (fun d => Act.Suits tokenOf d _) (fun _ _ _ hstep hd => Act.Suits.step hstep hd) h
  refine ⟨?_, fun c o ho => ?_⟩
  · refine (htr.invariant_mem (fun d => GumIndexer.Rooted tokenOf d ∧
      ∀ a, i.Allows s a → a.Suits tokenOf d)
      (fun d a d' ha hstep hd => ⟨hd.1.step hstep (hd.2 a (hallow a ha)), fun b hb =>
        Act.Suits.step hstep (hd.2 b hb)⟩) ⟨inv.rows, inv.suited suited⟩).1
  · refine opened_step (P := fun o => ∀ m ∈ o.counted,
      Act.Suits tokenOf (s.step i).db (.count o.chain.chainId m))
      (fun c o ho m hm => hsuits (inv.suits c o ho m hm)) (fun chain cache k b logs heq o hread m hm => ?_)
      ho
    have hwired : Op.Wired tokenOf s.db (.applySweep chain cache k b logs) :=
      wired _ (by rw [heq]; rfl)
    have hmatched := o.matched m hm
    obtain ⟨-, rfl, hcache, -, -, -, rfl, -⟩ := OpenSweep.read_eq_some hread
    rw [hcache] at hmatched
    exact hsuits (hwired.1.deltaLoad.suits_matched hwired.2 (mem_sweepMatches.mp hmatched))

/-- **A step keeps the statistics balanced** if its volume does not wrap. -/
theorem balanced_step (inv : Balanced s.db) (logs : EventLogs s.db) (rooted : s.Rooted tokenOf)
    (suited : ∀ op, i = .op op → op.Suited tokenOf s.db) (summed : i.Summed s)
    (undisturbed : i.Undisturbed s) : Balanced (s.step i).db := by
  have htrace := step_trace undisturbed
  have hyields := s.step_yields i
  generalize (s.step i).db = db at htrace hyields ⊢
  obtain ⟨acts, htr, hallow⟩ := htrace
  cases hyields with
  | idle => exact inv
  | runs _ =>
      exact inv.trace htr logs rooted.rows fun c token marks =>
        exec_balance (suited _ rfl) marks rooted.rows (summed c token)
  | @sweeps c o _ tx finish =>
      simp only [ServerStep.Undisturbed, tx] at undisturbed
      simp only [ServerStep.Summed, tx] at summed
      refine inv.trace htr logs rooted.rows fun c' token marks => ?_
      -- a commit registers nothing
      have hsame : db.onToken c' token = s.db.onToken c' token :=
        Trace.onToken_eq htr fun a ha w heq =>
          show (ServerStep.commit c).Allows s (.register w) from heq ▸ hallow a ha
      exact finish_balance (rooted.suits c o tx) marks rooted.rows undisturbed
        (by rw [hsame]; exact summed c' token) finish
  | forwards _ => exact fun c token s => inv c token s

/-- The next step of a run: a backfill scans a batch that was read from an
earlier state. -/
theorem Planned.suited {steps : List ServerStep} (planned : Planned (steps ++ [i]))
    (undisturbed : Along Server.step (fun s i => i.Undisturbed s) {} steps)
    (wired : i.Wired tokenOf (run Server.step {} steps)) :
    ∀ op, i = .op op → op.Suited tokenOf (run Server.step {} steps).db := by
  rintro op rfl
  refine Op.Wired.suited (wired op rfl) fun chain cache batch logs heq => ?_
  obtain ⟨earlier, limit, ⟨rest, rfl⟩, rfl⟩ := planned steps chain cache batch logs [] (by rw [heq])
  rw [along_append] at undisturbed
  rw [run_append]
  obtain ⟨acts, htr⟩ := run_trace undisturbed.2
  exact genuine_scope fun w hw =>
    htr.invariant (Db.Retains · w) (fun _ _ _ => Db.Retains.step) (Db.Retains.of_get? hw)

/-- So it is in every run that is wired. -/
theorem rooted_run (steps : List ServerStep)
    (undisturbed : Along Server.step (fun s i => i.Undisturbed s) {} steps) (planned : Planned steps)
    (wired : Along Server.step (fun s i => i.Wired tokenOf s) {} steps) :
    (run Server.step {} steps).Rooted tokenOf := by
  induction steps using List.reverseRecOn with
  | nil => exact ⟨fun log t ht => by simp [Db.empty] at ht, fun _ _ ho => by contradiction⟩
  | append_singleton steps i ih =>
      rw [along_append] at undisturbed wired
      rw [run_append, run_cons, run_nil]
      exact (ih undisturbed.1 planned.of_append wired.1).step
        (planned.suited undisturbed.1 wired.2.1) wired.2.1 undisturbed.2.1

/-- **The statistics are balanced in every run** whose volumes do not wrap. -/
theorem balanced_run (steps : List ServerStep)
    (undisturbed : Along Server.step (fun s i => i.Undisturbed s) {} steps) (planned : Planned steps)
    (wired : Along Server.step (fun s i => i.Wired tokenOf s) {} steps)
    (summed : Along Server.step (fun s i => i.Summed s) {} steps) :
    Balanced (run Server.step {} steps).db := by
  induction steps using List.reverseRecOn with
  | nil => exact fun c token s => by cases s <;> rfl
  | append_singleton steps i ih =>
      have hrooted := rooted_run steps ((along_append _ _ _).mp undisturbed).1 planned.of_append
        ((along_append _ _ _).mp wired).1
      rw [along_append] at undisturbed wired summed
      rw [run_append, run_cons, run_nil]
      exact balanced_step (ih undisturbed.1 planned.of_append wired.1 summed.1)
        (run_invariant EventLogs (fun _ _ _ => EventLogs.step) .empty undisturbed.1) hrooted
        (planned.suited undisturbed.1 wired.2.1) summed.2.1 undisturbed.2.1

end Server

/-- Rows belong to watches of the token their log is about. -/
theorem rooted_run (ops : List Op) (planned : Planned ops)
    (wired : Along exec (fun db op => op.Wired tokenOf db) Db.empty ops) :
    Rooted tokenOf (run exec Db.empty ops) := by
  have hwired : Along Server.step (fun s i => i.Wired tokenOf s) {} (ops.map .op) :=
    along_op (along_mono (fun _ _ h op hop => Option.some.inj hop ▸ h) wired)
  have hrooted := (Server.rooted_run (ops.map .op) (undisturbed_op ops) planned.server hwired).rows
  rwa [run_op] at hrooted

/-! ## The statistics of a token -/

/-- Nothing adds up to nothing. -/
theorem sumOf_included_zero {α κ : Type} {key : α → κ} (t : Table α key) (p : α → Bool) :
    t.sumOf (fun a => included (p a) 0) = 0 := by
  simp [Table.sumOf]

/-- A sum of ones is a count. -/
theorem sumOf_included_ite {α κ : Type} {key : α → κ} (t : Table α key) (p : α → Bool) (q : α → Prop)
    [DecidablePred q] :
    t.sumOf (fun a => included (p a) (if q a then 1 else 0)) = t.rows.countP fun a => p a ∧ q a := by
  unfold Table.sumOf
  induction t.rows with
  | nil => rfl
  | cons a rows ih =>
      rw [List.map_cons, List.sum_cons, ih, List.countP_cons]
      cases p a <;> by_cases hq : q a <;> simp [hq, Nat.add_comm]

/-- A sum to which only some rows add is the sum over those. -/
theorem sumOf_included {α κ : Type} {key : α → κ} (t : Table α key) (p : α → Bool) (g : α → Nat) :
    t.sumOf (fun a => included (p a) (g a)) = ((t.rows.filter p).map g).sum := by
  unfold Table.sumOf
  induction t.rows with
  | nil => rfl
  | cons a rows ih =>
      rw [List.map_cons, List.sum_cons, ih, List.filter_cons]
      cases p a <;> simp

/-- The ledger has, for the watches of the token, what the statistics say. -/
structure Reconciled (db : Db) (c : Nat) (token : Address) : Prop where
  confirmedEvents : (db.rollup c token).confirmedCount = db.outbox.rows.countP fun e =>
    db.onToken c token e.watchId ∧ e.eventType = .paymentConfirmed
  confirmedTransfers : (db.rollup c token).confirmedCount = db.transfers.rows.countP fun t =>
    db.onToken c token t.watchId ∧ t.status = .confirmed
  confirmedVolume : (db.rollup c token).confirmedVolume =
    ((db.watches.rows.filter fun w => db.onToken c token w.id).map Watch.confirmedAmount).sum
  thresholdsReached : (db.rollup c token).thresholdsReached = db.watches.rows.countP fun w =>
    db.onToken c token w.id ∧ w.status = .completed
  orphanedCount : (db.rollup c token).orphanedCount = db.outbox.rows.countP fun e =>
    db.onToken c token e.watchId ∧ e.eventType = .paymentOrphaned

/-- **Balanced statistics are what the rows add up to.** -/
theorem Balanced.reconciled (h : Balanced db) (c : Nat) (token : Address) : Reconciled db c token where
  confirmedEvents := by
    refine (h c token .confirmed).trans ?_
    simp only [Db.measure, rowsOn, Stat.ofWatch, Stat.ofRow, Stat.ofType, sumOf_included_zero,
      sumOf_included_ite, Nat.zero_add]
  confirmedTransfers := by
    refine (h c token .counted).trans ?_
    simp only [Db.measure, rowsOn, Stat.ofWatch, Stat.ofRow, Stat.ofType, sumOf_included_zero,
      sumOf_included_ite, Nat.zero_add, Nat.add_zero]
  confirmedVolume := by
    refine (h c token .volume).trans ?_
    simp only [Db.measure, rowsOn, Stat.ofWatch, Stat.ofRow, Stat.ofType, sumOf_included_zero,
      sumOf_included, Nat.add_zero]
  thresholdsReached := by
    refine (h c token .thresholds).trans ?_
    simp only [Db.measure, rowsOn, Stat.ofWatch, Stat.ofRow, Stat.ofType, sumOf_included_zero,
      sumOf_included_ite, Nat.add_zero]
  orphanedCount := by
    refine (h c token .orphaned).trans ?_
    simp only [Db.measure, rowsOn, Stat.ofWatch, Stat.ofRow, Stat.ofType, sumOf_included_zero,
      sumOf_included_ite, Nat.zero_add]

/-- **Statistics reconcile with the ledger**, in every state that is reached
without a sweep settling rows that have changed since it read them, and for every
token of every chain. -/
theorem stats_reconcile (steps : List ServerStep) (tokenOf : LogId → Address)
    (planned : Server.Planned steps)
    (wired : Along Server.step (fun s i => i.Wired tokenOf s) {} steps)
    (summed : Along Server.step (fun s i => i.Summed s) {} steps)
    (undisturbed : Along Server.step (fun s i => i.Undisturbed s) {} steps) (c : Nat) (token : Address) :
    Reconciled (run Server.step {} steps).db c token :=
  (Server.balanced_run steps undisturbed planned wired summed).reconciled c token

/-! ## Two sweeps -/

/-- All that a step counts. -/
def ServerStep.paid (s : Server) : ServerStep → Nat
  | .op o => total Credit.amount (creditsOf s.db o)
  | .commit c =>
      match s.txs c with
      | some (.sweep o) => total MatchedTransfer.units o.counted
      | _ => 0
  | _ => 0

/-- If all that is paid fits into 256 bits, no sum wraps. -/
theorem ServerStep.Summed.of_paid {s : Server} {i : ServerStep} (h : i.paid s < 2 ^ 256) :
    i.Summed s := by
  cases i with
  | op o => exact fun _ _ => Nat.lt_of_le_of_lt (total_filter_le _ _) h
  | commit c =>
      cases htx : s.txs c with
      | none => simp only [Summed, htx]
      | some tx =>
          cases tx with
          | forward _ _ => simp only [Summed, htx]
          | sweep o =>
              simp only [paid, htx] at h
              simp only [Summed, htx]
              exact fun _ _ => Nat.lt_of_le_of_lt (total_filter_le _ _) h
  | _ => trivial

theorem wired_of_op? {s : Server} {i : ServerStep} (hi : i.op? = some op)
    (h : op.Wired tokenOf s.db) : i.Wired tokenOf s :=
  fun o ho => by
    rw [hi] at ho
    exact Option.some.inj ho ▸ h

theorem genuine_new (db : Db) : WatchCache.new.Genuine db chain := by
  intro key ref h
  rw [WatchCache.get_new] at h
  contradiction

theorem agree_transferLog (src dst : Address) (amount blockNumber logIndex : Nat) :
    Log.Agree (fun _ => usdc.address) baseChain [transferLog src dst amount blockNumber logIndex] := by
  intro l hl p hp
  rw [List.mem_singleton.mp hl] at hp
  obtain ⟨_, _, -, -, htoken, -⟩ := payment?_spec hp
  have husdc : baseChain.tokenByLogAddress usdc.logAddress = some usdc := by decide +kernel
  rw [show (transferLog src dst amount blockNumber logIndex).address = usdc.logAddress from rfl,
    husdc] at htoken
  exact congrArg TokenSpec.address (Option.some.inj htoken).symm

/-- Two watches; the sweep that completes the first is open when the second is
cancelled. -/
def sweptBesides : List ServerStep :=
  [.op (.ensureCursor baseChain.chainId 100), .op (.createWatch 1 watchOrder),
    .op (.createWatch 2 { watchOrder with paymentAddress := 10 }),
    .select baseChain .new 100 101 [transferLog 7 9 100 101 0], .op (.cancelWatch 2),
    .commit baseChain.chainId]

theorem sweptBesides_planned : Server.Planned sweptBesides :=
  Server.planned_of_no_backfill (by simp [sweptBesides])

theorem sweptBesides_wired :
    Along Server.step (fun s i => i.Wired (fun _ => usdc.address) s) {} sweptBesides :=
  ⟨wired_of_op? rfl trivial, wired_of_op? rfl trivial, wired_of_op? rfl trivial,
    wired_of_op? rfl ⟨genuine_new _, agree_transferLog _ _ _ _ _⟩, wired_of_op? rfl trivial,
    fun _ hop => by contradiction, trivial⟩

/-- After a watch for 100 units was completed by one payment. -/
theorem stats_reconcile_completed :
    (run Server.step {} sweptBesides).db.rollup baseChain.chainId usdc.address =
        { chainId := baseChain.chainId, tokenAddress := usdc.address, confirmedCount := 1
          thresholdsReached := 1, confirmedVolume := 100 } ∧
      Reconciled (run Server.step {} sweptBesides).db baseChain.chainId usdc.address := by
  exact ⟨by decide +kernel, stats_reconcile sweptBesides (fun _ => usdc.address)
    sweptBesides_planned sweptBesides_wired (along_mono (fun _ _ => .of_paid) (by decide +kernel)) (by decide +kernel) _ _⟩

/-- **A row that is settled twice stays counted**: the backfill has counted a
transfer that the sweep takes for orphaned afterwards. -/
theorem settled_twice_drifts :
    ∃ (steps : List ServerStep) (tokenOf : LogId → Address), Server.Planned steps ∧
      Along Server.step (fun s i => i.Wired tokenOf s) {} steps ∧
      Along Server.step (fun s i => i.Summed s) {} steps ∧
      ∃ (c : Nat) (token : Address),
        ((run Server.step {} steps).db.rollup c token).confirmedCount = 1 ∧
        (run Server.step {} steps).db.transfers.rows.countP (fun t =>
          (run Server.step {} steps).db.onToken c token t.watchId ∧ t.status = .confirmed) = 0 := by
  refine ⟨_, fun _ => usdc.address, overtakenSweep_planned, ?_,
    along_mono (fun _ _ => .of_paid) (by decide +kernel), baseChain.chainId, usdc.address,
    by decide +kernel, by decide +kernel⟩
  -- the head path has loaded the watch when it hears of its payment
  have hcache : ∀ db, (deltaLoad db baseChain .new).1.Genuine db baseChain := fun db =>
    (genuine_new db).deltaLoad
  refine ⟨wired_of_op? rfl trivial, wired_of_op? rfl trivial,
    wired_of_op? rfl ⟨_, transferLog 7 9 40 103 0, hcache _, by decide +kernel, agree_transferLog _ _ _ _ _⟩,
    wired_of_op? rfl ⟨genuine_new _, fun _ hl => by contradiction⟩,
    wired_of_op? rfl (agree_transferLog _ _ _ _ _), fun _ hop => by contradiction, trivial⟩

end GumIndexer
