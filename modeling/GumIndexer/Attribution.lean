import GumIndexer.Interleaving

/-!
# GumIndexer.Attribution

The per-watch ledger: is a watch's total the sum of its confirmed transfers?

A `transfers` row is created for the watch that is cached when the transfer is
announced, and settled for the watch that is cached when it is swept.  The
upsert of `count_confirmed` confirms a pending row in place and leaves its
`watch_id` alone, so the two differ once a watch is retired and its target
registered again in between: `ledger_misattributed`.  And a sweep settles by its
id what was pending when it looked, also if a backfill has counted it since.

`ledger_of_attributed` says that nothing else goes wrong: as long as no
transaction matches a pending transfer to a watch other than the one it was
announced for, and no sweep settles a row that has changed since it was read,
every watch's total is the sum of its confirmed rows.
-/

namespace GumIndexer

open Base

/-- What a row contributes to the ledger of a watch. -/
def ledgerAmount (id : Uuid) (t : Transfer) : Nat :=
  if t.watchId = id ∧ t.status = .confirmed then t.amount else 0

/-- The sum of `transfers.amount` over the confirmed rows of a watch. -/
def Db.ledger (db : Db) (id : Uuid) : Nat := db.transfers.sumOf (ledgerAmount id)

/-- The chain's assumption: a log's identity determines its amount. -/
def Op.Agrees (amountOf : LogId → U256) : Op → Prop
  | .recordPending chain m => m.amount = amountOf (m.logId chain.chainId)
  | .applySweep chain _ _ _ logs =>
      ∀ p ∈ paymentsOf chain logs, p.amount = amountOf (p.logId chain.chainId)
  | .applyBackfill chain _ _ logs =>
      ∀ p ∈ paymentsOf chain logs, p.amount = amountOf (p.logId chain.chainId)
  | _ => True

/-- A match is for the watch its pending row, if any, was announced for. -/
def Db.Owns (db : Db) (chainId : Nat) (m : MatchedTransfer) : Prop :=
  ∀ t ∈ db.transfers.get? (m.logId chainId), t.status = .pending → t.watchId = m.watch.id

/-- No transfer announced for one watch is matched to another. -/
def Op.Attributed (db : Db) : Op → Prop
  | .applySweep chain cache _ _ logs =>
      ∀ m ∈ sweepMatches chain (deltaLoad db chain cache).1 logs, db.Owns chain.chainId m
  | .applyBackfill chain _ backfills logs =>
      ∀ m ∈ backfillMatches chain backfills logs, db.Owns chain.chainId m
  | _ => True

instance (op : Op) (amountOf : LogId → U256) : Decidable (op.Agrees amountOf) :=
  match op with
  | .recordPending _ _ => inferInstanceAs (Decidable (_ = _))
  | .applySweep _ _ _ _ _ => inferInstanceAs (Decidable (∀ p ∈ _, _))
  | .applyBackfill _ _ _ _ => inferInstanceAs (Decidable (∀ p ∈ _, _))
  | .ensureCursor _ _ | .createWatch _ _ | .commitWatch _ _ _ | .cancelWatch _ | .expireWatches _ _ _
  | .fastForwardCursor _ _ | .tick _ | .draw _ => isTrue trivial

instance (db : Db) (chainId : Nat) (m : MatchedTransfer) : Decidable (db.Owns chainId m) :=
  inferInstanceAs (Decidable (∀ t ∈ _, _))

instance (db : Db) (op : Op) : Decidable (op.Attributed db) :=
  match op with
  | .applySweep _ _ _ _ _ => inferInstanceAs (Decidable (∀ m ∈ _, Db.Owns _ _ _))
  | .applyBackfill _ _ _ _ => inferInstanceAs (Decidable (∀ m ∈ _, Db.Owns _ _ _))
  | .ensureCursor _ _ | .createWatch _ _ | .commitWatch _ _ _ | .cancelWatch _ | .expireWatches _ _ _
  | .recordPending _ _ | .fastForwardCursor _ _ | .tick _ | .draw _ => isTrue trivial

/-- The same for a sweep that is open. -/
def CursorTx.Attributed (db : Db) : CursorTx → Prop
  | .sweep o => ∀ m ∈ o.counted, db.Owns o.chain.chainId m
  | .forward _ _ => True

instance (db : Db) (tx : CursorTx) : Decidable (tx.Attributed db) :=
  match tx with
  | .sweep o => inferInstanceAs (Decidable (∀ m ∈ o.counted, db.Owns o.chain.chainId m))
  | .forward _ _ => isTrue trivial

/-- A sweep in two halves has to match by the time it commits. -/
def ServerStep.Attributed (s : Server) : ServerStep → Prop
  | .op o => o.Attributed s.db
  | .commit c => ∀ tx ∈ s.txs c, tx.Attributed s.db
  | _ => True

instance (s : Server) (i : ServerStep) : Decidable (i.Attributed s) :=
  match i with
  | .op o => inferInstanceAs (Decidable (o.Attributed s.db))
  | .commit c => inferInstanceAs (Decidable (∀ tx ∈ s.txs c, tx.Attributed s.db))
  | .select _ _ _ _ _ | .forward _ _ | .abort _ => isTrue trivial

/-! ## One step -/

variable {db db' : Db} {chain : ChainSpec} {a : Act} {amountOf : LogId → U256}

/-- What a step needs to keep the ledger: the amount its log determines, and
the owner of the row it confirms. -/
def Act.Fair (amountOf : LogId → U256) (db : Db) : Act → Prop
  | .announce chainId m => m.amount = amountOf (m.logId chainId)
  | .count chainId m => m.amount = amountOf (m.logId chainId) ∧ db.Owns chainId m
  | _ => True

/-- The ledger agrees with the totals, the rows with their logs, and every row
has its watch. -/
structure Ledger (amountOf : LogId → U256) (db : Db) : Prop where
  totals : ∀ id w, db.watches.get? id = some w → w.confirmedAmount = db.ledger id
  amounts : ∀ t ∈ db.transfers.rows, t.amount = (amountOf t.key).toNat
  known : ∀ t ∈ db.transfers.rows, ∃ w, db.watches.get? t.watchId = some w

theorem Ledger.empty : Ledger amountOf Db.empty where
  totals id w hw := by simp [Db.empty] at hw
  amounts t ht := by simp [Db.empty] at ht
  known t ht := by simp [Db.empty] at ht

section Rows

variable {ts ts' : Table Transfer Transfer.key} {row t : Transfer}

/-- A row that is not confirmed adds nothing. -/
theorem ledger_insertNew_pending {id : Uuid} (h : ts.insertNew row = some ts')
    (hrow : row.status ≠ .confirmed) :
    ts'.sumOf (ledgerAmount id) = ts.sumOf (ledgerAmount id) := by
  rw [Table.sumOf_insertNew h, ledgerAmount, if_neg (fun h => hrow h.2), Nat.add_zero]

/-- Nor does a pending row that is settled otherwise. -/
theorem ledger_settle {id : Uuid} {s : TransferStatus} (found : ts.get? t.key = some t)
    (pending : t.status = .pending) (hs : s ≠ .confirmed) :
    (ts.replace (t.withStatus s)).sumOf (ledgerAmount id) = ts.sumOf (ledgerAmount id) := by
  have hsum := Table.sumOf_replace (a := t.withStatus s) found (ledgerAmount id)
  have hold : ledgerAmount id t = 0 := if_neg (by simp [pending])
  have hnew : ledgerAmount id (t.withStatus s) = 0 := if_neg (fun h => hs h.2)
  omega

/-- Confirming a row adds it to the ledger of the watch it belongs to. -/
theorem Confirms.ledger {id : Uuid} (h : Confirms ts row ts') (hrow : row.status = .confirmed)
    (howner : ∀ t ∈ ts.get? row.key, t.status = .pending → t.watchId = row.watchId)
    (hamount : ∀ t ∈ ts.get? row.key, t.amount = row.amount) :
    ts'.sumOf (ledgerAmount id) =
      ts.sumOf (ledgerAmount id) + if row.watchId = id then row.amount else 0 := by
  cases h with
  | fresh insert =>
      rw [Table.sumOf_insertNew insert]
      simp [ledgerAmount, hrow]
  | @pending t found pending =>
      have hfound : ts.get? (t.withStatus .confirmed).key = some t := by
        rw [Transfer.key_withStatus, Table.key_of_get? found, found]
      have hsum := Table.sumOf_replace hfound (ledgerAmount id)
      have hold : ledgerAmount id t = 0 := if_neg (by simp [pending])
      have hnew : ledgerAmount id (t.withStatus .confirmed) =
          if row.watchId = id then row.amount else 0 := by
        simp [ledgerAmount, Transfer.withStatus, howner t found pending, hamount t found]
      omega

end Rows

/-- **Counting a match** adds to the ledger of its own watch what it adds to its
total, if a pending row was announced for that watch. -/
theorem Counts.ledger {w : Watch} {m : MatchedTransfer} (h : Counts chain db w m db')
    (inv : Ledger amountOf db) (hamount : m.amount = amountOf (m.logId chain.chainId))
    (howns : db.Owns chain.chainId m) (id : Uuid) :
    db'.ledger id = db.ledger id + creditTotal [m.toCredit chain.chainId] id := by
  obtain ⟨transfers, hc, post⟩ := h.step
  rw [Db.ledger, post.transfers, hc.ledger rfl, creditTotal_toCredit, h.watch]
  · rfl
  · intro t ht hp
    rw [howns t ht hp, h.watch]
    rfl
  · intro t ht
    obtain ⟨hmem, hkey⟩ := Table.get?_eq_some_iff.mp ht
    rw [inv.amounts t hmem, hkey]
    exact congrArg BitVec.toNat hamount.symm

/-- **A fair step adds its credits to the ledgers.** -/
theorem Step.ledger (h : Step db a db') (inv : Ledger amountOf db) (fair : a.Fair amountOf db)
    (id : Uuid) : db'.ledger id = db.ledger id + creditTotal a.credits id := by
  cases h with
  | register _ _ _ _ _ => rfl
  | cancel _ _ => rfl
  | expire _ post => rw [Db.ledger, post.transfers]; rfl
  | announce _ _ insert post =>
      rw [Db.ledger, post.transfers, ledger_insertNew_pending insert (by simp [MatchedTransfer.row])]
      rfl
  | count counts _ => exact counts.ledger inv fair.1 fair.2 id
  | complete counts _ post =>
      rw [Db.ledger, post.transfers]
      exact counts.ledger inv fair.1 fair.2 id
  | ignore found pending => exact ledger_settle found pending (by decide)
  | orphanRetired found pending _ => exact ledger_settle found pending (by decide)
  | orphan found pending _ _ _ _ post =>
      rw [Db.ledger, post.transfers, ledger_settle found pending (by decide)]
      rfl
  | clearBackfill _ => rfl
  | moveCursor _ transfers _ _ => rw [Db.ledger, transfers]; rfl
  | other _ transfers _ _ _ => rw [Db.ledger, transfers]; rfl

/-- A row after a step has the owner and amount it had, or is a new one. -/
theorem Step.row_origin {t' : Transfer} (h : Step db a db') (ht : t' ∈ db'.transfers.rows) :
    (∃ t ∈ db.transfers.rows, t.key = t'.key ∧ t.watchId = t'.watchId ∧ t.amount = t'.amount) ∨
      ∃ chainId m s w, (a = .announce chainId m ∨ a = .count chainId m) ∧
        db.watches.get? m.watch.id = some w ∧ t' = m.row chainId m.watch.id s := by
  rcases h.writes (Table.get?_of_mem ht) with hold | hw
  · exact .inl ⟨t', Table.mem_of_get? hold, rfl, rfl, rfl⟩
  · cases hw with
    | announce _ found _ => exact .inr ⟨_, _, _, _, .inl rfl, found, rfl⟩
    | insert _ found => exact .inr ⟨_, _, _, _, .inr rfl, found, rfl⟩
    | confirm found _ => exact .inl ⟨_, Table.mem_of_get? found, rfl, rfl, rfl⟩
    | ignore found _ => exact .inl ⟨_, Table.mem_of_get? found, rfl, rfl, rfl⟩
    | orphan found _ => exact .inl ⟨_, Table.mem_of_get? found, rfl, rfl, rfl⟩

theorem Act.Fair.amount {chainId : Nat} {m : MatchedTransfer} (fair : a.Fair amountOf db)
    (h : a = .announce chainId m ∨ a = .count chainId m) : m.amount = amountOf (m.logId chainId) := by
  rcases h with rfl | rfl
  · exact fair
  · exact fair.1

/-- **Every fair step keeps the ledger.** -/
theorem Ledger.step (h : Step db a db') (fair : a.Fair amountOf db) (inv : Ledger amountOf db) :
    Ledger amountOf db' where
  totals id w hw := by
    rw [h.ledger inv fair]
    cases hold : db.watches.get? id with
    | some w₀ =>
        obtain ⟨w', hw', hg⟩ := h.gains hold
        rw [hw] at hw'
        cases hw'
        rw [hg.amount, inv.totals id w₀ hold]
    | none =>
        obtain rfl := h.new_watch hold hw
        cases h
        have hzero : db.ledger id = db.transfers.sumOf fun _ => 0 := by
          apply Table.sumOf_congr
          intro t ht
          obtain ⟨u, hu⟩ := inv.known t ht
          refine if_neg fun hid => ?_
          rw [hid.1, hold] at hu
          contradiction
        rw [hzero, Table.sumOf]
        simp [Act.credits, NewWatch.row]
  amounts t' ht' := by
    rcases h.row_origin ht' with ⟨t, ht, hkey, -, hamount⟩ | ⟨chainId, m, s, w, ha, -, rfl⟩
    · rw [← hamount, inv.amounts t ht, hkey]
    · exact congrArg BitVec.toNat (fair.amount ha)
  known t' ht' := by
    have hold : ∃ w, db.watches.get? t'.watchId = some w := by
      rcases h.row_origin ht' with ⟨t, ht, -, howner, -⟩ | ⟨chainId, m, s, w, -, hw, rfl⟩
      · rw [← howner]
        exact inv.known t ht
      · exact ⟨w, hw⟩
    obtain ⟨w, hw⟩ := hold
    obtain ⟨w', hw', -⟩ := h.gains hw
    exact ⟨w', hw'⟩

/-! ## Whole operations -/

/-- The amount of a match is the one its log determines. -/
theorem matched_amount {cache : WatchCache} {logs : List Log} {m : MatchedTransfer}
    (agrees : ∀ p ∈ paymentsOf chain logs, p.amount = amountOf (p.logId chain.chainId))
    (hm : m ∈ matchedOf chain cache logs) : m.amount = amountOf (m.logId chain.chainId) := by
  obtain ⟨p, hp, watch, -, -, rfl⟩ := mem_matchedOf.mp hm
  exact agrees p hp

/-- The steps of an operation are fair in every state in which the pending
rows are among those the operation started from. -/
theorem fair_of_allows {op : Op} {s : Db} (agrees : op.Agrees amountOf) (attr : op.Attributed db)
    (hallow : op.Allows db a)
    (hpend : (∀ chain m, op ≠ .recordPending chain m) → PendingFrom db s) : a.Fair amountOf s := by
  cases a with
  | announce chainId m =>
      cases op <;> try contradiction
      obtain ⟨rfl, rfl⟩ := hallow
      exact agrees
  | count chainId m =>
      cases op <;> try contradiction
      · obtain ⟨rfl, hm⟩ := hallow
        exact ⟨matched_amount agrees (mem_sweepMatches.mp hm),
          fun t ht hp => attr m hm t (hpend (by simp) _ t ht hp) hp⟩
      · obtain ⟨rfl, hm⟩ := hallow
        exact ⟨matched_amount agrees (mem_backfillMatches.mp hm).1,
          fun t ht hp => attr m hm t (hpend (by simp) _ t ht hp) hp⟩
  | _ => trivial

/-- An operation keeps the ledger if all its steps are fair. -/
theorem Ledger.exec {op : Op} (inv : Ledger amountOf db) (agrees : op.Agrees amountOf)
    (attr : op.Attributed db) : Ledger amountOf (exec db op) := by
  obtain ⟨acts, htr, -, hallow⟩ := exec_trace db op
  refine (htr.invariant_mem (fun s => Ledger amountOf s ∧
    ((∀ chain m, op ≠ .recordPending chain m) → PendingFrom db s)) ?_ ⟨inv, fun _ _ _ h _ => h⟩).1
  rintro s a s' ha hstep ⟨hl, hpend⟩
  exact ⟨hl.step hstep (fair_of_allows agrees attr (hallow a ha) hpend),
    fun hop => (hpend hop).step hstep (hallow a ha) hop⟩

/-- The commit of a sweep that read before. -/
theorem Ledger.finish {o : OpenSweep} (inv : Ledger amountOf db) (agrees : o.op.Agrees amountOf)
    (owns : ∀ m ∈ o.counted, db.Owns o.chain.chainId m)
    (undisturbed : ∀ t ∈ o.selected, db.transfers.get? t.key = some t)
    (h : o.finish db = some db') : Ledger amountOf db' := by
  refine ((OpenSweep.finish_trace undisturbed h).invariant_mem
    (fun s => Ledger amountOf s ∧ PendingFrom db s) (fun s a s' ha hstep hs => ?_)
    ⟨inv, fun _ _ ht _ => ht⟩).1
  obtain ⟨hl, hpend⟩ := hs
  have hact : a.Fair amountOf s ∧ ∀ chainId m, a ≠ .announce chainId m := by
    rcases List.mem_append.mp ha with ha | ha
    · rcases List.mem_append.mp ha with ha | ha
      · obtain ⟨m, hm, rfl⟩ := List.mem_map.mp ha
        exact ⟨⟨matched_amount agrees (mem_sweepMatches.mp (o.matched m hm)),
          fun t ht hp => owns m hm t (hpend _ t ht hp) hp⟩, by simp⟩
      · obtain ⟨t, -, rfl⟩ := List.mem_map.mp ha
        rcases resolveAct_cases o.canonical t with heq | heq <;> rw [heq] <;> exact ⟨trivial, by simp⟩
    · rw [List.mem_singleton.mp ha]
      exact ⟨trivial, by simp⟩
  exact ⟨hl.step hstep hact.1, fun log t ht hp => hpend log t (hstep.pending hact.2 ht hp) hp⟩

/-- So does every step of the server. -/
theorem Ledger.server {s : Server} {i : ServerStep} (inv : Ledger amountOf s.db)
    (agrees : ∀ op ∈ i.op?, op.Agrees amountOf) (opens : s.Opens (Op.Agrees amountOf))
    (undisturbed : i.Undisturbed s) (attributed : i.Attributed s) : Ledger amountOf (s.step i).db := by
  have hyields := s.step_yields i
  generalize (s.step i).db = db at hyields ⊢
  cases hyields with
  | idle => exact inv
  | runs _ => exact inv.exec (agrees _ rfl) attributed
  | sweeps tx finish =>
      simp only [ServerStep.Undisturbed, tx] at undisturbed
      exact inv.finish (opens _ _ tx) (attributed _ tx) undisturbed finish
  | @forwards c cursor newCursor _ =>
      have hmove : Step s.db .moveCursor (setCursor s.db c newCursor) := .moveCursor rfl rfl rfl rfl
      exact inv.step hmove trivial

/-- **The per-watch ledger.**  On a chain where a log's identity determines
its amount, in every run in which no transaction matches a transfer announced
for one watch to another, and what a sweep has read is unchanged when it
commits, every watch's total is the sum of the amounts of its confirmed
transfers. -/
theorem ledger_of_attributed (amountOf : LogId → U256) (steps : List ServerStep)
    (agrees : ∀ i ∈ steps, ∀ op ∈ i.op?, op.Agrees amountOf)
    (attributed : Along Server.step (fun s i => i.Undisturbed s ∧ i.Attributed s) {} steps) :
    ∀ w ∈ (run Server.step {} steps).db.watches.rows,
      w.confirmedAmount = (run Server.step {} steps).db.ledger w.id := by
  have inv := invariant_along (fun s : Server => s.Opens (Op.Agrees amountOf) ∧ Ledger amountOf s.db)
    (fun s i hi hs hok => ⟨hs.1.step (fun _ _ _ _ _ _ h => h) (agrees i hi),
      hs.2.server (agrees i hi) hs.1 hok.1 hok.2⟩) ⟨Server.opens_empty _, .empty⟩ attributed
  exact fun w hw => inv.2.totals w.id w (Table.get?_of_mem hw)

/-! ## Re-registration between announcement and sweep -/

/-- 40 base units paid in block 101, announced for the watch with id 1. -/
def announced : MatchedTransfer where
  watch := ⟨1, 1, 101⟩
  tokenIdx := 0
  src := 7
  dst := 9
  amount := 40
  blockNumber := 101
  blockHash := 101
  txHash := 5
  logIndex := 0
  removed := false

/-- A payment is announced and then swept, with `between` in the meantime. -/
def announcedThenSwept (between : List Op) : List ServerStep :=
  List.map .op ([.ensureCursor baseChain.chainId 100, .createWatch 1 watchOrder,
    .recordPending baseChain announced] ++ between) ++
    [.select baseChain .new 100 101 [transferLog 7 9 40 101 0], .commit baseChain.chainId]

/-- Without a re-registration the 40 units are on the watch's ledger. -/
theorem ledger_of_attributed_swept :
    ∃ w ∈ (run Server.step {} (announcedThenSwept [])).db.watches.rows,
      w.confirmedAmount = 40 ∧ (run Server.step {} (announcedThenSwept [])).db.ledger w.id = 40 := by
  have htotal : ((run Server.step {} (announcedThenSwept [])).db.watches.get? 1).map
      Watch.confirmedAmount = some 40 := by decide +kernel
  obtain ⟨w, hw, hamount⟩ := Option.map_eq_some_iff.mp htotal
  have hmem := Table.mem_of_get? hw
  have hledger := ledger_of_attributed (fun _ => 40) (announcedThenSwept []) (by decide +kernel)
    (by decide +kernel) w hmem
  exact ⟨w, hmem, hamount, hledger.symm.trans hamount⟩

/-- The watch is cancelled and its target registered again before the sweep:
the payment is counted toward the new watch and stays on the ledger of the old
one. -/
theorem ledger_misattributed :
    ∃ (amountOf : LogId → U256) (steps : List ServerStep),
      (∀ i ∈ steps, ∀ op ∈ i.op?, op.Agrees amountOf) ∧
      ∃ w ∈ (run Server.step {} steps).db.watches.rows,
        w.confirmedAmount ≠ (run Server.step {} steps).db.ledger w.id :=
  ⟨fun _ => 40, announcedThenSwept [.cancelWatch 1, .createWatch 2 watchOrder], by decide +kernel,
    by decide +kernel⟩

end GumIndexer
