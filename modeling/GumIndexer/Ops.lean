import GumIndexer.Ledger

/-!
# GumIndexer.Ops

The operations of the store as one machine.

Every operation is one transaction, so a history of any number of instances is
a list of operations in commit order; `exec` runs one of them, and a
transaction that fails or is never committed leaves the database as it was.
The arguments are arbitrary: a sweep may be planned from a stale cursor, match
against any cache and be given any logs, and any operation may be repeated.

`exec_trace` says that an operation is a trace of the primitive steps of
`GumIndexer.Ledger`, labelled with what it reports as confirmed.
-/

namespace GumIndexer

open Base

inductive Op
  | ensureCursor (chainId head : Nat)
  | createWatch (id : Uuid) (new : NewWatch)
  /-- A registration that drew its number earlier commits. -/
  | commitWatch (seq : Nat) (id : Uuid) (new : NewWatch)
  | cancelWatch (id : Uuid)
  /-- `locked` are the rows that other transactions hold, which are skipped. -/
  | expireWatches (chain : ChainSpec) (limit : Nat) (locked : Uuid → Bool)
  | recordPending (chain : ChainSpec) (m : MatchedTransfer)
  | applySweep (chain : ChainSpec) (cache : WatchCache) (expectedCursor toBlock : Nat)
      (logs : List Log)
  | applyBackfill (chain : ChainSpec) (cache : WatchCache) (backfills : List PendingBackfill)
      (logs : List Log)
  | fastForwardCursor (chainId target : Nat)
  /-- The database clock moves on. -/
  | tick (elapsed : Nat)
  /-- Registrations draw their numbers from the sequence of `watches.seq`; they
  commit later, in any order, or never. -/
  | draw (n : Nat)

/-- The database after a transaction. -/
def committed {α : Type} (db : Db) : Except StoreError (α × Db) → Db
  | .ok (_, db') => db'
  | .error _ => db

/-- The error with which a transaction was rolled back. -/
def failure? {α : Type} : Except StoreError α → Option StoreError
  | .ok _ => none
  | .error e => some e

/-- What fails is rolled back. -/
theorem committed_of_failure {α : Type} {db : Db} {r : Except StoreError (α × Db)} {e : StoreError}
    (h : failure? r = some e) : committed db r = db := by
  cases r with
  | ok _ => contradiction
  | error _ => rfl

/-- The database after an operation. -/
def exec (db : Db) : Op → Db
  | .ensureCursor chainId head => (ensureCursor db chainId head).2
  | .createWatch id new => committed db (createWatch db id new)
  | .commitWatch seq id new =>
      if db.Drawn seq then committed db (commitWatch db seq id new) else db
  | .cancelWatch id => (cancelWatch db id).2
  | .expireWatches chain limit locked => committed db (expireWatches db chain limit locked)
  | .recordPending chain m => committed db (recordPending db chain m)
  | .applySweep chain cache expectedCursor toBlock logs =>
      committed db (applySweep db chain cache expectedCursor toBlock logs).2
  | .applyBackfill chain cache backfills logs =>
      committed db (applyBackfill db chain cache backfills logs).2
  | .fastForwardCursor chainId target => committed db (fastForwardCursor db chainId target)
  | .tick elapsed => { db with now := db.now + elapsed }
  | .draw n => { db with watchesSeq := db.watchesSeq + n }

/-- The error an operation fails with. -/
def execError (db : Db) : Op → Option StoreError
  | .ensureCursor _ _ => none
  | .createWatch id new => failure? (createWatch db id new)
  | .commitWatch seq id new =>
      if db.Drawn seq then failure? (commitWatch db seq id new) else none
  | .cancelWatch id => failure? (cancelWatch db id).1
  | .expireWatches chain limit locked => failure? (expireWatches db chain limit locked)
  | .recordPending chain m => failure? (recordPending db chain m)
  | .applySweep chain cache expectedCursor toBlock logs =>
      failure? (applySweep db chain cache expectedCursor toBlock logs).2
  | .applyBackfill chain cache backfills logs =>
      failure? (applyBackfill db chain cache backfills logs).2
  | .fastForwardCursor chainId target => failure? (fastForwardCursor db chainId target)
  | .tick _ => none
  | .draw _ => none

/-- The transfers an operation reports as newly counted, with the watches
they were counted toward. -/
def creditsOf (db : Db) : Op → List Credit
  | .applySweep chain cache expectedCursor toBlock logs =>
      match (applySweep db chain cache expectedCursor toBlock logs).2 with
      | .ok (.applied out, _) => out.confirmed.map (·.toCredit chain.chainId)
      | _ => []
  | .applyBackfill chain cache backfills logs =>
      match (applyBackfill db chain cache backfills logs).2 with
      | .ok (out, _) => out.confirmed.map (·.toCredit chain.chainId)
      | _ => []
  | _ => []

/-! ## The counting loop -/

variable {db : Db} {chain : ChainSpec}

/-- A successful count is one step, or none. -/
theorem Counted.trace {tx tx' : SweepTx} {m : MatchedTransfer} (h : Counted chain tx m tx') :
    ∃ cs, cs.Sublist [m] ∧ tx'.out.confirmed = tx.out.confirmed ++ cs ∧
      Trace Step tx.db (cs.map (.count chain.chainId)) tx'.db := by
  cases h with
  | inactive _ => exact ⟨[], List.nil_sublist _, by simp, .nil _⟩
  | settled _ => exact ⟨[], List.nil_sublist _, by simp, .nil _⟩
  | below counts below confirmed _ =>
      exact ⟨[m], List.Sublist.refl _, confirmed, .single (.count counts below)⟩
  | reached counts reached post confirmed _ =>
      exact ⟨[m], List.Sublist.refl _, confirmed, .single (.complete counts reached post)⟩

/-- What `count_confirmed` does when it succeeds. -/
theorem countConfirmed_ok {tx tx' : SweepTx} {m : MatchedTransfer}
    (h : countConfirmed chain tx m = .ok tx') : Counted chain tx m tx' := by
  rcases countConfirmed_cases chain tx m with ⟨tx₁, hc, he⟩ | ⟨w, -, -, -, ⟨-, v, he⟩ | ⟨-, he⟩⟩
  · rw [he] at h
    exact Except.ok.inj h ▸ hc
  · rw [he] at h
    contradiction
  · rw [he] at h
    contradiction

/-- The counting loop counts some of its matches, in order. -/
theorem countAll_trace {tx tx' : SweepTx} {ms : List MatchedTransfer}
    (h : ms.foldlM (countConfirmed chain) tx = .ok tx') :
    ∃ cs, cs.Sublist ms ∧ tx'.out.confirmed = tx.out.confirmed ++ cs ∧
      Trace Step tx.db (cs.map (.count chain.chainId)) tx'.db := by
  induction ms generalizing tx with
  | nil =>
      cases h
      exact ⟨[], List.Sublist.refl _, by simp, .nil _⟩
  | cons m ms ih =>
      rw [List.foldlM_cons] at h
      cases hm : countConfirmed chain tx m with
      | error e => rw [hm] at h; cases h
      | ok tx₁ =>
          rw [hm] at h
          obtain ⟨c, hc, hout, htr⟩ := (countConfirmed_ok hm).trace
          obtain ⟨cs, hcs, hout', htr'⟩ := ih h
          refine ⟨c ++ cs, hc.append hcs, ?_, ?_⟩
          · rw [hout', hout, List.append_assoc]
          · rw [List.map_append]
            exact htr.append htr'

/-! ## The leftovers -/

/-- The label of resolving a leftover. -/
def resolveAct (canonical : List (B256 × Nat)) (t : Transfer) : Act :=
  if (t.blockHash, t.logIndex) ∈ canonical then .ignore t else .orphan t

/-- The row of a resolved leftover. -/
def Transfer.resolved (t : Transfer) (canonical : List (B256 × Nat)) : Transfer :=
  t.withStatus (if (t.blockHash, t.logIndex) ∈ canonical then .ignored else .orphaned)

@[simp] theorem Transfer.key_resolved (t : Transfer) (canonical : List (B256 × Nat)) :
    (t.resolved canonical).key = t.key := rfl

/-- A resolved row is not pending. -/
theorem Transfer.resolved_not_pending (t : Transfer) (canonical : List (B256 × Nat)) :
    (t.resolved canonical).status ≠ .pending := by
  unfold Transfer.resolved Transfer.withStatus
  split <;> simp

/-- The rows a sweep of the chain resolves. -/
def Leftover (chainId : Nat) (t : Transfer) : Prop := t.chainId = chainId ∧ t.status = .pending

/-- Resolving a pending transfer, all outcomes. -/
theorem resolveLeftover_cases (chain : ChainSpec) {tx : SweepTx} {t : Transfer} (canonical : List (B256 × Nat))
    (found : tx.db.transfers.get? t.key = some t) (leftover : Leftover chain.chainId t) :
    (∃ tx', resolveLeftover chain canonical tx t = .ok tx' ∧
        Step tx.db (resolveAct canonical t) tx'.db ∧ tx'.out.confirmed = tx.out.confirmed ∧
        tx'.out.completed = tx.out.completed) ∨
      ((2 ^ 256 ≤ t.amount ∨ ∃ w, tx.db.watches.get? w.id = some w ∧ ¬ w.Fits) ∧
        ∃ v, resolveLeftover chain canonical tx t = .error (.corrupt v)) ∨
      ∃ w, tx.db.watches.get? w.id = some w ∧ tx.db.SeqTaken w ∧
        resolveLeftover chain canonical tx t = .error seqViolation := by
  unfold resolveLeftover resolveAct
  rw [setTransfer_of_found found, setTransfer_of_found found]
  by_cases hc : (t.blockHash, t.logIndex) ∈ canonical
  · simp only [if_pos hc]
    exact .inl ⟨_, rfl, .ignore found leftover.2, rfl, rfl⟩
  · simp only [if_neg hc]
    rcases lockActiveWatch_cases (tx.db.putTransfer (t.withStatus .orphaned)) t.watchId with
      ⟨hin, hl⟩ | ⟨w, hid, hg, ha, hf, hl⟩ | ⟨w, v, -, hg, -, hf, hl⟩
    · simp only [hl]
      exact .inl ⟨_, rfl, .orphanRetired found leftover.2 hin, rfl, rfl⟩
    · simp only [hl, bind, Except.bind]
      cases hn : numericColumn t.amount with
      | error e =>
          rw [numericColumn_eq] at hn
          split at hn
          · contradiction
          · next hlt =>
              cases hn
              exact .inr (.inl ⟨.inl (Nat.le_of_not_lt hlt), _, rfl⟩)
      | ok amount =>
          obtain ⟨-, hamount⟩ := numericColumn_ok hn
          simp only
          rcases insertEvent_cases ((tx.db.putTransfer (t.withStatus .orphaned)).putWatch w.bump) chain
            (.ofWatch w.bump) .paymentOrphaned (some (t.orphanedView amount)) with
            ⟨outbox, hi, he⟩ | ⟨⟨e, ht⟩, he⟩
          · simp only [he]
            exact .inl ⟨_, rfl, .orphan found leftover.2 leftover.1 hid ha hamount
              ⟨hg, hf, rfl, rfl, outbox, hi, rfl⟩, rfl, rfl⟩
          · simp only [he]
            exact .inr (.inr ⟨w, hg, ⟨w.nextEventSeq + 1, e, Nat.lt_succ_self _, ht⟩, trivial⟩)
    · simp only [hl]
      exact .inr (.inl ⟨.inr ⟨w, hg, hf⟩, v, rfl⟩)

/-- The leftovers are the pending rows at or below the upper end. -/
theorem mem_leftovers {t : Transfer} {chainId toBlock : Nat} :
    t ∈ leftovers db chainId toBlock ↔
      t ∈ db.transfers.rows ∧ t.chainId = chainId ∧ t.status = .pending ∧ t.blockNumber ≤ toBlock := by
  simp [leftovers, List.mem_insertionSort]

/-- The leftovers are rows of the table, each listed once. -/
theorem lists_leftovers (db : Db) (chainId toBlock : Nat) :
    db.transfers.Lists (Leftover chainId) (leftovers db chainId toBlock) := by
  refine .of_perm (List.perm_insertionSort _ _) List.filter_sublist fun t ht => ?_
  have hp := (List.mem_filter.mp ht).2
  simp only [decide_eq_true_eq] at hp
  exact ⟨hp.1, hp.2.1⟩

/-- Resolving a leftover settles its own row and no other. -/
theorem Step.transfers_resolve {db' : Db} {t : Transfer} {canonical : List (B256 × Nat)}
    (h : Step db (resolveAct canonical t) db') :
    db'.transfers = db.transfers.replace (t.resolved canonical) := by
  unfold resolveAct at h
  unfold Transfer.resolved
  split at h
  · next hc =>
      rw [if_pos hc]
      cases h
      rfl
  · next hc =>
      rw [if_neg hc]
      cases h with
      | orphanRetired _ _ _ => rfl
      | orphan _ _ _ _ _ _ post =>
          obtain ⟨outbox, -, rfl⟩ := post.posted
          rfl

/-- A leftover is ignored or orphaned. -/
theorem resolveAct_cases (canonical : List (B256 × Nat)) (t : Transfer) :
    resolveAct canonical t = .ignore t ∨ resolveAct canonical t = .orphan t := by
  unfold resolveAct
  split
  · exact .inl rfl
  · exact .inr rfl

/-- Resolving registers nothing. -/
theorem resolveAct_ne_register (canonical : List (B256 × Nat)) (t : Transfer) (w : Watch) :
    resolveAct canonical t ≠ .register w := by
  rcases resolveAct_cases canonical t with heq | heq <;> rw [heq] <;> exact Act.noConfusion

/-- One turn of the loop over the leftovers. -/
theorem resolveLeftover_ok {tx tx' : SweepTx} {canonical : List (B256 × Nat)} {t : Transfer}
    {ts : List Transfer} (hts : tx.db.transfers.Lists (Leftover chain.chainId) (t :: ts))
    (h : resolveLeftover chain canonical tx t = .ok tx') :
    Step tx.db (resolveAct canonical t) tx'.db ∧
      tx'.db.transfers.Lists (Leftover chain.chainId) ts ∧
      tx'.out.confirmed = tx.out.confirmed ∧ tx'.out.completed = tx.out.completed := by
  rcases resolveLeftover_cases chain canonical (hts.found t List.mem_cons_self)
    (hts.sat t List.mem_cons_self) with ⟨tx₁, he, hstep, hconf, hcompl⟩ | ⟨-, v, he⟩ | ⟨w, -, -, he⟩
  · rw [he] at h
    cases h
    exact ⟨hstep, by rw [hstep.transfers_resolve]; exact hts.tail rfl, hconf, hcompl⟩
  · rw [he] at h
    contradiction
  · rw [he] at h
    contradiction

/-- The loop over the leftovers resolves each of them. -/
theorem resolveAll_trace {tx tx' : SweepTx} {canonical : List (B256 × Nat)} {ts : List Transfer}
    (hts : tx.db.transfers.Lists (Leftover chain.chainId) ts)
    (h : ts.foldlM (resolveLeftover chain canonical) tx = .ok tx') :
    Trace Step tx.db (ts.map (resolveAct canonical)) tx'.db ∧
      tx'.out.confirmed = tx.out.confirmed ∧ tx'.out.completed = tx.out.completed := by
  induction ts generalizing tx with
  | nil =>
      cases h
      exact ⟨.nil _, rfl, rfl⟩
  | cons t ts ih =>
      rw [List.foldlM_cons] at h
      cases ht : resolveLeftover chain canonical tx t with
      | error e => rw [ht] at h; cases h
      | ok tx₁ =>
          rw [ht] at h
          obtain ⟨hstep, hrest, hconf, hcompl⟩ := resolveLeftover_ok hts ht
          obtain ⟨htr, hconf', hcompl'⟩ := ih hrest h
          exact ⟨.cons hstep htr, hconf'.trans hconf, hcompl'.trans hcompl⟩

/-- The two loops of the sweep's transaction. -/
theorem sweepTx_phases {cache : WatchCache} {discovered : List WatchKey} {toBlock : Nat}
    {logs : List Log} {tx : SweepTx} (h : sweepTx db chain cache discovered toBlock logs = .ok tx) :
    ∃ mid, (sweepMatches chain cache logs).foldlM (countConfirmed chain)
        { db, out := { discovered } } = .ok mid ∧
      (leftovers mid.db chain.chainId toBlock).foldlM
        (resolveLeftover chain (canonicalOf chain cache logs)) mid = .ok tx := by
  unfold sweepTx at h
  cases hc : (sweepMatches chain cache logs).foldlM (countConfirmed chain)
      { db, out := { discovered } } with
  | error e => rw [hc] at h; cases h
  | ok mid =>
      rw [hc] at h
      exact ⟨mid, rfl, h⟩

/-- **The sweep's transaction**: some of the matches are counted, in order,
and then every transfer still pending is resolved. -/
theorem sweepTx_trace {cache : WatchCache} {discovered : List WatchKey} {toBlock : Nat}
    {logs : List Log} {tx : SweepTx} (h : sweepTx db chain cache discovered toBlock logs = .ok tx) :
    ∃ mid cs, cs.Sublist (sweepMatches chain cache logs) ∧ tx.out.confirmed = cs ∧
      Trace Step db (cs.map (.count chain.chainId)) mid ∧
      Trace Step mid ((leftovers mid chain.chainId toBlock).map
        (resolveAct (canonicalOf chain cache logs))) tx.db := by
  obtain ⟨mid, hcount, hresolve⟩ := sweepTx_phases h
  obtain ⟨cs, hcs, hout, htr⟩ := countAll_trace hcount
  obtain ⟨htr', hconf, -⟩ := resolveAll_trace (lists_leftovers _ _ _) hresolve
  exact ⟨mid.db, cs, hcs, by rw [hconf, hout]; rfl, htr, htr'⟩

/-! ## Statements outside the accounts -/

/-- The volume is written, or the column cannot hold it. -/
theorem applyStats_cases (db : Db) (chainId : Nat) (token : Address) (d : StatsDelta) :
    (∃ stats, applyStats db chainId token d = .ok { db with stats }) ∨
      applyStats db chainId token d = .error (.db .numericOverflow) := by
  unfold applyStats
  simp only
  split
  · exact .inl ⟨_, rfl⟩
  · exact .inr rfl

/-- Writing the statistics leaves everything else alone. -/
theorem flushStats_frame {tx : SweepTx} {db' : Db} (h : flushStats chain tx = .ok db') :
    ∃ stats, db' = { tx.db with stats } := by
  refine foldlM_ok (fun _ db' => ∃ stats, db' = { tx.db with stats }) ?_ ⟨tx.db.stats, rfl⟩ h
  rintro e es _ db' ⟨stats, rfl⟩ hok
  rcases applyStats_cases { tx.db with stats } chain.chainId e.1 e.2 with ⟨stats', he⟩ | he
  · rw [he] at hok
    cases hok
    exact ⟨stats', rfl⟩
  · rw [he] at hok
    contradiction

/-- It fails for want of digits only. -/
theorem flushStats_error {tx : SweepTx} {e : StoreError} (h : flushStats chain tx = .error e) :
    e = .db .numericOverflow := by
  obtain ⟨i, _, db, -, hi⟩ := foldlM_error (fun _ _ => True) (fun _ _ _ _ _ _ => trivial) trivial h
  rcases applyStats_cases db chain.chainId i.1 i.2 with ⟨stats, he⟩ | he
  · rw [he] at hi
    contradiction
  · rw [he] at hi
    exact (Except.error.inj hi).symm

/-- Clearing the backfill marks is a trace of its own label. -/
theorem clearBackfills_trace (db : Db) (ids : List Uuid) :
    ∃ ws : List Watch, Trace Step db (ws.map .clearBackfill) (clearBackfills db ids) := by
  induction ids generalizing db with
  | nil => exact ⟨[], .nil _⟩
  | cons id ids ih =>
      obtain ⟨ws, htr⟩ := ih (setWatch db id Watch.backfilled)
      change ∃ ws : List Watch, Trace Step db (ws.map .clearBackfill)
        (clearBackfills (setWatch db id Watch.backfilled) ids)
      unfold setWatch at htr ⊢
      cases hg : db.watches.get? id with
      | none =>
          simp only [hg] at htr
          exact ⟨ws, htr⟩
      | some w =>
          simp only [hg] at htr
          obtain rfl := Table.key_of_get? hg
          exact ⟨w :: ws, .cons (.clearBackfill hg) htr⟩

/-- **The backfill's transaction**: some of the matches are counted, in order,
and then the marks are cleared. -/
theorem backfillTx_trace {backfills : List PendingBackfill} {logs : List Log} {tx : SweepTx}
    (h : backfillTx db chain backfills logs = .ok tx) :
    ∃ mid cs, cs.Sublist (backfillMatches chain backfills logs) ∧ tx.out.confirmed = cs ∧
      Trace Step db (cs.map (.count chain.chainId)) mid ∧
      tx.db = clearBackfills mid (backfills.map PendingBackfill.id) := by
  unfold backfillTx at h
  cases hc : (backfillMatches chain backfills logs).foldlM (countConfirmed chain) { db } with
  | error e => rw [hc] at h; cases h
  | ok tx₁ =>
      rw [hc] at h
      cases h
      obtain ⟨cs, hcs, hout, htr⟩ := countAll_trace hc
      exact ⟨tx₁.db, cs, hcs, hout, htr, rfl⟩

/-! ## The head path -/

/-- `recordPending` announces the transfer, changes nothing, or fails. -/
theorem recordPending_cases (db : Db) (chain : ChainSpec) (m : MatchedTransfer) :
    (∃ db', recordPending db chain m = .ok (true, db') ∧
        Step db (.announce chain.chainId m) db') ∨
      recordPending db chain m = .ok (false, db) ∨
      (∃ v, recordPending db chain m = .error (.corrupt v)) ∨
      ∃ w, db.watches.get? w.id = some w ∧ db.SeqTaken w ∧
        recordPending db chain m = .error seqViolation := by
  unfold recordPending
  rcases lockActiveWatch_cases db m.watch.id with
    ⟨-, hl⟩ | ⟨w, hid, hg, ha, hf, hl⟩ | ⟨w, v, -, -, -, -, hl⟩
  · rw [hl]
    exact .inr (.inl rfl)
  · simp only [hl, bind, Except.bind, WatchRow.id_ofWatch, Watch.id_bump, Db.transfers_putWatch]
    cases hi : db.transfers.insertNew (m.row chain.chainId w.id .pending) with
    | none => exact .inr (.inl rfl)
    | some transfers =>
        simp only
        rcases insertEvent_cases ((db.putWatch w.bump).withTransfers transfers) chain
          (.ofWatch w.bump) .paymentPending (some (transferView m .pending)) with
          ⟨outbox, ho, he⟩ | ⟨⟨e, ht⟩, he⟩
        · simp only [he]
          exact .inl ⟨_, rfl, .announce hid ha hi ⟨hg, hf, rfl, rfl, outbox, ho, rfl⟩⟩
        · simp only [he]
          exact .inr (.inr (.inr ⟨w, hg, ⟨w.nextEventSeq + 1, e, Nat.lt_succ_self _, ht⟩, trivial⟩))
  · rw [hl]
    exact .inr (.inr (.inl ⟨v, rfl⟩))

/-! ## Registration and retirement -/

/-- A registration that commits has inserted its row, or found an active watch
on the target. -/
theorem commitWatch_cases {seq : Nat} {id : Uuid} {new : NewWatch} {out : CreateOutcome} {db' : Db}
    (h : commitWatch db seq id new = .ok (out, db')) :
    ∃ cur row, db.cursors.get? new.chainId = some cur ∧
      row = new.row id seq cur.confirmedBlock db.now ∧ row.threshold ≠ 0 ∧
      ((∃ watches, db.activeOn new.chainId new.tokenAddress new.paymentAddress = none ∧
          db.watches.insertNew row = some watches ∧ out = .created (.ofWatch row) ∧
          db' = { db with watches }) ∨
        ∃ found, db.activeOn new.chainId new.tokenAddress new.paymentAddress = some found ∧
          out = (if (WatchRow.ofWatch found).threshold = new.threshold ∧
              (WatchRow.ofWatch found).webhookUrl = new.webhookUrl then
            .existing (.ofWatch found) else .conflict (.ofWatch found)) ∧
          db' = db) := by
  unfold commitWatch at h
  cases hcur : db.cursors.get? new.chainId with
  | none => simp only [hcur] at h; contradiction
  | some cur =>
      simp only [hcur] at h
      refine ⟨cur, _, rfl, rfl, ?_⟩
      by_cases hz : (new.row id seq cur.confirmedBlock db.now).threshold = 0
      · rw [if_pos hz] at h
        contradiction
      rw [if_neg hz] at h
      refine ⟨hz, ?_⟩
      cases hfree : db.activeOn new.chainId new.tokenAddress new.paymentAddress with
      | none =>
          simp only [hfree] at h
          cases hi : db.watches.insertNew (new.row id seq cur.confirmedBlock db.now) with
          | none => simp only [hi] at h; contradiction
          | some watches =>
              simp only [hi] at h
              rcases WatchRow.fromRow_cases (new.row id seq cur.confirmedBlock db.now)
                with ⟨-, hr⟩ | ⟨-, v, hr⟩
              · rw [hr] at h
                cases h
                exact .inl ⟨watches, rfl, rfl, rfl, rfl⟩
              · rw [hr] at h
                contradiction
      | some found =>
          simp only [hfree] at h
          rcases WatchRow.fromRow_cases found with ⟨-, hr⟩ | ⟨-, v, hr⟩
          · simp only [hr, bind, Except.bind] at h
            refine .inr ⟨found, rfl, ?_⟩
            split at h
            · next heq => cases h; exact ⟨(if_pos heq).symm, rfl⟩
            · next heq => cases h; exact ⟨(if_neg heq).symm, rfl⟩
          · rw [hr] at h
            contradiction

/-- The outcome of a registration that found an active watch. -/
theorem not_created_of_found {found w : WatchRow} {new : NewWatch} {out : CreateOutcome}
    (h : out = (if found.threshold = new.threshold ∧ found.webhookUrl = new.webhookUrl then
      .existing found else .conflict found)) : out ≠ .created w := by
  rintro rfl
  split at h <;> contradiction

/-- `createWatch` is a registration under the next number, or leaves the
watches as they are. -/
theorem createWatch_ok {id : Uuid} {new : NewWatch} {out : CreateOutcome} {db' : Db}
    (h : createWatch db id new = .ok (out, db')) :
    (∃ cur, db.cursors.get? new.chainId = some cur ∧
        out = .created (.ofWatch (new.row id (db.watchesSeq + 1) cur.confirmedBlock db.now)) ∧
        Step db (.register (new.row id (db.watchesSeq + 1) cur.confirmedBlock db.now)) db') ∨
      (∀ w, out ≠ .created w) ∧ db' = { db with watchesSeq := db.watchesSeq + 1 } := by
  obtain ⟨cur, row, hcur, rfl, hz, ⟨watches, hfree, hi, hout, rfl⟩ | ⟨found, -, hout, hdb⟩⟩ :=
    commitWatch_cases h
  · refine .inl ⟨cur, hcur, hout, ?_⟩
    have hstep : Step db _ _ := Step.register hcur hz hfree (.inl (Nat.lt_succ_self _)) hi
    rw [Nat.max_eq_right (Nat.le_succ _)] at hstep
    exact hstep
  · exact .inr ⟨fun w => not_created_of_found hout, hdb⟩

/-- A registration that commits under a number drawn before. -/
theorem commitWatch_ok {seq : Nat} {id : Uuid} {new : NewWatch} {out : CreateOutcome} {db' : Db}
    (drawn : db.Drawn seq) (h : commitWatch db seq id new = .ok (out, db')) :
    (∃ cur, db.cursors.get? new.chainId = some cur ∧
        out = .created (.ofWatch (new.row id seq cur.confirmedBlock db.now)) ∧
        Step db (.register (new.row id seq cur.confirmedBlock db.now)) db') ∨
      (∀ w, out ≠ .created w) ∧ db' = db := by
  obtain ⟨cur, row, hcur, rfl, hz, ⟨watches, hfree, hi, hout, rfl⟩ | ⟨found, -, hout, hdb⟩⟩ :=
    commitWatch_cases h
  · refine .inl ⟨cur, hcur, hout, ?_⟩
    have hstep := Step.register hcur hz hfree (.inr drawn.2.2) hi
    rw [Nat.max_eq_left drawn.2.1] at hstep
    exact hstep
  · exact .inr ⟨fun w => not_created_of_found hout, hdb⟩

/-- The operation is a `create_watch` that binds this id. -/
def Op.Creates (id : Uuid) (new : NewWatch) : Op → Prop
  | .createWatch id' new' => id' = id ∧ new' = new
  | .commitWatch _ id' new' => id' = id ∧ new' = new
  | _ => False

/-- The operation is a `create_watch` that has drawn the number `seq`, returns
`out` and commits `db'`. -/
inductive Registers (db : Db) (id : Uuid) (new : NewWatch) (seq : Nat) (out : CreateOutcome)
    (db' : Db) : Op → Prop
  | create (next : seq = db.watchesSeq + 1) (committed : createWatch db id new = .ok (out, db')) :
      Registers db id new seq out db' (.createWatch id new)
  | commit (drawn : db.Drawn seq) (committed : commitWatch db seq id new = .ok (out, db')) :
      Registers db id new seq out db' (.commitWatch seq id new)

/-- An operation that registers a watch does it, or changes nothing. -/
theorem exec_creates {op : Op} {id : Uuid} {new : NewWatch} (h : op.Creates id new) (db : Db) :
    exec db op = db ∨ ∃ seq out, Registers db id new seq out (exec db op) op := by
  cases op <;> try contradiction
  · obtain ⟨rfl, rfl⟩ := h
    simp only [exec]
    cases hc : createWatch db _ _ with
    | error e => exact .inl rfl
    | ok r => exact .inr ⟨_, r.1, .create rfl hc⟩
  · obtain ⟨rfl, rfl⟩ := h
    simp only [exec]
    split
    · next drawn =>
        cases hc : commitWatch db _ _ _ with
        | error e => exact .inl rfl
        | ok r => exact .inr ⟨_, r.1, .commit drawn hc⟩
    · exact .inl rfl

/-- A registration inserts its row, or leaves everything but the sequence as it
is. -/
theorem Registers.cases {op : Op} {id : Uuid} {new : NewWatch} {seq : Nat} {out : CreateOutcome}
    {db' : Db} (h : Registers db id new seq out db' op) :
    (∃ cur, db.cursors.get? new.chainId = some cur ∧
        out = .created (.ofWatch (new.row id seq cur.confirmedBlock db.now)) ∧
        Step db (.register (new.row id seq cur.confirmedBlock db.now)) db') ∨
      (∀ w, out ≠ .created w) ∧ ∃ watchesSeq, db' = { db with watchesSeq } := by
  cases h with
  | create next committed =>
      subst next
      exact (createWatch_ok committed).imp_right fun h => ⟨h.1, _, h.2⟩
  | commit drawn committed =>
      exact (commitWatch_ok drawn committed).imp_right fun h => ⟨h.1, db.watchesSeq, h.2⟩

/-- Expiring an active watch, all outcomes. -/
theorem expireOne_cases (chain : ChainSpec) {acc : List WatchRow × Db} {w : Watch}
    (found : acc.2.watches.get? w.id = some w) (active : w.status = .active) :
    (∃ acc', expireOne chain acc w = .ok acc' ∧ Step acc.2 (.expire w) acc'.2) ∨
      (∃ v, expireOne chain acc w = .error (.corrupt v)) ∨
      (acc.2.SeqTaken w ∧ expireOne chain acc w = .error seqViolation) := by
  unfold expireOne
  rcases WatchRow.fromRow_cases (w.bump.withStatus .expired acc.2.now) with ⟨hf, hr⟩ | ⟨-, v, hr⟩
  · simp only [hr, bind, Except.bind]
    rcases insertEvent_cases (acc.2.putWatch (w.bump.withStatus .expired acc.2.now)) chain
      (.ofWatch (w.bump.withStatus .expired acc.2.now)) .watchExpired none with
      ⟨outbox, hi, he⟩ | ⟨⟨e, ht⟩, he⟩
    · simp only [he]
      exact .inl ⟨_, rfl, .expire active ⟨found, hf, rfl, rfl, outbox, hi, rfl⟩⟩
    · simp only [he]
      exact .inr (.inr ⟨⟨w.nextEventSeq + 1, e, Nat.lt_succ_self _, ht⟩, trivial⟩)
  · simp only [hr]
    exact .inr (.inl ⟨v, rfl⟩)

/-- An expiry changes the row of its watch. -/
theorem Step.watches_expire {db' : Db} {w : Watch} (h : Step db (.expire w) db') :
    db'.watches = db.watches.replace (w.retire .expired db.now) := by
  cases h with
  | expire _ post =>
      obtain ⟨outbox, -, rfl⟩ := post.posted
      rfl

/-- The overdue watches are rows of the table, each listed once. -/
theorem lists_overdueWatches (db : Db) (chain : ChainSpec) (limit : Nat) (locked : Uuid → Bool) :
    db.watches.Lists (fun w => w.status = .active) (overdueWatches db chain limit locked) := by
  unfold overdueWatches
  refine Table.Lists.sublist ?_ (List.take_sublist limit _)
  refine .of_perm (List.perm_insertionSort _ _) List.filter_sublist fun w hw => ?_
  have hp := (List.mem_filter.mp hw).2
  simp only [decide_eq_true_eq] at hp
  exact hp.2.1

/-- One turn of the loop expires one watch, and the rest is still active. -/
theorem expireOne_ok {acc acc' : List WatchRow × Db} {w : Watch} {ws : List Watch}
    (hws : acc.2.watches.Lists (fun w => w.status = .active) (w :: ws))
    (h : expireOne chain acc w = .ok acc') :
    Step acc.2 (.expire w) acc'.2 ∧ acc'.2.watches.Lists (fun w => w.status = .active) ws := by
  rcases expireOne_cases chain (hws.found w List.mem_cons_self) (hws.sat w List.mem_cons_self)
    with ⟨acc₁, he, hstep⟩ | ⟨v, he⟩ | ⟨-, he⟩
  · rw [he] at h
    cases h
    exact ⟨hstep, by rw [hstep.watches_expire]; exact hws.tail rfl⟩
  · rw [he] at h
    contradiction
  · rw [he] at h
    contradiction

/-- The loop expires every watch of its list. -/
theorem expireAll_trace {acc acc' : List WatchRow × Db} {ws : List Watch}
    (hws : acc.2.watches.Lists (fun w => w.status = .active) ws)
    (h : ws.foldlM (expireOne chain) acc = .ok acc') :
    Trace Step acc.2 (ws.map .expire) acc'.2 := by
  induction ws generalizing acc with
  | nil =>
      cases h
      exact .nil _
  | cons w ws ih =>
      rw [List.foldlM_cons] at h
      cases hw : expireOne chain acc w with
      | error e => rw [hw] at h; cases h
      | ok acc₁ =>
          rw [hw] at h
          obtain ⟨hstep, hrest⟩ := expireOne_ok hws hw
          exact .cons hstep (ih hrest h)

/-! ## Operations are traces -/

/-- The steps an operation may be made of. -/
def Op.Allows (db : Db) : Op → Act → Prop
  | _, .other => True
  | .createWatch _ _, .register _ => True
  | .commitWatch _ _ _, .register _ => True
  | .cancelWatch _, .cancel _ => True
  | .expireWatches _ _ _, .expire _ => True
  | .recordPending chain m, .announce chainId m' => chainId = chain.chainId ∧ m' = m
  | .applySweep chain cache _ _ logs, .count chainId m =>
      chainId = chain.chainId ∧ m ∈ sweepMatches chain (deltaLoad db chain cache).1 logs
  | .applySweep _ _ _ _ _, .ignore _ => True
  | .applySweep chain cache expectedCursor toBlock logs, .orphan t =>
      db.cursors.get? chain.chainId = some ⟨chain.chainId, expectedCursor⟩ ∧
        t.chainId = chain.chainId ∧ t.blockNumber ≤ toBlock ∧
        (t.blockHash, t.logIndex) ∉ canonicalOf chain (deltaLoad db chain cache).1 logs
  | .applySweep _ _ _ _ _, .moveCursor => True
  | .ensureCursor _ _, .moveCursor => True
  | .fastForwardCursor _ _, .moveCursor => True
  | .applyBackfill chain _ backfills logs, .count chainId m =>
      chainId = chain.chainId ∧ m ∈ backfillMatches chain backfills logs
  | .applyBackfill _ _ _ _, .clearBackfill _ => True
  | _, _ => False

/-- Only `create_watch` registers. -/
theorem Op.Allows.of_register {op : Op} {w : Watch} (h : op.Allows db (.register w)) :
    ∃ id new, op.Creates id new := by
  cases op with
  | createWatch id new => exact ⟨id, new, rfl, rfl⟩
  | commitWatch seq id new => exact ⟨id, new, rfl, rfl⟩
  | _ => exact h.elim

theorem Registers.creates {op : Op} {id : Uuid} {new : NewWatch} {seq : Nat} {out : CreateOutcome}
    {db' : Db} (h : Registers db id new seq out db' op) : op.Creates id new := by
  cases h <;> exact ⟨rfl, rfl⟩

/-- A registration moves no cursor. -/
theorem Registers.not_moves {op : Op} {id : Uuid} {new : NewWatch} {seq : Nat} {out : CreateOutcome}
    {db' : Db} (h : Registers db id new seq out db' op) : ¬ op.Allows db .moveCursor := by
  cases h <;> exact fun moves => moves

/-- What is counted is credited. -/
theorem credits_map_count (chainId : Nat) (cs : List MatchedTransfer) :
    (cs.map (Act.count chainId)).flatMap Act.credits = cs.map (·.toCredit chainId) := by
  induction cs with
  | nil => rfl
  | cons c cs ih => rw [List.map_cons, List.flatMap_cons, ih]; rfl

/-- What is resolved is not credited. -/
theorem credits_map_resolve (canonical : List (B256 × Nat)) (ts : List Transfer) :
    (ts.map (resolveAct canonical)).flatMap Act.credits = [] := by
  rw [List.flatMap_eq_nil_iff]
  intro a ha
  obtain ⟨t, -, rfl⟩ := List.mem_map.mp ha
  rcases resolveAct_cases canonical t with h | h <;> rw [h] <;> rfl

/-- What follows the delta load, in its two outcomes. -/
theorem sweepRest_cases (db : Db) (chain : ChainSpec) (cache : WatchCache) (discovered : List WatchKey)
    (toBlock : Nat) (logs : List Log) :
    (∃ tx db', sweepTx db chain cache discovered toBlock logs = .ok tx ∧ flushStats chain tx = .ok db' ∧
        sweepRest db chain cache discovered toBlock logs =
          .ok (tx.out, setCursor db' chain.chainId toBlock)) ∨
      ∃ e, (sweepTx db chain cache discovered toBlock logs = .error e ∨
          ∃ tx, sweepTx db chain cache discovered toBlock logs = .ok tx ∧
            flushStats chain tx = .error e) ∧
        sweepRest db chain cache discovered toBlock logs = .error e := by
  unfold sweepRest
  cases htx : sweepTx db chain cache discovered toBlock logs with
  | error e => exact .inr ⟨e, .inl rfl, rfl⟩
  | ok tx =>
      cases hflush : flushStats chain tx with
      | ok db' =>
          refine .inl ⟨tx, db', rfl, hflush, ?_⟩
          simp only [bind, Except.bind, hflush]
          rfl
      | error e =>
          refine .inr ⟨e, .inr ⟨tx, rfl, hflush⟩, ?_⟩
          simp only [bind, Except.bind, hflush]

/-- The sweep, from its arguments. -/
theorem applySweep_cases (db : Db) (chain : ChainSpec) (cache : WatchCache)
    (expectedCursor toBlock : Nat) (logs : List Log) :
    (∃ tx db', db.cursors.get? chain.chainId = some ⟨chain.chainId, expectedCursor⟩ ∧
        sweepTx db chain (deltaLoad db chain cache).1 (deltaLoad db chain cache).2 toBlock logs =
          .ok tx ∧
        flushStats chain tx = .ok db' ∧
        applySweep db chain cache expectedCursor toBlock logs =
          (evictCompleted (deltaLoad db chain cache).1 tx.out,
            .ok (.applied tx.out, setCursor db' chain.chainId toBlock))) ∨
      (∃ actual, actual ≠ expectedCursor ∧
        applySweep db chain cache expectedCursor toBlock logs =
          (cache, .ok (.cursorMoved expectedCursor actual, db))) ∨
      applySweep db chain cache expectedCursor toBlock logs =
        (cache, .error (.missingCursor chain.chainId)) ∨
      ∃ e, (sweepTx db chain (deltaLoad db chain cache).1 (deltaLoad db chain cache).2 toBlock logs =
            .error e ∨
          ∃ tx, sweepTx db chain (deltaLoad db chain cache).1 (deltaLoad db chain cache).2 toBlock
            logs = .ok tx ∧ flushStats chain tx = .error e) ∧
        applySweep db chain cache expectedCursor toBlock logs =
          ((deltaLoad db chain cache).1, .error e) := by
  unfold applySweep
  cases hcur : db.cursors.get? chain.chainId with
  | none => exact .inr (.inr (.inl rfl))
  | some cur =>
      have hkey := Table.key_of_get? hcur
      by_cases hne : cur.confirmedBlock ≠ expectedCursor
      · simp only [if_pos hne]
        exact .inr (.inl ⟨cur.confirmedBlock, hne, rfl⟩)
      · obtain rfl := not_not.mp hne
        obtain ⟨c, b⟩ := cur
        obtain rfl : c = chain.chainId := hkey
        simp only [ne_eq, not_true_eq_false, if_false]
        rcases sweepRest_cases db chain (deltaLoad db chain cache).1 (deltaLoad db chain cache).2 toBlock
          logs with ⟨tx, db', htx, hflush, he⟩ | ⟨e, hcause, he⟩
        · exact .inl ⟨tx, db', trivial, htx, hflush, by rw [he]⟩
        · exact .inr (.inr (.inr ⟨e, hcause, by rw [he]⟩))

/-- The backfill, from its arguments. -/
theorem applyBackfill_cases (db : Db) (chain : ChainSpec) (cache : WatchCache)
    (backfills : List PendingBackfill) (logs : List Log) :
    (∃ tx db', backfillTx db chain backfills logs = .ok tx ∧ flushStats chain tx = .ok db' ∧
        applyBackfill db chain cache backfills logs =
          (evictCompleted cache tx.out, .ok (tx.out, db'))) ∨
      ∃ e, (backfillTx db chain backfills logs = .error e ∨
          ∃ tx, backfillTx db chain backfills logs = .ok tx ∧ flushStats chain tx = .error e) ∧
        applyBackfill db chain cache backfills logs = (cache, .error e) := by
  unfold applyBackfill
  cases htx : backfillTx db chain backfills logs with
  | error e => exact .inr ⟨e, .inl rfl, rfl⟩
  | ok tx =>
      cases hflush : flushStats chain tx with
      | ok db' =>
          refine .inl ⟨tx, db', rfl, hflush, ?_⟩
          simp only [bind, Except.bind, hflush]
          rfl
      | error e =>
          refine .inr ⟨e, .inr ⟨tx, rfl, hflush⟩, ?_⟩
          simp only [bind, Except.bind, hflush]

/-- What `exec_trace` says about one operation. -/
def TracedBy (db : Db) (op : Op) : Prop :=
  ∃ acts, Trace Step db acts (exec db op) ∧ acts.flatMap Act.credits = creditsOf db op ∧
    ∀ a ∈ acts, op.Allows db a

/-- An operation that changed nothing. -/
theorem TracedBy.idle {op : Op} (h : exec db op = db) (hc : creditsOf db op = []) :
    TracedBy db op := by
  refine ⟨[], ?_, hc.symm, by simp⟩
  rw [h]
  exact .nil _

/-- An operation that is one step without credits. -/
theorem TracedBy.single {op : Op} {a : Act} (h : Step db a (exec db op)) (ha : a.credits = [])
    (hc : creditsOf db op = []) (hallow : op.Allows db a) : TracedBy db op := by
  refine ⟨[a], .single h, ?_, by simpa using hallow⟩
  simp [ha, hc]

/-- A sweep takes the steps it is allowed. -/
theorem applySweep_trace (db : Db) (chain : ChainSpec) (cache : WatchCache)
    (expectedCursor toBlock : Nat) (logs : List Log) :
    TracedBy db (.applySweep chain cache expectedCursor toBlock logs) := by
  rcases applySweep_cases db chain cache expectedCursor toBlock logs with
    ⟨tx, db', hcur, htx, hflush, he⟩ | ⟨actual, -, he⟩ | he | ⟨e, -, he⟩
  · obtain ⟨mid, cs, hcs, hout, htr, htr'⟩ := sweepTx_trace htx
    obtain ⟨stats, rfl⟩ := flushStats_frame hflush
    simp only [TracedBy, exec, creditsOf, he, committed]
    refine ⟨_, (htr.append htr').append (.single (a := .moveCursor) ?_), ?_, ?_⟩
    · exact .moveCursor rfl rfl rfl rfl
    · simp only [List.flatMap_append, credits_map_count, credits_map_resolve, hout]
      simp [Act.credits]
    · intro a ha
      simp only [List.mem_append, List.mem_map, List.mem_singleton] at ha
      rcases ha with (⟨m, hm, rfl⟩ | ⟨t, ht, rfl⟩) | rfl
      · exact ⟨rfl, hcs.mem hm⟩
      · obtain ⟨-, hchain, -, hblock⟩ := mem_leftovers.mp ht
        unfold resolveAct
        split
        · trivial
        · next hout => exact ⟨hcur, hchain, hblock, hout⟩
      · trivial
  all_goals exact .idle (by simp only [exec, he, committed]) (by simp only [creditsOf, he])

/-- And so does a backfill. -/
theorem applyBackfill_trace (db : Db) (chain : ChainSpec) (cache : WatchCache)
    (backfills : List PendingBackfill) (logs : List Log) :
    TracedBy db (.applyBackfill chain cache backfills logs) := by
  rcases applyBackfill_cases db chain cache backfills logs with
    ⟨tx, db', htx, hflush, he⟩ | ⟨e, -, he⟩
  · obtain ⟨mid, cs, hcs, hout, htr, hdb⟩ := backfillTx_trace htx
    obtain ⟨ws, htr'⟩ := clearBackfills_trace mid (backfills.map PendingBackfill.id)
    obtain ⟨stats, rfl⟩ := flushStats_frame hflush
    rw [← hdb] at htr'
    simp only [TracedBy, exec, creditsOf, he, committed]
    refine ⟨_, (htr.append htr').append (.single (a := .other) ?_), ?_, ?_⟩
    · exact .other rfl rfl rfl rfl (Nat.le_refl _)
    · simp only [List.flatMap_append, credits_map_count, hout]
      simp [Act.credits]
    · intro a ha
      simp only [List.mem_append, List.mem_map, List.mem_singleton] at ha
      rcases ha with (⟨m, hm, rfl⟩ | ⟨w, -, rfl⟩) | rfl
      · exact ⟨rfl, hcs.mem hm⟩
      · trivial
      · trivial
  · exact .idle (by simp only [exec, he, committed]) (by simp only [creditsOf, he])

/-- **Every operation is a trace of primitive steps**: those it allows, with
the transfers it reports as counted for credits. -/
theorem exec_trace (db : Db) (op : Op) : TracedBy db op := by
  cases op with
  | ensureCursor chainId head =>
      refine .single (a := .moveCursor) ?_ rfl rfl trivial
      simp only [exec, ensureCursor]
      split <;> exact .moveCursor rfl rfl rfl rfl
  | createWatch id new =>
      cases h : createWatch db id new with
      | error e => exact .idle (by simp only [exec, h, committed]) rfl
      | ok r =>
          obtain ⟨out, db'⟩ := r
          have hexec : exec db (.createWatch id new) = db' := by simp only [exec, h, committed]
          rcases createWatch_ok h with ⟨cur, -, -, hstep⟩ | ⟨-, hdb⟩
          · rw [← hexec] at hstep
            exact .single hstep rfl rfl trivial
          · refine .single (a := .other) ?_ rfl rfl trivial
            rw [hexec, hdb]
            exact .other rfl rfl rfl rfl (Nat.le_succ _)
  | commitWatch seq id new =>
      by_cases drawn : db.Drawn seq
      · cases h : commitWatch db seq id new with
        | error e => exact .idle (by simp only [exec, h, committed, ite_self]) rfl
        | ok r =>
            obtain ⟨out, db'⟩ := r
            have hexec : exec db (.commitWatch seq id new) = db' := by
              simp only [exec, if_pos drawn, h, committed]
            rcases commitWatch_ok drawn h with ⟨cur, -, -, hstep⟩ | ⟨-, hdb⟩
            · rw [← hexec] at hstep
              exact .single hstep rfl rfl trivial
            · exact .idle (hexec.trans hdb) rfl
      · exact .idle (by simp only [exec, if_neg drawn]) rfl
  | cancelWatch id =>
      cases hg : db.watches.get? id with
      | none => exact .idle (by simp only [exec, cancelWatch, hg]) rfl
      | some w =>
          obtain rfl := Table.key_of_get? hg
          by_cases ha : w.status = .active
          · refine .single (a := .cancel w) ?_ rfl rfl trivial
            simp only [exec, cancelWatch, hg, if_pos ha]
            exact .cancel hg ha
          · exact .idle (by simp only [exec, cancelWatch, hg, if_neg ha]) rfl
  | expireWatches chain limit locked =>
      cases h : (overdueWatches db chain limit locked).foldlM (expireOne chain) ([], db) with
      | error e => exact .idle (by simp only [exec, expireWatches, h, committed]) rfl
      | ok r =>
          refine ⟨(overdueWatches db chain limit locked).map .expire, ?_, ?_, ?_⟩
          · simp only [exec, expireWatches, h, committed]
            exact expireAll_trace (lists_overdueWatches db chain limit locked) h
          · simp [Act.credits, creditsOf]
          · intro a ha
            obtain ⟨w, -, rfl⟩ := List.mem_map.mp ha
            trivial
  | recordPending chain m =>
      rcases recordPending_cases db chain m with ⟨db', he, hstep⟩ | he | ⟨v, he⟩ | ⟨w, -, -, he⟩
      · refine .single (a := .announce chain.chainId m) ?_ rfl rfl ⟨rfl, rfl⟩
        simp only [exec, he, committed]
        exact hstep
      all_goals exact .idle (by simp only [exec, he, committed]) rfl
  | applySweep chain cache expectedCursor toBlock logs =>
      exact applySweep_trace db chain cache expectedCursor toBlock logs
  | applyBackfill chain cache backfills logs => exact applyBackfill_trace db chain cache backfills logs
  | fastForwardCursor chainId target =>
      refine .single (a := .moveCursor) ?_ rfl rfl trivial
      simp only [exec, fastForwardCursor]
      cases db.cursors.get? chainId with
      | none => exact .moveCursor rfl rfl rfl rfl
      | some cur =>
          simp only [committed]
          split <;> exact .moveCursor rfl rfl rfl rfl
  | tick elapsed => exact .single (a := .other) (.other rfl rfl rfl rfl (Nat.le_refl _)) rfl rfl trivial
  | draw drawn =>
      exact .single (a := .other) (.other rfl rfl rfl rfl (Nat.le_add_right _ _)) rfl rfl trivial

/-- What every primitive step preserves, every operation preserves. -/
theorem exec_invariant (Inv : Db → Prop) (hstep : ∀ db a db', Step db a db' → Inv db → Inv db')
    {db : Db} (h : Inv db) (op : Op) : Inv (exec db op) := by
  obtain ⟨acts, htr, -⟩ := exec_trace db op
  exact htr.invariant Inv hstep h

/-- What holds initially and is preserved by every primitive step holds in
every reachable database. -/
theorem reachable_invariant (Inv : Db → Prop) (hstep : ∀ db a db', Step db a db' → Inv db → Inv db')
    (h : Inv Db.empty) (ops : List Op) : Inv (run exec Db.empty ops) :=
  invariant_run Inv (fun _ op hdb => exec_invariant Inv hstep hdb op) h ops

/-! ## Errors -/

theorem corrupt_ne_seqViolation (v : BigDecimal) : StoreError.corrupt v ≠ seqViolation :=
  StoreError.noConfusion

/-- Reading a row violates no uniqueness. -/
theorem fromRow_ne_seqViolation (w : Watch) : WatchRow.fromRow w ≠ .error seqViolation := by
  intro he
  rcases WatchRow.fromRow_cases w with ⟨-, hr⟩ | ⟨-, v, hr⟩
  · rw [hr] at he
    contradiction
  · rw [hr] at he
    exact corrupt_ne_seqViolation v (Except.error.inj he)

/-- Nor does inserting a watch. -/
theorem commitWatch_ne_seqViolation (db : Db) (seq : Nat) (id : Uuid) (new : NewWatch) :
    commitWatch db seq id new ≠ .error seqViolation := by
  have hbind : ∀ {β : Type} {w : Watch} {f : WatchRow → Except StoreError β},
      (∀ r, f r ≠ .error seqViolation) → (WatchRow.fromRow w >>= f) ≠ .error seqViolation := by
    intro β w f hf he
    cases hr : WatchRow.fromRow w with
    | ok r => rw [hr] at he; exact hf r he
    | error e =>
        rw [hr] at he
        cases he
        exact fromRow_ne_seqViolation w hr
  unfold commitWatch
  split
  · simp [seqViolation]
  · simp only
    split
    · simp [seqViolation]
    · split
      · split
        · simp [seqViolation]
        · exact hbind fun r => by simp [pure, Except.pure]
      · exact hbind fun r => by split <;> simp [pure, Except.pure]

section Errors

variable {Inv : Db → Prop} (hstep : ∀ db a db', Step db a db' → Inv db → Inv db')
  (hfree : ∀ db w, Inv db → db.watches.get? w.id = some w → ¬ db.SeqTaken w)

include hstep hfree

/-- Counting finds every event number free. -/
theorem countAll_ne_seqViolation {tx : SweepTx} {ms : List MatchedTransfer} (h : Inv tx.db) :
    ms.foldlM (countConfirmed chain) tx ≠ .error seqViolation := by
  intro he
  obtain ⟨m, _, t, hinv, hm⟩ := foldlM_error (fun _ tx => Inv tx.db) (fun m _ s s' hs hok => by
    obtain ⟨cs, -, -, htr⟩ := (countConfirmed_ok hok).trace
    exact htr.invariant Inv hstep hs) h he
  rcases countConfirmed_cases chain t m with ⟨tx', -, ho⟩ | ⟨w, -, hg, -, ⟨-, v, ho⟩ | ⟨ht, -⟩⟩
  · rw [ho] at hm
    contradiction
  · rw [ho] at hm
    exact corrupt_ne_seqViolation v (Except.error.inj hm)
  · exact hfree t.db w hinv hg ht

/-- Resolving does so, too. -/
theorem resolveAll_ne_seqViolation {tx : SweepTx} {canonical : List (B256 × Nat)}
    {ts : List Transfer} (hts : tx.db.transfers.Lists (Leftover chain.chainId) ts)
    (h : Inv tx.db) : ts.foldlM (resolveLeftover chain canonical) tx ≠ .error seqViolation := by
  intro he
  obtain ⟨t, rest, tx₁, ⟨hinv, hlist⟩, ht⟩ := foldlM_error
    (fun rest tx => Inv tx.db ∧ tx.db.transfers.Lists (Leftover chain.chainId) rest)
    (fun t rest s s' hs hok => by
      obtain ⟨hst, hrest, -⟩ := resolveLeftover_ok hs.2 hok
      exact ⟨hstep _ _ _ hst hs.1, hrest⟩) ⟨h, hts⟩ he
  rcases resolveLeftover_cases chain canonical (hlist.found t List.mem_cons_self)
    (hlist.sat t List.mem_cons_self) with ⟨tx', ho, -⟩ | ⟨-, v, ho⟩ | ⟨w, hg, htaken, -⟩
  · rw [ho] at ht
    contradiction
  · rw [ho] at ht
    exact corrupt_ne_seqViolation v (Except.error.inj ht)
  · exact hfree tx₁.db w hinv hg htaken

/-- So does a sweep as a whole. -/
theorem sweepTx_ne_seqViolation {cache : WatchCache} {discovered : List WatchKey} {toBlock : Nat}
    {logs : List Log} (h : Inv db) :
    sweepTx db chain cache discovered toBlock logs ≠ .error seqViolation := by
  unfold sweepTx
  cases hc : (sweepMatches chain cache logs).foldlM (countConfirmed chain)
      { db, out := { discovered } } with
  | error e =>
      intro he
      exact countAll_ne_seqViolation hstep hfree h (hc.trans he)
  | ok tx₁ =>
      obtain ⟨cs, -, -, htr⟩ := countAll_trace hc
      exact resolveAll_ne_seqViolation hstep hfree (lists_leftovers _ _ _)
        (htr.invariant Inv hstep h)

/-- And so does an expiry. -/
theorem expireAll_ne_seqViolation {acc : List WatchRow × Db} {ws : List Watch}
    (hws : acc.2.watches.Lists (fun w => w.status = .active) ws) (h : Inv acc.2) :
    ws.foldlM (expireOne chain) acc ≠ .error seqViolation := by
  intro he
  obtain ⟨w, rest, acc₁, ⟨hinv, hlist⟩, hw⟩ := foldlM_error
    (fun rest (acc : List WatchRow × Db) =>
      Inv acc.2 ∧ acc.2.watches.Lists (fun w => w.status = .active) rest)
    (fun w rest s s' hs hok => by
      obtain ⟨hst, hrest⟩ := expireOne_ok hs.2 hok
      exact ⟨hstep _ _ _ hst hs.1, hrest⟩) ⟨h, hws⟩ he
  have found := hlist.found w List.mem_cons_self
  rcases expireOne_cases chain found (hlist.sat w List.mem_cons_self) with
    ⟨acc', ho, -⟩ | ⟨v, ho⟩ | ⟨htaken, -⟩
  · rw [ho] at hw
    contradiction
  · rw [ho] at hw
    exact corrupt_ne_seqViolation v (Except.error.inj hw)
  · exact hfree acc₁.2 w hinv found htaken

/-- If event numbers are free wherever the invariant holds, no operation fails
for a taken one. -/
theorem execError_ne_seqViolation (h : Inv db) (op : Op) : execError db op ≠ some seqViolation := by
  have hfail : ∀ {α : Type} {r : Except StoreError α}, r ≠ .error seqViolation →
      failure? r ≠ some seqViolation := by
    intro α r hr
    cases r with
    | ok _ => simp [failure?]
    | error e => simpa [failure?] using hr
  cases op with
  | ensureCursor _ _ => simp [execError]
  | createWatch id new => exact hfail (commitWatch_ne_seqViolation _ _ id new)
  | commitWatch seq id new =>
      simp only [execError]
      split
      · exact hfail (commitWatch_ne_seqViolation db seq id new)
      · simp
  | cancelWatch id =>
      refine hfail ?_
      unfold cancelWatch
      split
      · split
        · rename_i w _ _
          rcases WatchRow.fromRow_cases (w.withStatus .cancelled db.now) with ⟨-, hr⟩ | ⟨-, v, hr⟩
          · simp [hr, Except.map]
          · simpa [hr, Except.map] using corrupt_ne_seqViolation v
        · simp
      · simp
  | expireWatches chain limit locked =>
      exact hfail (expireAll_ne_seqViolation hstep hfree (lists_overdueWatches db chain limit locked) h)
  | recordPending chain m =>
      refine hfail ?_
      rcases recordPending_cases db chain m with ⟨db', he, -⟩ | he | ⟨v, he⟩ | ⟨w, hg, ht, -⟩
      · simp [he]
      · simp [he]
      · simpa [he] using corrupt_ne_seqViolation v
      · exact absurd ht (hfree db w h hg)
  | applySweep chain cache expectedCursor toBlock logs =>
      refine hfail ?_
      rcases applySweep_cases db chain cache expectedCursor toBlock logs with
        ⟨tx, db', -, -, -, he⟩ | ⟨actual, -, he⟩ | he | ⟨e, hfailed, he⟩
      · simp [he]
      · simp [he]
      · simp [he, seqViolation]
      · rw [he]
        rintro he'
        cases he'
        rcases hfailed with htx | ⟨tx, -, hflush⟩
        · exact sweepTx_ne_seqViolation hstep hfree h htx
        · exact absurd (flushStats_error hflush) (by simp [seqViolation])
  | applyBackfill chain cache backfills logs =>
      refine hfail ?_
      rcases applyBackfill_cases db chain cache backfills logs with
        ⟨tx, db', -, -, he⟩ | ⟨e, hfailed, he⟩
      · simp [he]
      · rw [he]
        rintro he'
        cases he'
        rcases hfailed with htx | ⟨tx, -, hflush⟩
        · unfold backfillTx at htx
          cases hc : (backfillMatches chain backfills logs).foldlM (countConfirmed chain) { db } with
          | ok tx => rw [hc] at htx; cases htx
          | error e =>
              rw [hc] at htx
              cases htx
              exact countAll_ne_seqViolation hstep hfree h hc
        · exact absurd (flushStats_error hflush) (by simp [seqViolation])
  | fastForwardCursor chainId target =>
      refine hfail ?_
      unfold fastForwardCursor
      split <;> simp [seqViolation]
  | tick _ => simp [execError]
  | draw _ => simp [execError]

end Errors

/-- A watch for 100 units is registered and completed by one payment. -/
def completedWatch : List Op :=
  [.ensureCursor baseChain.chainId 100, .createWatch 1 watchOrder,
    .applySweep baseChain .new 100 101 [transferLog 7 9 100 101 0]]

/-- What the head path hears about a payment in block 103, which it takes to
have this hash. -/
def heardOf (blockHash : B256) : MatchedTransfer where
  watch := ⟨1, 1, 95⟩
  tokenIdx := 0
  src := 7
  dst := 9
  amount := 40
  blockNumber := 103
  blockHash := blockHash
  txHash := BitVec.ofNat 256 (2 ^ 64 * 103)
  logIndex := 0
  removed := false

end GumIndexer
