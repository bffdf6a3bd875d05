import GumIndexer.Base.Run
import GumIndexer.Store.Sweep

/-!
# GumIndexer.Ledger

What a transaction of the store can do.

Whatever its control flow, a committed operation is a sequence of a few
primitive steps on the database: a watch is registered, cancelled or expired,
a transfer is announced, counted (and its watch possibly completed), ignored
or orphaned, a backfill mark is cleared, a cursor moves, or nothing but
statistics and clocks does.  `Step` lists them with everything their guards
establish.

`exec_trace` is the inversion theorem for the whole store: every operation,
committed or not, is a `Trace` of such steps, and the credits on its labels
are the transfers the operation reports as confirmed.  Every invariant of the
accounting is proved against `Step` and reaches all operations through it.
-/

namespace GumIndexer

open Base

/-! ## Updates -/

namespace Watch

/-- The watch after `amount` was counted toward it. -/
def credit (w : Watch) (amount : Nat) : Watch := w.bump.add amount

/-- The watch retired with an event. -/
def retire (w : Watch) (status : WatchStatus) (now : Nat) : Watch := w.bump.withStatus status now

@[simp] theorem id_bump (w : Watch) : w.bump.id = w.id := rfl

@[simp] theorem id_credit (w : Watch) (n : Nat) : (w.credit n).id = w.id := rfl

@[simp] theorem id_retire (w : Watch) (s : WatchStatus) (now : Nat) : (w.retire s now).id = w.id := rfl

@[simp] theorem id_withStatus (w : Watch) (s : WatchStatus) (now : Nat) :
    (w.withStatus s now).id = w.id := rfl

@[simp] theorem id_backfilled (w : Watch) : w.backfilled.id = w.id := rfl

@[simp] theorem unbump_bump (w : Watch) : w.bump.unbump = w := rfl

end Watch

@[simp] theorem Transfer.key_withStatus (t : Transfer) (s : TransferStatus) :
    (t.withStatus s).key = t.key := rfl

/-- The identity of a match on its chain. -/
def MatchedTransfer.logId (m : MatchedTransfer) (chainId : Nat) : LogId :=
  ⟨chainId, m.blockHash, m.logIndex⟩

/-- The identity of a payment on its chain. -/
def Payment.logId (p : Payment) (chainId : Nat) : LogId := ⟨chainId, p.blockHash, p.logIndex⟩

@[simp] theorem Payment.logId_toWatch (p : Payment) (watch : WatchRef) (removed : Bool)
    (chainId : Nat) : (p.toWatch watch removed).logId chainId = p.logId chainId := rfl

@[simp] theorem MatchedTransfer.key_row (m : MatchedTransfer) (chainId : Nat) (id : Uuid)
    (s : TransferStatus) : (m.row chainId id s).key = m.logId chainId := rfl

/-! ## Steps -/

/-- A transfer counted toward a watch. -/
structure Credit where
  watchId : Uuid
  log : LogId
  amount : Nat
deriving DecidableEq, Repr

/-- The credit of a counted match. -/
def MatchedTransfer.toCredit (m : MatchedTransfer) (chainId : Nat) : Credit :=
  ⟨m.watch.id, m.logId chainId, m.amount.toNat⟩

/-- Labels of the primitive steps. -/
inductive Act
  | register (w : Watch)
  | cancel (w : Watch)
  | expire (w : Watch)
  | announce (chainId : Nat) (m : MatchedTransfer)
  | count (chainId : Nat) (m : MatchedTransfer)
  | ignore (t : Transfer)
  | orphan (t : Transfer)
  | clearBackfill (w : Watch)
  | moveCursor
  | other

/-- What a step adds to a watch's total. -/
def Act.credits : Act → List Credit
  | .count chainId m => [m.toCredit chainId]
  | _ => []

/-- The watch `w` becomes `w'`, one event is queued for it, and the transfers
become `transfers`. -/
structure Post (chain : ChainSpec) (db : Db) (w w' : Watch) (type : EventType)
    (view : Option TransferView) (transfers : Table Transfer Transfer.key) (db' : Db) : Prop where
  found : db.watches.get? w.id = some w
  fits : w'.Fits
  sameId : w'.id = w.id
  bumped : w'.nextEventSeq = w.nextEventSeq + 1
  posted : ∃ outbox, db.outbox.insertNew (eventRow db chain (.ofWatch w') type view) = some outbox ∧
    db' = ((db.putWatch w').withTransfers transfers).withOutbox outbox

/-- The transfers table after the row was inserted as confirmed, or the
pending row under its key was confirmed. -/
inductive Confirms (transfers : Table Transfer Transfer.key) (row : Transfer) :
    Table Transfer Transfer.key → Prop
  | fresh {transfers' : Table Transfer Transfer.key}
      (insert : transfers.insertNew row = some transfers') : Confirms transfers row transfers'
  | pending {t : Transfer} (found : transfers.get? row.key = some t) (pending : t.status = .pending) :
      Confirms transfers row (transfers.replace (t.withStatus .confirmed))

/-- A match is counted toward the active watch `w`. -/
structure Counts (chain : ChainSpec) (db : Db) (w : Watch) (m : MatchedTransfer) (db' : Db) :
    Prop where
  watch : m.watch.id = w.id
  active : w.status = .active
  step : ∃ transfers, Confirms db.transfers (m.row chain.chainId w.id .confirmed) transfers ∧
    Post chain db w (w.credit m.amount.toNat) .paymentConfirmed (some (transferView m .confirmed))
      transfers db'

/-- The primitive steps of the store. -/
inductive Step : Db → Act → Db → Prop
  /-- The number of the watch is the next one, or one that was drawn before and
  that no watch has. -/
  | register {db : Db} {id : Uuid} {new : NewWatch} {cur : Cursor} {seq : Nat}
      {watches : Table Watch Watch.id} (cursor : db.cursors.get? new.chainId = some cur)
      (positive : new.threshold.toNat ≠ 0)
      (free : db.activeOn new.chainId new.tokenAddress new.paymentAddress = none)
      (fresh : db.watchesSeq < seq ∨ ∀ w ∈ db.watches.rows, w.seq ≠ seq)
      (insert : db.watches.insertNew (new.row id seq cur.confirmedBlock db.now) = some watches) :
      Step db (.register (new.row id seq cur.confirmedBlock db.now))
        { db with watches, watchesSeq := max db.watchesSeq seq }
  | cancel {db : Db} {w : Watch} (found : db.watches.get? w.id = some w)
      (active : w.status = .active) :
      Step db (.cancel w) (db.putWatch (w.withStatus .cancelled db.now))
  | expire {db db' : Db} {chain : ChainSpec} {w : Watch} (active : w.status = .active)
      (post : Post chain db w (w.retire .expired db.now) .watchExpired none db.transfers db') :
      Step db (.expire w) db'
  | announce {db db' : Db} {chain : ChainSpec} {w : Watch} {m : MatchedTransfer}
      {transfers : Table Transfer Transfer.key} (watch : m.watch.id = w.id)
      (active : w.status = .active)
      (insert : db.transfers.insertNew (m.row chain.chainId w.id .pending) = some transfers)
      (post : Post chain db w w.bump .paymentPending (some (transferView m .pending)) transfers db') :
      Step db (.announce chain.chainId m) db'
  | count {db db' : Db} {chain : ChainSpec} {w : Watch} {m : MatchedTransfer}
      (counts : Counts chain db w m db') (below : w.confirmedAmount + m.amount.toNat < w.threshold) :
      Step db (.count chain.chainId m) db'
  | complete {db db' db'' : Db} {chain : ChainSpec} {w : Watch} {m : MatchedTransfer}
      (counts : Counts chain db w m db') (reached : w.threshold ≤ w.confirmedAmount + m.amount.toNat)
      (post : Post chain db' (w.credit m.amount.toNat)
        ((w.credit m.amount.toNat).retire .completed db'.now) .thresholdReached none db'.transfers db'') :
      Step db (.count chain.chainId m) db''
  | ignore {db : Db} {t : Transfer} (found : db.transfers.get? t.key = some t)
      (pending : t.status = .pending) :
      Step db (.ignore t) (db.putTransfer (t.withStatus .ignored))
  | orphanRetired {db : Db} {t : Transfer} (found : db.transfers.get? t.key = some t)
      (pending : t.status = .pending)
      (retired : ∀ w, db.watches.get? t.watchId = some w → w.status ≠ .active) :
      Step db (.orphan t) (db.putTransfer (t.withStatus .orphaned))
  | orphan {db db' : Db} {chain : ChainSpec} {t : Transfer} {w : Watch}
      (found : db.transfers.get? t.key = some t) (pending : t.status = .pending)
      (home : t.chainId = chain.chainId) {amount : U256} (watch : t.watchId = w.id) (active : w.status = .active)
      (amount_eq : amount.toNat = t.amount)
      (post : Post chain db w w.bump .paymentOrphaned (some (t.orphanedView amount))
        (db.transfers.replace (t.withStatus .orphaned)) db') :
      Step db (.orphan t) db'
  | clearBackfill {db : Db} {w : Watch} (found : db.watches.get? w.id = some w) :
      Step db (.clearBackfill w) (db.putWatch w.backfilled)
  | moveCursor {db db' : Db} (watches : db'.watches = db.watches)
      (transfers : db'.transfers = db.transfers) (outbox : db'.outbox = db.outbox)
      (seq : db'.watchesSeq = db.watchesSeq) :
      Step db .moveCursor db'
  | other {db db' : Db} (watches : db'.watches = db.watches) (transfers : db'.transfers = db.transfers)
      (outbox : db'.outbox = db.outbox) (cursors : db'.cursors = db.cursors)
      (seq : db.watchesSeq ≤ db'.watchesSeq) :
      Step db .other db'

/-! ## Statements -/

section Statements

variable {db : Db}

/-- No active watch under this id. -/
def Db.Inactive (db : Db) (id : Uuid) : Prop :=
  ∀ w, db.watches.get? id = some w → w.status ≠ .active

/-- A watch that is not active is not locked. -/
theorem lockActiveWatch_inactive {id : Uuid} (h : db.Inactive id) :
    lockActiveWatch db id = .ok (none, db) := by
  unfold lockActiveWatch
  cases hg : db.watches.get? id with
  | none => rfl
  | some w =>
      simp only [if_neg (h w hg)]
      rfl

/-- `lockActiveWatch` finds no active watch, locks one, or refuses its
amounts. -/
theorem lockActiveWatch_cases (db : Db) (id : Uuid) :
    (db.Inactive id ∧ lockActiveWatch db id = .ok (none, db)) ∨
      (∃ w, id = w.id ∧ db.watches.get? w.id = some w ∧ w.status = .active ∧ w.Fits ∧
        lockActiveWatch db id = .ok (some (.ofWatch w.bump), db.putWatch w.bump)) ∨
      ∃ w v, id = w.id ∧ db.watches.get? w.id = some w ∧ w.status = .active ∧ ¬ w.Fits ∧
        lockActiveWatch db id = .error (.corrupt v) := by
  by_cases hin : db.Inactive id
  · exact .inl ⟨hin, lockActiveWatch_inactive hin⟩
  · unfold Db.Inactive at hin
    push Not at hin
    obtain ⟨w, hg, ha⟩ := hin
    obtain rfl := Table.key_of_get? hg
    have hlock : lockActiveWatch db w.id = (WatchRow.fromRow w.bump >>= fun watch =>
        pure (some watch, db.putWatch w.bump)) := by
      unfold lockActiveWatch
      simp only [hg, if_pos ha]
    rcases WatchRow.fromRow_cases w.bump with ⟨hf, hr⟩ | ⟨hf, v, hr⟩
    · exact .inr (.inl ⟨w, rfl, hg, ha, hf, by rw [hlock, hr]; rfl⟩)
    · exact .inr (.inr ⟨w, v, rfl, hg, ha, hf, by rw [hlock, hr]; rfl⟩)

/-- An update fails only if the row cannot be read back. -/
theorem updateWatch_cases {w : Watch} (set : Watch → Watch)
    (found : db.watches.get? w.id = some w) :
    ((set w).Fits ∧ updateWatch db w.id set = .ok (.ofWatch (set w), db.putWatch (set w))) ∨
      (¬ (set w).Fits ∧ ∃ v, updateWatch db w.id set = .error (.corrupt v)) := by
  unfold updateWatch
  simp only [found]
  rcases WatchRow.fromRow_cases (set w) with ⟨hf, hr⟩ | ⟨hf, v, hr⟩
  · exact .inl ⟨hf, by rw [hr]; rfl⟩
  · exact .inr ⟨hf, v, by rw [hr]; rfl⟩

/-- The error of an event whose sequence number is taken. -/
def seqViolation : StoreError := .db (.uniqueViolation .outboxWatchSeq)

/-- An event fails only if its number is taken. -/
theorem insertEvent_cases (db : Db) (chain : ChainSpec) (watch : WatchRow) (type : EventType)
    (view : Option TransferView) :
    (∃ outbox, db.outbox.insertNew (eventRow db chain watch type view) = some outbox ∧
        insertEvent db chain watch type view = .ok (db.withOutbox outbox)) ∨
      (∃ e, db.outbox.get? (watch.id, watch.nextEventSeq) = some e) ∧
        insertEvent db chain watch type view = .error seqViolation := by
  unfold insertEvent
  cases hi : db.outbox.insertNew (eventRow db chain watch type view) with
  | some outbox => exact .inl ⟨outbox, rfl, rfl⟩
  | none => exact .inr ⟨Table.insertNew_eq_none_iff.mp hi, rfl⟩

@[simp] theorem watches_setTransfer (db : Db) (log : LogId) (status : TransferStatus) :
    (setTransfer db log status).watches = db.watches := by
  unfold setTransfer
  split <;> rfl

/-- Setting the status of a row that is still as it was read. -/
theorem setTransfer_of_found {t : Transfer} (found : db.transfers.get? t.key = some t)
    (status : TransferStatus) : setTransfer db t.key status = db.putTransfer (t.withStatus status) := by
  simp only [setTransfer, found]

/-- The upsert confirms the row, or the row is there and already settled. -/
theorem upsertConfirmed_cases (db : Db) (row : Transfer) :
    (∃ inserted transfers, Confirms db.transfers row transfers ∧
        upsertConfirmed db row = some (inserted, db.withTransfers transfers)) ∨
      ∃ t, db.transfers.get? row.key = some t ∧ t.status ≠ .pending ∧
        upsertConfirmed db row = none := by
  unfold upsertConfirmed
  cases hi : db.transfers.insertNew row with
  | some transfers => exact .inl ⟨true, transfers, .fresh hi, rfl⟩
  | none =>
      obtain ⟨t, ht⟩ := Table.insertNew_eq_none_iff.mp hi
      simp only [ht]
      by_cases hp : t.status = .pending
      · rw [if_pos hp]
        exact .inl ⟨false, _, .pending ht hp, rfl⟩
      · rw [if_neg hp]
        exact .inr ⟨t, rfl, hp, rfl⟩

end Statements

/-! ## Counting one transfer -/

section Counting

variable {db : Db} {chain : ChainSpec}

/-- The transfer's row is missing or pending. -/
def Db.Countable (db : Db) (log : LogId) : Prop :=
  ∀ t, db.transfers.get? log = some t → t.status = .pending

/-- Some event sequence number above the watch's last one is taken. -/
def Db.SeqTaken (db : Db) (w : Watch) : Prop :=
  ∃ k e, w.nextEventSeq < k ∧ db.outbox.get? (w.id, k) = some e

/-- What a successful `countConfirmed` did. -/
inductive Counted (chain : ChainSpec) (tx : SweepTx) (m : MatchedTransfer) : SweepTx → Prop
  /-- The watch is no longer active. -/
  | inactive (inactive : tx.db.Inactive m.watch.id) : Counted chain tx m tx
  /-- The transfer's row is there and not pending. -/
  | settled (settled : ¬ tx.db.Countable (m.logId chain.chainId)) : Counted chain tx m tx
  | below {tx' : SweepTx} {w : Watch} (counts : Counts chain tx.db w m tx'.db)
      (below : w.confirmedAmount + m.amount.toNat < w.threshold)
      (confirmed : tx'.out.confirmed = tx.out.confirmed ++ [m])
      (completed : tx'.out.completed = tx.out.completed) : Counted chain tx m tx'
  | reached {tx' : SweepTx} {db' : Db} {w : Watch} (counts : Counts chain tx.db w m db')
      (reached : w.threshold ≤ w.confirmedAmount + m.amount.toNat)
      (post : Post chain db' (w.credit m.amount.toNat)
        ((w.credit m.amount.toNat).retire .completed db'.now) .thresholdReached none db'.transfers
        tx'.db)
      (confirmed : tx'.out.confirmed = tx.out.confirmed ++ [m])
      (completed : tx'.out.completed = tx.out.completed ++ [(⟨m.tokenIdx, m.dst⟩, w.id)]) :
      Counted chain tx m tx'

/-- Crediting a locked watch posts `payment.confirmed`, unless the new total
is no `uint256` or the sequence number is taken. -/
theorem creditWatch_cases (chain : ChainSpec) {w : Watch}
    {transfers : Table Transfer Transfer.key} (tx : SweepTx) (m : MatchedTransfer) (inserted : Bool) (found : db.watches.get? w.id = some w)
    (hdb : tx.db = (db.putWatch w.bump).withTransfers transfers) :
    (∃ tx', Post chain db w (w.credit m.amount.toNat) .paymentConfirmed
          (some (transferView m .confirmed)) transfers tx'.db ∧
        tx'.out.confirmed = tx.out.confirmed ∧ tx'.out.completed = tx.out.completed ∧
        creditWatch chain tx m w.id inserted = .ok (.ofWatch (w.credit m.amount.toNat), tx')) ∨
      (¬ (w.credit m.amount.toNat).Fits ∧
        ∃ v, creditWatch chain tx m w.id inserted = .error (.corrupt v)) ∨
      (db.SeqTaken w ∧ creditWatch chain tx m w.id inserted = .error seqViolation) := by
  have hlocked : tx.db.watches.get? w.bump.id = some w.bump := by
    rw [hdb]
    exact Table.get?_replace_self (a := w.bump) found
  unfold creditWatch
  rcases updateWatch_cases (fun w => w.add m.amount.toNat) hlocked with ⟨hf, hu⟩ | ⟨hf, v, hu⟩
  · rw [Watch.id_bump] at hu
    simp only [hu]
    rcases insertEvent_cases (tx.db.putWatch (w.credit m.amount.toNat)) chain
      (.ofWatch (w.credit m.amount.toNat)) .paymentConfirmed (some (transferView m .confirmed))
      with ⟨outbox, hi, he⟩ | ⟨⟨e, ht⟩, he⟩
    · refine .inl ⟨tx.noteCredit ((tx.db.putWatch (w.credit m.amount.toNat)).withOutbox outbox)
        (.ofWatch (w.credit m.amount.toNat)) m inserted,
        ⟨found, hf, rfl, rfl, outbox, ?_, ?_⟩, rfl, rfl, ?_⟩
      · rw [hdb] at hi
        exact hi
      · change (tx.db.putWatch _).withOutbox outbox = _
        rw [hdb, Db.putWatch_withTransfers, Db.putWatch_putWatch db w.bump (w.credit m.amount.toNat) rfl]
      · simp only [bind, Except.bind, Watch.credit] at he ⊢
        rw [he]
        rfl
    · refine .inr (.inr ⟨⟨w.nextEventSeq + 1, e, Nat.lt_succ_self _, ?_⟩, ?_⟩)
      · rw [hdb] at ht
        exact ht
      · simp only [bind, Except.bind, Watch.credit] at he ⊢
        rw [he]
  · refine .inr (.inl ⟨hf, v, ?_⟩)
    rw [Watch.id_bump] at hu
    rw [hu]
    rfl

/-- Completing a watch posts `threshold.reached`. -/
theorem completeWatch_cases (chain : ChainSpec) {w : Watch} {tx : SweepTx} (m : MatchedTransfer)
    (found : tx.db.watches.get? w.id = some w) (fits : w.Fits) :
    (∃ tx', Post chain tx.db w (w.retire .completed tx.db.now) .thresholdReached none tx.db.transfers
          tx'.db ∧
        tx'.out.confirmed = tx.out.confirmed ∧
        tx'.out.completed = tx.out.completed ++ [(⟨m.tokenIdx, m.dst⟩, w.id)] ∧
        completeWatch chain tx m w.id = .ok tx') ∨
      (tx.db.SeqTaken w ∧ completeWatch chain tx m w.id = .error seqViolation) := by
  unfold completeWatch
  have hf : (w.retire .completed tx.db.now).Fits := fits
  rcases updateWatch_cases (fun w => w.bump.withStatus .completed tx.db.now) found with ⟨_, hu⟩ | ⟨hn, -⟩
  · simp only [hu]
    rcases insertEvent_cases (tx.db.putWatch (w.retire .completed tx.db.now)) chain
      (.ofWatch (w.retire .completed tx.db.now)) .thresholdReached none with
      ⟨outbox, hi, he⟩ | ⟨⟨e, ht⟩, he⟩
    · refine .inl ⟨tx.noteCompleted ((tx.db.putWatch (w.retire .completed tx.db.now)).withOutbox outbox)
        (.ofWatch (w.retire .completed tx.db.now)) m, ⟨found, hf, rfl, rfl, outbox, hi, rfl⟩, rfl, rfl,
        ?_⟩
      simp only [bind, Except.bind, Watch.retire] at he ⊢
      rw [he]
      rfl
    · refine .inr ⟨⟨w.nextEventSeq + 1, e, Nat.lt_succ_self _, ht⟩, ?_⟩
      simp only [bind, Except.bind, Watch.retire] at he ⊢
      rw [he]
  · exact absurd hf hn

/-- After a post the watch is the updated one. -/
theorem Post.get?_watch {w w' : Watch} {type : EventType} {view : Option TransferView}
    {transfers : Table Transfer Transfer.key} {db' : Db}
    (h : Post chain db w w' type view transfers db') : db'.watches.get? w'.id = some w' := by
  obtain ⟨outbox, -, rfl⟩ := h.posted
  exact Table.get?_replace_self (b := w) (by rw [h.sameId]; exact h.found)

/-- An event sequence number above `w'` that is taken after the post was taken
before it. -/
theorem Post.seqTaken {w w' : Watch} {type : EventType} {view : Option TransferView}
    {transfers : Table Transfer Transfer.key} {db' : Db}
    (h : Post chain db w w' type view transfers db') (taken : db'.SeqTaken w') : db.SeqTaken w := by
  obtain ⟨k, e, hk, he⟩ := taken
  obtain ⟨outbox, hi, rfl⟩ := h.posted
  have hb := h.bumped
  rw [h.sameId] at he
  refine ⟨k, e, by omega, ?_⟩
  rw [Db.outbox_withOutbox, Table.get?_insertNew hi, if_neg] at he
  · exact he
  · rintro heq
    have : w'.nextEventSeq = k := congrArg Prod.snd heq
    omega

/-- Short of the threshold there is nothing more to do. -/
theorem finishCredit_below {tx : SweepTx} {m : MatchedTransfer} {w : Watch} (fits : w.Fits)
    (below : w.confirmedAmount < w.threshold) :
    finishCredit chain m (.ofWatch w) tx = .ok (tx.pushConfirmed m) := by
  have hn := mt (WatchRow.threshold_le_iff fits).mp (Nat.not_le_of_lt below)
  simp only [finishCredit, if_neg hn]
  rfl

/-- At the threshold the watch is completed. -/
theorem finishCredit_reached {tx : SweepTx} {m : MatchedTransfer} {w : Watch} (fits : w.Fits)
    (reached : w.threshold ≤ w.confirmedAmount) :
    finishCredit chain m (.ofWatch w) tx =
      (completeWatch chain tx m w.id).map (·.pushConfirmed m) := by
  have hp := (WatchRow.threshold_le_iff fits).mpr reached
  simp only [finishCredit, if_pos hp]
  rfl

/-- The equations of `countConfirmed` for a watch that can be locked: nothing
happens if the upsert returns no row ... -/
theorem countConfirmed_of_none {tx : SweepTx} {m : MatchedTransfer} {w : Watch}
    (found : tx.db.watches.get? w.id = some w)
    (lock : lockActiveWatch tx.db m.watch.id =
      .ok (some (.ofWatch w.bump), tx.db.putWatch w.bump))
    (upsert : upsertConfirmed (tx.db.putWatch w.bump) (m.row chain.chainId w.id .confirmed) = none) :
    countConfirmed chain tx m = .ok tx := by
  have hundo : setWatch (tx.db.putWatch w.bump) w.id Watch.unbump = tx.db := by
    have hb : (tx.db.putWatch w.bump).watches.get? w.id = some w.bump :=
      Table.get?_replace_self (a := w.bump) found
    rw [setWatch, hb]
    change (tx.db.putWatch w.bump).putWatch w.bump.unbump = tx.db
    rw [Watch.unbump_bump, Db.putWatch_putWatch tx.db w.bump w rfl, Db.putWatch_self tx.db w found]
  unfold countConfirmed
  simp only [lock, bind, Except.bind, WatchRow.id_ofWatch, Watch.id_bump, upsert, hundo]
  rfl

/-- ... and otherwise the watch is credited. -/
theorem countConfirmed_of_some {tx : SweepTx} {m : MatchedTransfer} {w : Watch} {inserted : Bool}
    {db' : Db}
    (lock : lockActiveWatch tx.db m.watch.id =
      .ok (some (.ofWatch w.bump), tx.db.putWatch w.bump))
    (upsert : upsertConfirmed (tx.db.putWatch w.bump) (m.row chain.chainId w.id .confirmed) =
      some (inserted, db')) :
    countConfirmed chain tx m =
      creditWatch chain { tx with db := db' } m w.id inserted >>= fun r =>
        finishCredit chain m r.1 r.2 := by
  unfold countConfirmed
  simp only [lock, bind, Except.bind, WatchRow.id_ofWatch, Watch.id_bump, upsert]

/-- Only a pending row is confirmed. -/
theorem Confirms.countable {transfers transfers' : Table Transfer Transfer.key} {row : Transfer}
    (h : Confirms transfers row transfers') :
    ∀ t, transfers.get? row.key = some t → t.status = .pending := by
  intro t ht
  cases h with
  | fresh insert => rw [Table.get?_of_insertNew insert] at ht; contradiction
  | pending found pending =>
      rw [found] at ht
      exact Option.some.inj ht ▸ pending

/-- **Counting one transfer**, all outcomes. -/
theorem countConfirmed_cases (chain : ChainSpec) (tx : SweepTx) (m : MatchedTransfer) :
    (∃ tx', Counted chain tx m tx' ∧ countConfirmed chain tx m = .ok tx') ∨
      ∃ w, m.watch.id = w.id ∧ tx.db.watches.get? w.id = some w ∧ w.status = .active ∧
        (((¬ w.Fits ∨
              (tx.db.Countable (m.logId chain.chainId) ∧ ¬ (w.credit m.amount.toNat).Fits)) ∧
            ∃ v, countConfirmed chain tx m = .error (.corrupt v)) ∨
          (tx.db.SeqTaken w ∧ countConfirmed chain tx m = .error seqViolation)) := by
  rcases lockActiveWatch_cases tx.db m.watch.id with
    ⟨hin, hl⟩ | ⟨w, hid, hg, ha, hf, hl⟩ | ⟨w, v, hid, hg, ha, hf, hl⟩
  · refine .inl ⟨tx, .inactive hin, ?_⟩
    simp only [countConfirmed, hl]
    rfl
  · rcases upsertConfirmed_cases (tx.db.putWatch w.bump) (m.row chain.chainId w.id .confirmed) with
      ⟨inserted, transfers, hc, hu⟩ | ⟨t, ht, hp, hu⟩
    · rw [countConfirmed_of_some hl hu]
      rcases creditWatch_cases chain
        { tx with db := (tx.db.putWatch w.bump).withTransfers transfers } m inserted hg rfl with ⟨tx₁, hpost, hconf, hcompl, hcr⟩ | ⟨hnf, v, hcr⟩ | ⟨htaken, hcr⟩
      · have hcounts : Counts chain tx.db w m tx₁.db := ⟨hid, ha, transfers, hc, hpost⟩
        rw [hcr]
        simp only [bind, Except.bind]
        by_cases hlt : w.confirmedAmount + m.amount.toNat < w.threshold
        · rw [finishCredit_below hpost.fits hlt]
          refine .inl ⟨tx₁.pushConfirmed m, .below hcounts hlt ?_ hcompl, rfl⟩
          exact congrArg (· ++ [m]) hconf
        · have hle : w.threshold ≤ w.confirmedAmount + m.amount.toNat := Nat.le_of_not_lt hlt
          rw [finishCredit_reached hpost.fits hle]
          rcases completeWatch_cases chain m hpost.get?_watch hpost.fits with
            ⟨tx₂, hpost₂, hconf₂, hcompl₂, hco⟩ | ⟨htaken, hco⟩
          · rw [hco]
            refine .inl ⟨tx₂.pushConfirmed m, .reached hcounts hle hpost₂ ?_ ?_, rfl⟩
            · exact congrArg (· ++ [m]) (hconf₂.trans hconf)
            · exact hcompl₂.trans (congrArg (· ++ _) hcompl)
          · rw [hco]
            exact .inr ⟨w, hid, hg, ha, .inr ⟨hpost.seqTaken htaken, rfl⟩⟩
      · rw [hcr]
        exact .inr ⟨w, hid, hg, ha, .inl ⟨.inr ⟨hc.countable, hnf⟩, v, rfl⟩⟩
      · rw [hcr]
        exact .inr ⟨w, hid, hg, ha, .inr ⟨htaken, rfl⟩⟩
    · exact .inl ⟨tx, .settled fun hcount => hp (hcount t ht), countConfirmed_of_none hg hl hu⟩
  · refine .inr ⟨w, hid, hg, ha, .inl ⟨.inl hf, v, ?_⟩⟩
    simp only [countConfirmed, hl]
    rfl

end Counting

end GumIndexer
