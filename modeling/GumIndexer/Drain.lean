import GumIndexer.Answers

/-!
# GumIndexer.Drain

The outbox does not get stuck.

An event waits for its time, for its lease, and for every earlier event of its
watch.  Whatever state the dispatchers left the queue in, with leases of
workers that will never report and retries far in the future: once that time has
passed, the first pending event of any watch is due and not blocked, so a lease
hands something out as long as anything is pending.  A round of waiting, leasing
and giving a verdict on what was leased therefore makes the queue shorter, and
as many rounds as there are pending events empty it (`outbox_drains`).
-/

namespace GumIndexer

open Base

/-- The number of events that have no verdict. -/
def Db.pendingEvents (db : Db) : Nat := db.outbox.rows.countP fun e => e.status = .pending

/-- Time enough for every event to be due. -/
def Db.patience (db : Db) : Nat := (db.outbox.rows.map OutboxRow.nextAttemptAt).max?.getD 0

/-- The verdict on an event that was handed out. -/
def verdictOn (delivered : OutboxItem → Bool) (item : OutboxItem) : Call :=
  if delivered item then .markDelivered item.id else .markDead item.id

/-- A round of a dispatcher: wait, lease, give a verdict on what was leased. -/
def round (limit lease : Nat) (delivered : OutboxItem → Bool) (db : Db) : Db :=
  let db₁ := call db (.store (.tick db.patience))
  let (items, db₂) := leaseDue db₁ limit lease fun _ => false
  run call db₂ (items.map (verdictOn delivered))

variable {db : Db} {limit lease : Nat} {delivered : OutboxItem → Bool}

/-! ## Something is due -/

/-- After `patience` every event is due. -/
theorem nextAttemptAt_le_patience {e : OutboxRow} (he : e ∈ db.outbox.rows) :
    e.nextAttemptAt ≤ db.patience :=
  List.le_max?_getD_of_mem (List.mem_map_of_mem he)

/-- The first pending event of a watch is not blocked. -/
theorem exists_unblocked {e : OutboxRow} (he : e ∈ db.outbox.rows) (hp : e.status = .pending) :
    ∃ e₀ ∈ db.outbox.rows, e₀.status = .pending ∧ db.Unblocked e₀ := by
  -- induction on the sequence number: an earlier event that blocks is a smaller candidate
  induction hseq : e.seq using Nat.strong_induction_on generalizing e with
  | _ n ih =>
      by_cases hfree : db.Unblocked e
      · exact ⟨e, he, hp, hfree⟩
      · simp only [Db.Unblocked, not_forall, not_not] at hfree
        obtain ⟨e', he', -, hp', hlt⟩ := hfree
        exact ih e'.seq (by omega) he' hp' rfl

/-- **As long as something is pending, something is handed out**, given time. -/
theorem dueEvents_ne_nil (pos : 1 ≤ limit) (waited : ∀ e ∈ db.outbox.rows, e.nextAttemptAt ≤ db.now)
    (pending : 0 < db.pendingEvents) : dueEvents db limit (fun _ => false) ≠ [] := by
  obtain ⟨e, he, hp⟩ := List.countP_pos_iff.mp pending
  obtain ⟨e₀, he₀, hp₀, hfree⟩ := exists_unblocked he (of_decide_eq_true hp)
  intro hnil
  rw [dueEvents, List.take_eq_nil_iff] at hnil
  rcases hnil with hzero | hnil
  · omega
  · have hmem : e₀ ∈ (db.outbox.rows.filter fun c => c.status = .pending ∧ c.nextAttemptAt ≤ db.now ∧
        db.Unblocked c ∧ (fun _ => false) c.id = false).insertionSort
        fun a b => a.nextAttemptAt ≤ b.nextAttemptAt := by
      rw [List.mem_insertionSort, List.mem_filter]
      exact ⟨he₀, by simp [hp₀, waited e₀ he₀, hfree]⟩
    rw [hnil] at hmem
    cases hmem

/-! ## A round -/

theorem verdictOn_ne_store (item : OutboxItem) (op : Op) : verdictOn delivered item ≠ .store op := by
  unfold verdictOn
  split <;> simp

/-- A verdict settles its event and no other. -/
theorem countP_verdictOn (item : OutboxItem) (ids : List Uuid) :
    (call db (verdictOn delivered item)).outbox.rows.countP
        (fun e => e.status = .pending ∧ e.id ∉ ids) =
      db.outbox.rows.countP fun e => e.status = .pending ∧ e.id ∉ item.id :: ids := by
  rw [call_rows (verdictOn_ne_store item), List.countP_map]
  refine List.countP_congr fun e _ => ?_
  by_cases hid : e.id = item.id
  · have hdone : ((verdictOn delivered item).row db e).status ≠ .pending := by
      unfold verdictOn
      split <;> simp [Call.row, hid, OutboxRow.withStatus]
    simp [hdone, hid]
  · have hkept : (verdictOn delivered item).row db e = e := by
      unfold verdictOn
      split <;> simp [Call.row, hid]
    simp [hkept, hid]

/-- No call of a dispatcher adds a row or drops one. -/
theorem ids_call {c : Call} (hc : ∀ op, c ≠ .store op) :
    (call db c).outbox.rows.map OutboxRow.id = db.outbox.rows.map OutboxRow.id := by
  rw [call_rows hc, List.map_map]
  exact List.map_congr_left fun e _ => (c.twin_row db e).id

/-- The verdicts on a batch settle the rows of the batch, and no other. -/
theorem verdicts_run (db : Db) (delivered : OutboxItem → Bool) (items : List OutboxItem) (ids : List Uuid) :
    (run call db (items.map (verdictOn delivered))).outbox.rows.map OutboxRow.id =
        db.outbox.rows.map OutboxRow.id ∧
      (run call db (items.map (verdictOn delivered))).outbox.rows.countP
          (fun e => e.status = .pending ∧ e.id ∉ ids) =
        db.outbox.rows.countP fun e => e.status = .pending ∧ e.id ∉ items.map OutboxItem.id ++ ids := by
  induction items generalizing db with
  | nil => exact ⟨rfl, rfl⟩
  | cons item items ih =>
      obtain ⟨hids, hcount⟩ := ih (call db (verdictOn delivered item))
      rw [List.map_cons, run_cons]
      exact ⟨hids.trans (ids_call (verdictOn_ne_store item)), hcount.trans (countP_verdictOn item _)⟩

/-- What is handed out are the events that are due. -/
theorem mem_ids_leaseDue (lease : Nat) {locked : Uuid → Bool} {e : OutboxRow} (he : e ∈ db.outbox.rows)
    (hdue : e ∈ dueEvents db limit locked) :
    e.id ∈ (leaseDue db limit lease locked).1.map OutboxItem.id := by
  rw [leaseDue, List.map_map]
  exact List.mem_map.mpr ⟨e, List.mem_filter.mpr ⟨he, decide_eq_true (List.mem_map_of_mem hdue)⟩, rfl⟩

/-- What is due is pending. -/
theorem mem_of_dueEvents {locked : Uuid → Bool} {e : OutboxRow} (h : e ∈ dueEvents db limit locked) :
    e ∈ db.outbox.rows ∧ e.status = .pending := by
  have hmem := (List.mem_insertionSort _).mp (List.mem_of_mem_take h)
  obtain ⟨hrow, helig⟩ := List.mem_filter.mp hmem
  exact ⟨hrow, (of_decide_eq_true helig).1⟩

/-- A lease changes neither the status nor the id of an event. -/
theorem countP_leaseDue (ids : List Uuid) (locked : Uuid → Bool) :
    (leaseDue db limit lease locked).2.outbox.rows.countP
        (fun e => e.status = .pending ∧ e.id ∉ ids) =
      db.outbox.rows.countP fun e => e.status = .pending ∧ e.id ∉ ids := by
  change (call db (.leaseDue limit lease locked)).outbox.rows.countP _ = _
  rw [call_rows (by simp), List.countP_map]
  refine List.countP_congr fun e _ => ?_
  simp only [Function.comp_apply, Call.row]
  split <;> exact Iff.rfl

/-- The events a lease hands out are pending, so a verdict on each of them
makes the queue shorter. -/
theorem pending_after_lease (lease : Nat) (pos : 1 ≤ limit)
    (waited : ∀ e ∈ db.outbox.rows, e.nextAttemptAt ≤ db.now) (pending : 0 < db.pendingEvents) :
    (db.outbox.rows.countP fun e => e.status = .pending ∧
        e.id ∉ (leaseDue db limit lease fun _ => false).1.map OutboxItem.id) < db.pendingEvents := by
  obtain ⟨e, hdue⟩ := List.exists_mem_of_ne_nil _ (dueEvents_ne_nil pos waited pending)
  obtain ⟨he, hp⟩ := mem_of_dueEvents hdue
  have hid := mem_ids_leaseDue lease he hdue
  generalize (leaseDue db limit lease fun _ => false).1.map OutboxItem.id = ids at hid
  have hsplit := List.countP_eq_countP_filter_add db.outbox.rows (fun e => e.status = .pending)
    (fun e => e.id ∈ ids)
  have hone : 0 < (db.outbox.rows.filter fun e => e.id ∈ ids).countP fun e => e.status = .pending :=
    List.countP_pos_iff.mpr ⟨e, List.mem_filter.mpr ⟨he, by simpa using hid⟩, by simpa using hp⟩
  have hrest : (db.outbox.rows.filter fun e => !decide (e.id ∈ ids)).countP
      (fun e => e.status = .pending) =
        db.outbox.rows.countP fun e => e.status = .pending ∧ e.id ∉ ids := by
    rw [List.countP_filter]
    exact List.countP_congr fun e _ => by simp
  unfold Db.pendingEvents
  omega

/-- **A round keeps the events and settles one that is pending.** -/
theorem round_progress (db : Db) (lease : Nat) (delivered : OutboxItem → Bool) (pos : 1 ≤ limit) :
    (round limit lease delivered db).outbox.rows.map OutboxRow.id = db.outbox.rows.map OutboxRow.id ∧
      (round limit lease delivered db).pendingEvents ≤ db.pendingEvents - 1 := by
  -- the database once everything is due; only its clock differs
  let later : Db := call db (.store (.tick db.patience))
  have hwaited : ∀ e ∈ later.outbox.rows, e.nextAttemptAt ≤ later.now := fun e he =>
    le_trans (nextAttemptAt_le_patience he) (Nat.le_add_left db.patience db.now)
  obtain ⟨hids, hcount⟩ := verdicts_run
    (leaseDue later limit lease fun _ => false).2 delivered (leaseDue later limit lease fun _ => false).1 []
  rw [countP_leaseDue, List.append_nil] at hcount
  refine ⟨hids.trans (ids_call (c := .leaseDue limit lease fun _ => false) (by simp)), ?_⟩
  have hround : (round limit lease delivered db).pendingEvents =
      later.outbox.rows.countP fun e => e.status = .pending ∧
        e.id ∉ (leaseDue later limit lease fun _ => false).1.map OutboxItem.id := by
    rw [← hcount]
    exact List.countP_congr fun e _ => by simp
  rcases Nat.eq_zero_or_pos later.pendingEvents with hzero | hpos
  · rw [hround]
    refine le_trans (List.countP_mono_left fun e _ he => ?_) (le_trans (le_of_eq hzero) (Nat.zero_le _))
    exact decide_eq_true (of_decide_eq_true he).1
  · have hless := pending_after_lease lease pos hwaited hpos
    have hsame : later.pendingEvents = db.pendingEvents := rfl
    omega

/-- **The outbox drains.**  From any state of the queue, after as many rounds
as there are pending events, each leasing at least one event, every event has a
verdict, and none is lost. -/
theorem outbox_drains (db : Db) (lease : Nat) (delivered : OutboxItem → Bool) {limit rounds : Nat}
    (pos : 1 ≤ limit) (enough : db.pendingEvents ≤ rounds) :
    let db' := (round limit lease delivered)^[rounds] db
    (∀ e ∈ db'.outbox.rows, e.status = .delivered ∨ e.status = .dead) ∧
      db'.outbox.rows.map OutboxRow.id = db.outbox.rows.map OutboxRow.id := by
  induction rounds generalizing db with
  | zero =>
      refine ⟨fun e he => (OutboxRow.done_iff e).mpr fun hp => ?_, rfl⟩
      have hzero : db.pendingEvents = 0 := Nat.le_zero.mp enough
      exact List.countP_eq_zero.mp hzero e he (decide_eq_true hp)
  | succ rounds ih =>
      obtain ⟨hids, hless⟩ := round_progress db lease delivered pos
      obtain ⟨hdone, hkept⟩ := ih (round limit lease delivered db) (by omega)
      exact ⟨hdone, hkept.trans hids⟩

/-- A worker that never reports holds the first of two events; two rounds are
enough all the same. -/
theorem outbox_drains_abandoned :
    (run call Db.empty (completedWatch.map .store ++ [.leaseDue 10 20000 fun _ => false])).pendingEvents = 2 ∧
      ∀ e ∈ ((round 1 20000 fun _ => true)^[2] (run call Db.empty (completedWatch.map .store ++
        [.leaseDue 10 20000 fun _ => false]))).outbox.rows, e.status = .delivered ∨ e.status = .dead :=
  ⟨by decide +kernel, (outbox_drains _ 20000 (fun _ => true) (Nat.le_refl 1)
    (le_of_eq (by decide +kernel))).1⟩

end GumIndexer
