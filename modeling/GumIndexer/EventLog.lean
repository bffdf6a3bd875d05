import GumIndexer.Accounting
import GumIndexer.Base.Fill

/-!
# GumIndexer.EventLog

The events of a watch reconstruct it.

The event sequence of a watch is bumped before it is known whether an event
will be written, and the bump is undone by a rollback or by a decrement.  Seen
from the committed database none of this is visible: every event is written by
a `Post`, which moves the watch's counter by one, takes the number it moved to
and reports the watch's total (`Post.eventLog`).  So the events of a watch are
numbered without gaps, and each reports the running total of the
`payment.confirmed` amounts.
-/

namespace GumIndexer

open Base

/-- The events of a watch, oldest first. -/
def Db.events (db : Db) (id : Uuid) : List OutboxRow :=
  db.outbox.rows.filter fun e => e.watchId = id

/-- What an event says was counted: the amount of a `payment.confirmed`, and
nothing for any other event. -/
def OutboxRow.counted (e : OutboxRow) : Nat := (e.credit?.map Credit.amount).getD 0

/-- The events of the watch are numbered `1 .. nextEventSeq` and report its
running total. -/
structure EventLog (db : Db) (w : Watch) : Prop where
  seqs : (db.events w.id).map OutboxRow.seq = List.range' 1 w.nextEventSeq
  payloads : (db.events w.id).map (fun e => e.payload.sequence) = List.range' 1 w.nextEventSeq
  reports : ∀ es e, es ++ [e] <+: db.events w.id →
    e.payload.watch.confirmedAmount.toNat = total OutboxRow.counted (es ++ [e])
  final : total OutboxRow.counted (db.events w.id) = w.confirmedAmount

/-- Every watch has its event log, and every event its watch. -/
structure EventLogs (db : Db) : Prop where
  log : ∀ id w, db.watches.get? id = some w → EventLog db w
  known : ∀ e ∈ db.outbox.rows, ∃ w, db.watches.get? e.watchId = some w

variable {db db' : Db} {chain : ChainSpec} {a : Act}

/-- The log of a watch depends on its events, its sequence and its total only.
-/
theorem EventLog.congr {w w' : Watch} (h : EventLog db w) (hid : w'.id = w.id)
    (hevents : db'.events w.id = db.events w.id) (hseq : w'.nextEventSeq = w.nextEventSeq)
    (hamount : w'.confirmedAmount = w.confirmedAmount) : EventLog db' w' where
  seqs := by rw [hid, hevents, hseq]; exact h.seqs
  payloads := by rw [hid, hevents, hseq]; exact h.payloads
  reports := by rw [hid, hevents]; exact h.reports
  final := by rw [hid, hevents, hamount]; exact h.final

/-- An empty database has no watches. -/
theorem EventLogs.empty : EventLogs Db.empty where
  log id w hw := by simp [Db.empty] at hw
  known e he := by simp [Db.empty] at he

/-- The numbers above the counter of a watch are free. -/
theorem EventLog.seq_free {w : Watch} (h : EventLog db w) : ¬ db.SeqTaken w := by
  rintro ⟨k, e, hk, he⟩
  obtain ⟨hmem, hkey⟩ := Table.get?_eq_some_iff.mp he
  have hseq : e.seq = k := congrArg Prod.snd hkey
  have howner : e.watchId = w.id := congrArg Prod.fst hkey
  have hevent : e ∈ db.events w.id := by
    rw [Db.events, List.mem_filter]
    exact ⟨hmem, by simpa using howner⟩
  have hrange : k ∈ List.range' 1 w.nextEventSeq := by
    rw [← h.seqs, ← hseq]
    exact List.mem_map_of_mem hevent
  rw [List.mem_range'_1] at hrange
  omega

/-! ## Posting an event -/

section Post

variable {w w' : Watch} {type : EventType} {view : Option TransferView}
  {transfers : Table Transfer Transfer.key}

/-- A post adds one event, at the end of the log of its watch. -/
theorem Post.events (h : Post chain db w w' type view transfers db') (id : Uuid) :
    db'.events id =
      db.events id ++ if w.id = id then [eventRow db chain (.ofWatch w') type view] else [] := by
  have hid : (eventRow db chain (.ofWatch w') type view).watchId = w.id := h.sameId
  rw [Db.events, h.outbox_rows, List.filter_append]
  by_cases hw : w.id = id <;> simp [hid, hw, Db.events]

/-- The total an event reports is the one its row was written with. -/
theorem Post.reported (h : Post chain db w w' type view transfers db') :
    (eventRow db chain (.ofWatch w') type view).payload.watch.confirmedAmount.toNat =
      w'.confirmedAmount := by
  change (BitVec.ofNat 256 w'.confirmedAmount).toNat = _
  rw [BitVec.toNat_ofNat, Nat.mod_eq_of_lt h.fits.2]

/-- A post extends the event log of its watch by one event. -/
theorem Post.eventLog (h : Post chain db w w' type view transfers db')
    (hcount : w'.confirmedAmount =
      w.confirmedAmount + (eventRow db chain (.ofWatch w') type view).counted)
    (inv : EventLog db w) : EventLog db' w' := by
  have hevents : db'.events w'.id =
      db.events w.id ++ [eventRow db chain (.ofWatch w') type view] := by
    rw [h.sameId, h.events, if_pos rfl]
  have hnext : List.range' 1 w'.nextEventSeq = List.range' 1 w.nextEventSeq ++ [w'.nextEventSeq] := by
    rw [h.bumped, List.range'_1_concat, Nat.add_comm 1]
  have hfinal : total OutboxRow.counted (db'.events w'.id) = w'.confirmedAmount := by
    rw [hevents, total_append, inv.final, total_cons, total_nil, hcount, Nat.add_zero]
  refine ⟨?_, ?_, ?_, hfinal⟩
  · rw [hevents, List.map_append, inv.seqs, hnext]
    rfl
  · rw [hevents, List.map_append, inv.payloads, hnext]
    rfl
  · intro es e hpre
    rw [hevents, List.prefix_concat_iff] at hpre
    rcases hpre with heq | hpre
    · obtain ⟨-, rfl⟩ := List.append_inj' heq rfl |>.imp_right List.singleton_inj.mp
      rw [h.reported, heq, ← hevents, hfinal]
    · exact inv.reports es e hpre

/-- **A post keeps the logs** if the watch gains what the event counts. -/
theorem Post.eventLogs (h : Post chain db w w' type view transfers db')
    (hcount : w'.confirmedAmount =
      w.confirmedAmount + (eventRow db chain (.ofWatch w') type view).counted)
    (inv : EventLogs db) : EventLogs db' where
  log id u hu := by
    rw [h.watches] at hu
    cases hold : db.watches.get? id with
    | none =>
        rw [Table.get?_replace_eq_none_iff.mpr hold] at hu
        contradiction
    | some u₀ =>
        have hfound : db.watches.get? w'.id = some w := by rw [h.sameId]; exact h.found
        rcases Table.get?_replace_cases hfound hold with ⟨rfl, rfl, hg⟩ | ⟨hne, hg⟩
        · rw [hg] at hu
          cases hu
          exact h.eventLog hcount (inv.log _ _ h.found)
        · rw [hg] at hu
          cases hu
          have hid := Table.key_of_get? hold
          refine (inv.log id u hold).congr rfl ?_ rfl rfl
          rw [h.events, if_neg, List.append_nil]
          rw [hid, ← h.sameId]
          exact Ne.symm hne
  known e he := by
    rw [h.outbox_rows, List.mem_append, List.mem_singleton] at he
    have hold : ∃ u, db.watches.get? e.watchId = some u := by
      rcases he with he | rfl
      · exact inv.known e he
      · exact ⟨w, by rw [← h.found]; exact congrArg db.watches.get? h.sameId⟩
    obtain ⟨u, hu⟩ := hold
    cases hnew : db'.watches.get? e.watchId with
    | some u' => exact ⟨u', rfl⟩
    | none =>
        rw [h.watches, Table.get?_replace_eq_none_iff, hu] at hnew
        contradiction

end Post

/-! ## Every step -/

/-- Updating a row without touching its counter or total. -/
theorem EventLogs.putWatch {w w' : Watch} (inv : EventLogs db)
    (found : db.watches.get? w.id = some w) (hid : w'.id = w.id)
    (hseq : w'.nextEventSeq = w.nextEventSeq) (hamount : w'.confirmedAmount = w.confirmedAmount) :
    EventLogs (db.putWatch w') where
  log id u hu := by
    rw [Db.watches_putWatch] at hu
    cases hold : db.watches.get? id with
    | none =>
        rw [Table.get?_replace_eq_none_iff.mpr hold] at hu
        contradiction
    | some u₀ =>
        rw [← hid] at found
        rcases Table.get?_replace_cases found hold with ⟨rfl, rfl, hg⟩ | ⟨-, hg⟩
        · rw [hg] at hu
          cases hu
          exact (inv.log _ _ hold).congr hid rfl hseq hamount
        · rw [hg] at hu
          cases hu
          exact (inv.log id u hold).congr rfl rfl rfl rfl
  known e he := by
    obtain ⟨u, hu⟩ := inv.known e he
    cases hnew : (db.putWatch w').watches.get? e.watchId with
    | some u' => exact ⟨u', rfl⟩
    | none =>
        rw [Db.watches_putWatch, Table.get?_replace_eq_none_iff, hu] at hnew
        contradiction

/-- Same watches, same outbox. -/
theorem EventLogs.frame (inv : EventLogs db) (watches : db'.watches = db.watches)
    (outbox : db'.outbox = db.outbox) : EventLogs db' where
  log id w hw := by
    rw [watches] at hw
    refine (inv.log id w hw).congr rfl ?_ rfl rfl
    rw [Db.events, outbox, Db.events]
  known := by
    rw [watches, outbox]
    exact inv.known

/-- A registered watch has no events yet. -/
theorem EventLogs.register {id : Uuid} {new : NewWatch} {seq cursor now watchesSeq : Nat}
    {watches : Table Watch Watch.id} (inv : EventLogs db)
    (insert : db.watches.insertNew (new.row id seq cursor now) = some watches) :
    EventLogs { db with watches, watchesSeq } where
  log id' w hw := by
    change watches.get? id' = some w at hw
    rw [Table.get?_insertNew insert] at hw
    split at hw
    · next hk =>
        cases hw
        have hnone : db.events id = [] := by
          rw [Db.events, List.filter_eq_nil_iff]
          intro e he
          obtain ⟨u, hu⟩ := inv.known e he
          have hfree := Table.get?_of_insertNew insert
          intro heq
          have howner : e.watchId = id := by simpa using heq
          rw [howner] at hu
          change db.watches.get? id = none at hfree
          rw [hfree] at hu
          contradiction
        have hevents : Db.events { db with watches, watchesSeq } (new.row id seq cursor now).id = [] :=
          hnone
        refine ⟨?_, ?_, ?_, ?_⟩ <;> rw [hevents]
        · rfl
        · rfl
        · intro es e hpre
          simp at hpre
        · rfl
    · exact (inv.log id' w hw).congr rfl rfl rfl rfl
  known e he := by
    obtain ⟨u, hu⟩ := inv.known e he
    refine ⟨u, ?_⟩
    change watches.get? e.watchId = some u
    rw [Table.get?_insertNew insert, if_neg, hu]
    intro heq
    rw [← heq, Table.get?_of_insertNew insert] at hu
    contradiction

/-- So does counting a match. -/
theorem Counts.eventLogs {w : Watch} {m : MatchedTransfer} (h : Counts chain db w m db')
    (inv : EventLogs db) : EventLogs db' := by
  obtain ⟨transfers, -, post⟩ := h.step
  exact post.eventLogs rfl inv

/-- **Every step keeps the event logs.** -/
theorem EventLogs.step (h : Step db a db') (inv : EventLogs db) : EventLogs db' := by
  cases h with
  | register _ _ _ _ insert => exact inv.register insert
  | cancel found _ => exact inv.putWatch found rfl rfl rfl
  | expire _ post => exact post.eventLogs rfl inv
  | announce _ _ _ post => exact post.eventLogs rfl inv
  | count counts _ => exact counts.eventLogs inv
  | complete counts _ post => exact post.eventLogs rfl (counts.eventLogs inv)
  | ignore _ _ => exact inv.frame rfl rfl
  | orphanRetired _ _ _ => exact inv.frame rfl rfl
  | orphan _ _ _ _ _ _ post => exact post.eventLogs rfl inv
  | clearBackfill found => exact inv.putWatch found rfl rfl rfl
  | moveCursor watches _ outbox _ => exact inv.frame watches outbox
  | other watches _ outbox _ _ => exact inv.frame watches outbox

/-- The logs are kept in every reachable state. -/
theorem eventLogs_run (ops : List Op) : EventLogs (run exec Db.empty ops) :=
  reachable_invariant EventLogs (fun _ _ _ => EventLogs.step) .empty ops

/-- **The event log reconstructs the watch.**  In every reachable state the
events of a watch are numbered `1 .. nextEventSeq` in the order they were
written, in the row and in the payload; each event reports the total of the
`payment.confirmed` amounts up to and including it; all of them add up to the
watch's total; and no operation fails because an event number is taken. -/
theorem events_reconstruct_watch (ops : List Op) :
    (∀ w ∈ (run exec Db.empty ops).watches.rows,
        ((run exec Db.empty ops).events w.id).map OutboxRow.seq = List.range' 1 w.nextEventSeq ∧
        ((run exec Db.empty ops).events w.id).map (fun e => e.payload.sequence) =
          List.range' 1 w.nextEventSeq ∧
        (∀ es e, es ++ [e] <+: (run exec Db.empty ops).events w.id →
          e.payload.watch.confirmedAmount.toNat = total OutboxRow.counted (es ++ [e])) ∧
        total OutboxRow.counted ((run exec Db.empty ops).events w.id) = w.confirmedAmount) ∧
      ∀ op, execError (run exec Db.empty ops) op ≠
        some (.db (.uniqueViolation .outboxWatchSeq)) := by
  have inv := eventLogs_run ops
  refine ⟨fun w hw => ?_, fun op => ?_⟩
  · have log := inv.log w.id w (Table.get?_of_mem hw)
    exact ⟨log.seqs, log.payloads, log.reports, log.final⟩
  · exact execError_ne_seqViolation (fun _ _ _ => EventLogs.step)
      (fun _ _ h hw => (h.log _ _ hw).seq_free) inv op

end GumIndexer
