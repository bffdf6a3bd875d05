import GumIndexer.EventLog

/-!
# GumIndexer.Lifecycle

The life of a watch, and what holds of the watches of every reachable state.

A watch is registered active, and only an active watch is announced to,
credited, completed, expired or cancelled (`Watch.Update`).  From this follow
the facts that the counting paths rely on without checking them (`Sound`): the
amounts are `uint256` values, an active watch is short of its threshold, and
no target has two active watches.  The active watch of a target need not be the
one with the largest `seq`: the number is drawn at the `INSERT`, and a
registration that drew it earlier may commit later.
-/

namespace GumIndexer

open Base

variable {db db' : Db} {a : Act}

/-- Both watches are on one target. -/
structure Watch.Shares (u w : Watch) : Prop where
  chainId : u.chainId = w.chainId
  tokenAddress : u.tokenAddress = w.tokenAddress
  paymentAddress : u.paymentAddress = w.paymentAddress

/-- Sharing a target is symmetric. -/
theorem Watch.Shares.symm {u w : Watch} (h : u.Shares w) : w.Shares u :=
  ⟨h.chainId.symm, h.tokenAddress.symm, h.paymentAddress.symm⟩

/-- It is about the columns of a watch only. -/
theorem Watch.Shares.of_same {v u w : Watch} (h : u.Shares w) (hsame : v.Same u) : v.Shares w :=
  ⟨hsame.chainId.symm.trans h.chainId, hsame.tokenAddress.symm.trans h.tokenAddress,
    hsame.paymentAddress.symm.trans h.paymentAddress⟩

/-- What holds of the watches of every reachable state. -/
structure Sound (db : Db) : Prop where
  fits : ∀ id w, db.watches.get? id = some w → w.Fits
  short : ∀ id w, db.watches.get? id = some w → w.status = .active →
    w.confirmedAmount < w.threshold
  seq_le : ∀ id w, db.watches.get? id = some w → w.seq ≤ db.watchesSeq
  seq_inj : ∀ id id' w w', db.watches.get? id = some w → db.watches.get? id' = some w' →
    w.seq = w'.seq → id = id'
  /-- A target has one active watch at most. -/
  single : ∀ id id' u w, db.watches.get? id = some u → db.watches.get? id' = some w →
    u.status = .active → w.status = .active → u.Shares w → id = id'

/-- An empty database is sound. -/
theorem Sound.empty : Sound Db.empty where
  fits id w hw := by simp [Db.empty] at hw
  short id w hw := by simp [Db.empty] at hw
  seq_le id w hw := by simp [Db.empty] at hw
  seq_inj id id' w w' hw := by simp [Db.empty] at hw
  single id id' u w hu := by simp [Db.empty] at hu

/-! ## Steps -/

/-- A post draws no number. -/
theorem Post.watchesSeq {chain : ChainSpec} {w w' : Watch} {type : EventType}
    {view : Option TransferView} {transfers : Table Transfer Transfer.key}
    (h : Post chain db w w' type view transfers db') : db'.watchesSeq = db.watchesSeq := by
  obtain ⟨outbox, -, rfl⟩ := h.posted
  rfl

/-- The sequence of `watches.seq` never goes back. -/
theorem Step.watchesSeq_le (h : Step db a db') : db.watchesSeq ≤ db'.watchesSeq := by
  have hcounts : ∀ {chain : ChainSpec} {w : Watch} {m : MatchedTransfer} {db₁ : Db},
      Counts chain db w m db₁ → db₁.watchesSeq = db.watchesSeq := by
    intro chain w m db₁ counts
    obtain ⟨transfers, -, post⟩ := counts.step
    exact post.watchesSeq
  cases h with
  | register _ _ _ _ _ => exact Nat.le_max_left _ _
  | cancel _ _ => exact Nat.le_refl _
  | expire _ post => exact Nat.le_of_eq post.watchesSeq.symm
  | announce _ _ _ post => exact Nat.le_of_eq post.watchesSeq.symm
  | count counts _ => exact Nat.le_of_eq (hcounts counts).symm
  | complete counts _ post => exact Nat.le_of_eq (post.watchesSeq.trans (hcounts counts)).symm
  | ignore _ _ => exact Nat.le_refl _
  | orphanRetired _ _ _ => exact Nat.le_refl _
  | orphan _ _ _ _ _ _ post => exact Nat.le_of_eq post.watchesSeq.symm
  | clearBackfill _ => exact Nat.le_refl _
  | moveCursor _ _ _ seq => exact Nat.le_of_eq seq.symm
  | other _ _ _ _ seq => exact seq

/-- What a registration brings: fresh amounts, a sequence number no watch has,
and no active watch on the target. -/
structure Fresh (db : Db) (w : Watch) : Prop where
  fits : w.Fits
  short : w.confirmedAmount < w.threshold
  seq : db.watchesSeq < w.seq ∨ ∀ u ∈ db.watches.rows, u.seq ≠ w.seq
  free : ∀ id u, db.watches.get? id = some u → u.Shares w → u.status ≠ .active

/-- If the index finds nothing, no watch of the target is active. -/
theorem activeOn_eq_none {chainId : Nat} {token payment : Address} {u : Watch}
    (h : db.activeOn chainId token payment = none) (hu : u ∈ db.watches.rows)
    (hchain : u.chainId = chainId) (htoken : u.tokenAddress = token)
    (hpayment : u.paymentAddress = payment) : u.status ≠ .active := by
  have hn := List.find?_eq_none.mp h u hu
  simpa [hchain, htoken, hpayment] using hn

/-- **A watch is registered with a number of its own**, on a target that nobody
watches. -/
theorem Step.fresh {w : Watch} (h : Step db (.register w) db') :
    Fresh db w ∧ db'.watchesSeq = max db.watchesSeq w.seq := by
  cases h with
  | @register id new cur seq _ _ positive free fresh _ =>
      refine ⟨⟨⟨new.threshold.isLt, Nat.two_pow_pos 256⟩, Nat.pos_of_ne_zero positive, fresh, ?_⟩, rfl⟩
      exact fun id u hu hshares => activeOn_eq_none free (Table.mem_of_get? hu) hshares.chainId
        hshares.tokenAddress hshares.paymentAddress

/-- Where a watch of the state after a step comes from. -/
theorem Step.origin {id : Uuid} {w' : Watch} (h : Step db a db')
    (hw' : db'.watches.get? id = some w') :
    (∃ w, db.watches.get? id = some w ∧ w.Same w' ∧ (w'.status = .active → w.status = .active)) ∨
      (a = .register w' ∧ Fresh db w' ∧ db'.watchesSeq = max db.watchesSeq w'.seq) := by
  rcases h.watch_update hw' with hold | rfl | ⟨w, hw, hupdate⟩
  · exact .inl ⟨w', hold, .refl w', fun ha => ha⟩
  · exact .inr ⟨rfl, h.fresh⟩
  · exact .inl ⟨w, hw, hupdate.same, hupdate.active_of_active⟩

/-- The number of a registered watch is its own. -/
theorem Fresh.seq_ne {id : Uuid} {u w : Watch} (h : Fresh db w) (inv : Sound db)
    (hu : db.watches.get? id = some u) : u.seq ≠ w.seq := by
  rcases h.seq with hlt | hne
  · have hle := inv.seq_le id u hu
    omega
  · exact hne u (Table.mem_of_get? hu)

/-- **Every step keeps the watches sound.** -/
theorem Sound.step (h : Step db a db') (inv : Sound db) : Sound db' where
  fits id w' hw' := by
    rcases h.watch_update hw' with hold | rfl | ⟨w, hw, hupdate⟩
    · exact inv.fits id w' hold
    · exact h.fresh.1.fits
    · have hfits := inv.fits id w hw
      cases hupdate with
      | count _ fits _ => exact fits
      | complete _ fits _ => exact fits
      | _ => exact hfits
  short id w' hw' ha := by
    rcases h.watch_update hw' with hold | rfl | ⟨w, hw, hupdate⟩
    · exact inv.short id w' hold ha
    · exact h.fresh.1.short
    · have hshort := inv.short id w hw (hupdate.active_of_active ha)
      cases hupdate with
      | count _ _ below => exact below
      | event _ => exact hshort
      | backfilled => exact hshort
      | _ => contradiction
  seq_le id w' hw' := by
    have hle := h.watchesSeq_le
    rcases h.origin hw' with ⟨w, hw, hsame, -⟩ | ⟨-, hfresh, hseq⟩
    · have hold := inv.seq_le id w hw
      rw [hsame.seq]
      omega
    · rw [hseq]
      exact Nat.le_max_right _ _
  seq_inj id id' w w' hw hw' heq := by
    rcases h.origin hw with ⟨v, hv, hsame, -⟩ | ⟨ha, hfresh, -⟩
    · rw [hsame.seq] at heq
      rcases h.origin hw' with ⟨v', hv', hsame', -⟩ | ⟨-, hfresh', -⟩
      · exact inv.seq_inj id id' v v' hv hv' (heq.trans hsame'.seq)
      · exact absurd heq (hfresh'.seq_ne inv hv)
    · rcases h.origin hw' with ⟨v', hv', hsame', -⟩ | ⟨ha', -, -⟩
      · exact absurd (heq.trans hsame'.seq).symm (hfresh.seq_ne inv hv')
      · rw [ha] at ha'
        injection ha' with hww
        rw [← Table.key_of_get? hw, ← Table.key_of_get? hw', hww]
  single id id' u w hu hw hua hwa hshares := by
    rcases h.origin hu with ⟨v, hv, hsame, hactive⟩ | ⟨hau, hfresh, -⟩
    · have hvw : v.Shares w := hshares.of_same hsame
      rcases h.origin hw with ⟨v', hv', hsame', hactive'⟩ | ⟨-, hfresh', -⟩
      · exact inv.single id id' v v' hv hv' (hactive hua) (hactive' hwa)
          (hvw.symm.of_same hsame').symm
      · -- the target was free of active watches
        exact absurd (hactive hua) (hfresh'.free id v hv hvw)
    · rcases h.origin hw with ⟨v', hv', hsame', hactive'⟩ | ⟨haw, -, -⟩
      · exact absurd (hactive' hwa) (hfresh.free id' v' hv' (hshares.symm.of_same hsame'))
      · rw [hau] at haw
        injection haw with huw
        rw [← Table.key_of_get? hu, ← Table.key_of_get? hw, huw]

/-- Every reachable database is sound. -/
theorem sound_run (ops : List Op) : Sound (run exec Db.empty ops) :=
  reachable_invariant Sound (fun _ _ _ => Sound.step) .empty ops

/-! ## Events and retirement -/

/-- What a step can make of a watch, with the events it queues for it. -/
inductive Watch.Progress (w : Watch) : List EventType → Watch → Prop
  | idle : Progress w [] w
  | cancel {now : Nat} (active : w.status = .active) : Progress w [] (w.withStatus .cancelled now)
  | expire {now : Nat} (active : w.status = .active) :
      Progress w [.watchExpired] (w.retire .expired now)
  | announce (active : w.status = .active) : Progress w [.paymentPending] w.bump
  | orphan (active : w.status = .active) : Progress w [.paymentOrphaned] w.bump
  | count {amount : Nat} (active : w.status = .active)
      (below : w.confirmedAmount + amount < w.threshold) :
      Progress w [.paymentConfirmed] (w.credit amount)
  | complete {amount now : Nat} (active : w.status = .active)
      (reached : w.threshold ≤ w.confirmedAmount + amount) :
      Progress w [.paymentConfirmed, .thresholdReached] ((w.credit amount).retire .completed now)
  | backfilled : Progress w [] w.backfilled

/-- The watch makes progress and its new events are queued. -/
def Advances (db : Db) (id : Uuid) (w : Watch) (db' : Db) : Prop :=
  ∃ w' es, db'.watches.get? id = some w' ∧ db'.events id = db.events id ++ es ∧
    w.Progress (es.map OutboxRow.eventType) w'

section Progress

variable {u u' w : Watch} {id : Uuid}

/-- A watch may stay as it is. -/
theorem Advances.idle (hw : db'.watches.get? id = some w) (hevents : db'.events id = db.events id) :
    Advances db id w db' :=
  ⟨w, [], hw, by rw [hevents, List.append_nil], .idle⟩

/-- A row is replaced and no event is queued. -/
theorem advances_putWatch (found : db.watches.get? u.id = some u) (hid : u'.id = u.id)
    (hu : u.Progress [] u') (hw : db.watches.get? id = some w) :
    Advances db id w (db.putWatch u') := by
  rw [← hid] at found
  rcases Table.get?_replace_cases found hw with ⟨rfl, rfl, hg⟩ | ⟨-, hg⟩
  · exact ⟨u', [], hg, (List.append_nil _).symm, hu⟩
  · exact .idle hg rfl

/-- A post advances its own watch, and leaves the others as they are. -/
theorem Post.advances {chain : ChainSpec} {type : EventType} {view : Option TransferView}
    {transfers : Table Transfer Transfer.key} (h : Post chain db u u' type view transfers db')
    (hu : u.Progress [type] u') (hw : db.watches.get? id = some w) : Advances db id w db' := by
  have found : db.watches.get? u'.id = some u := by rw [h.sameId]; exact h.found
  rcases Table.get?_replace_cases found hw with ⟨rfl, rfl, hg⟩ | ⟨hne, hg⟩
  · refine ⟨u', [eventRow db chain (.ofWatch u') type view], by rw [h.watches]; exact hg, ?_, hu⟩
    rw [h.events, if_pos h.sameId.symm]
  · refine .idle (by rw [h.watches]; exact hg) ?_
    rw [h.events, if_neg (fun heq => hne (h.sameId.trans heq).symm), List.append_nil]

/-- **A step is progress of every watch.** -/
theorem Step.advances (h : Step db a db') (hw : db.watches.get? id = some w) :
    Advances db id w db' := by
  cases h with
  | register _ _ _ _ insert =>
      refine .idle ?_ rfl
      rw [Table.get?_insertNew insert, if_neg, hw]
      rintro rfl
      rw [Table.get?_of_insertNew insert] at hw
      contradiction
  | cancel found active => exact advances_putWatch found rfl (.cancel active) hw
  | expire active post => exact post.advances (.expire active) hw
  | announce _ active _ post => exact post.advances (.announce active) hw
  | count counts below =>
      obtain ⟨transfers, -, post⟩ := counts.step
      exact post.advances (.count counts.active below) hw
  | @complete d _ _ u m counts reached post =>
      obtain ⟨transfers, -, post₁⟩ := counts.step
      have hwatches : db'.watches =
          db.watches.replace ((u.credit m.amount.toNat).retire .completed d.now) := by
        rw [post.watches, post₁.watches]
        exact Table.replace_replace rfl
      rcases Table.get?_replace_cases (a := (u.credit m.amount.toNat).retire .completed d.now)
        post₁.found hw with ⟨rfl, rfl, hg⟩ | ⟨hne, hg⟩
      · -- both events are those of the completed watch
        have hevents := post.events w.id
        rw [if_pos (Watch.id_credit w _), post₁.events, if_pos rfl, List.append_assoc] at hevents
        exact ⟨_, _, by rw [hwatches]; exact hg, hevents, .complete counts.active reached⟩
      · refine .idle (by rw [hwatches]; exact hg) ?_
        have hid : u.id ≠ id := Ne.symm hne
        rw [post.events, post₁.events]
        simp [hid]
  | ignore _ _ => exact .idle hw rfl
  | orphanRetired _ _ _ => exact .idle hw rfl
  | orphan _ _ _ _ active _ post => exact post.advances (.orphan active) hw
  | clearBackfill found => exact advances_putWatch found rfl .backfilled hw
  | moveCursor watches _ outbox _ =>
      exact .idle (by rw [watches, hw]) (by rw [Db.events, outbox, Db.events])
  | other watches _ outbox _ _ =>
      exact .idle (by rw [watches, hw]) (by rw [Db.events, outbox, Db.events])

end Progress

/-- The event with which a watch enters a status. -/
def WatchStatus.closing? : WatchStatus → Option EventType
  | .completed => some .thresholdReached
  | .expired => some .watchExpired
  | .active => none
  | .cancelled => none

/-- The event retires its watch. -/
def EventType.Closes (t : EventType) : Prop := t = .thresholdReached ∨ t = .watchExpired

/-- The watch is completed if it reached its threshold, and its events end
with the one that retired it. -/
structure Closed (db : Db) (w : Watch) : Prop where
  completed : w.status = .completed ↔ w.threshold ≤ w.confirmedAmount
  closing : ∃ ts, (∀ t ∈ ts, ¬ t.Closes) ∧
    (db.events w.id).map OutboxRow.eventType = ts ++ w.status.closing?.toList

/-- Progress keeps a watch closed. -/
theorem Closed.advance {w w' : Watch} {new : List EventType} (inv : Closed db w)
    (hevents : (db'.events w'.id).map OutboxRow.eventType =
      (db.events w.id).map OutboxRow.eventType ++ new)
    (h : w.Progress new w') : Closed db' w' := by
  obtain ⟨ts, hts, heq⟩ := inv.closing
  have hcompleted := inv.completed
  rw [heq] at hevents
  -- an event that closes nothing joins those before it
  have hjoin : ∀ t : EventType, ¬ t.Closes → ∀ t' ∈ ts ++ [t], ¬ t'.Closes := by
    intro t ht t' ht'
    rcases List.mem_append.mp ht' with ht' | ht'
    · exact hts t' ht'
    · rw [List.mem_singleton.mp ht']
      exact ht
  cases h with
  | idle => exact ⟨hcompleted, ts, hts, by rw [hevents, List.append_nil]⟩
  | backfilled => exact ⟨hcompleted, ts, hts, by rw [hevents, List.append_nil]; rfl⟩
  | cancel active =>
      rw [active] at hcompleted hevents
      have hshort : ¬ w.threshold ≤ w.confirmedAmount := mt hcompleted.mpr (by decide)
      refine ⟨iff_of_false WatchStatus.noConfusion hshort, ts, hts, ?_⟩
      rw [hevents, List.append_nil]
      rfl
  | expire active =>
      rw [active] at hcompleted hevents
      have hshort : ¬ w.threshold ≤ w.confirmedAmount := mt hcompleted.mpr (by decide)
      refine ⟨iff_of_false WatchStatus.noConfusion hshort, ts, hts, ?_⟩
      rw [hevents, List.append_assoc]
      rfl
  | announce active =>
      refine ⟨hcompleted, ts ++ [_], hjoin .paymentPending (by simp [EventType.Closes]), ?_⟩
      rw [hevents, active]
      simp [Watch.bump, active, WatchStatus.closing?]
  | orphan active =>
      refine ⟨hcompleted, ts ++ [_], hjoin .paymentOrphaned (by simp [EventType.Closes]), ?_⟩
      rw [hevents, active]
      simp [Watch.bump, active, WatchStatus.closing?]
  | @count amount active below =>
      refine ⟨iff_of_false ?_ (Nat.not_le_of_lt below), ts ++ [_],
        hjoin .paymentConfirmed (by simp [EventType.Closes]), ?_⟩
      · change w.status ≠ .completed
        rw [active]
        decide
      · rw [hevents, active]
        simp [Watch.credit, Watch.bump, Watch.add, active, WatchStatus.closing?]
  | complete active reached =>
      refine ⟨iff_of_true rfl reached, ts ++ [_],
        hjoin .paymentConfirmed (by simp [EventType.Closes]), ?_⟩
      rw [hevents, active]
      simp [Watch.retire, Watch.withStatus, WatchStatus.closing?]

/-- Every watch is closed, and has its event log. -/
structure Retirements (db : Db) : Prop where
  logs : EventLogs db
  closed : ∀ id w, db.watches.get? id = some w → Closed db w

/-- An empty database has no watches. -/
theorem Retirements.empty : Retirements Db.empty where
  logs := .empty
  closed id w hw := by simp [Db.empty] at hw

/-- **A step closes a watch with its last event**, or leaves it as open or
closed as it was. -/
theorem Retirements.step (h : Step db a db') (inv : Retirements db) : Retirements db' where
  logs := inv.logs.step h
  closed id w' hw' := by
    obtain rfl := Table.key_of_get? hw'
    cases hold : db.watches.get? w'.id with
    | some w =>
        obtain ⟨w₁, es, hw₁, hevents, hprogress⟩ := h.advances hold
        rw [hw'] at hw₁
        cases hw₁
        refine (inv.closed _ w hold).advance ?_ hprogress
        rw [hevents, List.map_append, Table.key_of_get? hold]
    | none =>
        obtain rfl := h.new_watch hold hw'
        have log := (inv.logs.step h).log _ _ hw'
        cases h with
        | register _ positive _ _ _ =>
            refine ⟨iff_of_false WatchStatus.noConfusion ?_, [], by simp, ?_⟩
            · exact fun hle => positive (Nat.le_zero.mp hle)
            · have hseqs := log.seqs
              rw [show (NewWatch.row _ _ _ _ _).nextEventSeq = 0 from rfl] at hseqs
              rw [List.map_eq_nil_iff.mp hseqs]
              rfl

/-- So it is in every reachable state. -/
theorem retirements_run (ops : List Op) : Retirements (run exec Db.empty ops) :=
  reachable_invariant Retirements (fun _ _ _ => Retirements.step) .empty ops

/-- The watch has one event of this type, and it is its last one. -/
def EndsWith (db : Db) (id : Uuid) (type : EventType) : Prop :=
  ∃ e, (db.events id).filter (fun e => e.eventType = type) = [e] ∧
    ∀ e' ∈ db.events id, e'.seq ≤ e.seq

/-- A closed watch ends with the one event that closes it. -/
theorem Closed.endsWith {w : Watch} {t : EventType} (inv : Closed db w) (log : EventLog db w)
    (ht : w.status.closing? = some t) (hcloses : t.Closes) : EndsWith db w.id t := by
  obtain ⟨ts, hts, heq⟩ := inv.closing
  rw [ht] at heq
  obtain ⟨es, l, hevents, hes, hl⟩ := List.map_eq_append_iff.mp heq
  obtain ⟨e, rfl, he⟩ := List.map_eq_singleton_iff.mp hl
  refine ⟨e, ?_, ?_⟩
  · have hother : es.filter (fun e => e.eventType = t) = [] := by
      rw [List.filter_eq_nil_iff]
      intro e' he' htype
      refine hts e'.eventType ?_ ?_
      · rw [← hes]
        exact List.mem_map_of_mem he'
      · rw [of_decide_eq_true htype]
        exact hcloses
    rw [hevents, List.filter_append, hother]
    simp [he]
  · -- the numbers `1 .. n` ascend, so the last one is the largest
    have hsorted : ((es ++ [e]).map OutboxRow.seq).Pairwise (· ≤ ·) := by
      rw [← hevents, log.seqs]
      exact (List.pairwise_lt_range' (s := 1)).imp Nat.le_of_lt
    rw [List.map_append, List.pairwise_append] at hsorted
    intro e' he'
    rw [hevents, List.mem_append, List.mem_singleton] at he'
    rcases he' with he' | rfl
    · exact hsorted.2.2 _ (List.mem_map_of_mem he') _ (by simp)
    · exact Nat.le_refl _

/-- The watch `id` is as it was left: in this state, with these events. -/
def Frozen (w : Watch) (es : List OutboxRow) (db : Db) : Prop :=
  (∃ w', db.watches.get? w.id = some w' ∧ w'.status = w.status ∧
    w'.confirmedAmount = w.confirmedAmount ∧ w'.nextEventSeq = w.nextEventSeq) ∧ db.events w.id = es

/-- Nothing happens to a watch that is closed. -/
theorem Watch.Progress.of_retired {w w' : Watch} {ts : List EventType} (h : w.Progress ts w')
    (hr : w.status ≠ .active) : ts = [] ∧ w'.status = w.status ∧
      w'.confirmedAmount = w.confirmedAmount ∧ w'.nextEventSeq = w.nextEventSeq := by
  cases h with
  | idle => exact ⟨rfl, rfl, rfl, rfl⟩
  | backfilled => exact ⟨rfl, rfl, rfl, rfl⟩
  | _ => contradiction

/-- No step changes a closed watch or its events. -/
theorem Frozen.step {w : Watch} {es : List OutboxRow} (hr : w.status ≠ .active)
    (h : Step db a db') (inv : Frozen w es db) : Frozen w es db' := by
  obtain ⟨⟨w₁, hw₁, hs, hc, hn⟩, hes⟩ := inv
  obtain ⟨w₂, new, hw₂, hevents, hprogress⟩ := h.advances hw₁
  obtain ⟨hnew, hs', hc', hn'⟩ := hprogress.of_retired (by rw [hs]; exact hr)
  refine ⟨⟨w₂, hw₂, hs'.trans hs, hc'.trans hc, hn'.trans hn⟩, ?_⟩
  rw [hevents, List.map_eq_nil_iff.mp hnew, List.append_nil, hes]

/-- **A retired watch never changes again.** -/
theorem Frozen.run {w : Watch} {es : List OutboxRow} (hr : w.status ≠ .active)
    (inv : Frozen w es db) (ops : List Op) : Frozen w es (Base.run exec db ops) :=
  invariant_run (Frozen w es)
    (fun _ op h => exec_invariant (Frozen w es) (fun _ _ _ => Frozen.step hr) h op) inv ops

/-- **Threshold and retirement.**  In every reachable state a watch is
completed exactly if it reached its threshold; a completed watch ends with its
only `threshold.reached`, an expired one with its only `watch.expired`; and
once a watch is retired, neither its status, total and event number nor its
events ever change. -/
theorem retired_once (ops : List Op) (w : Watch)
    (hw : w ∈ (run exec Db.empty ops).watches.rows) :
    (w.status = .completed ↔ w.threshold ≤ w.confirmedAmount) ∧
      (w.status = .completed → EndsWith (run exec Db.empty ops) w.id .thresholdReached) ∧
      (w.status = .expired → EndsWith (run exec Db.empty ops) w.id .watchExpired) ∧
      (w.status ≠ .active → ∀ later,
        (∃ w' ∈ (run exec Db.empty (ops ++ later)).watches.rows, w'.id = w.id ∧
          w'.status = w.status ∧ w'.confirmedAmount = w.confirmedAmount ∧
          w'.nextEventSeq = w.nextEventSeq) ∧
        (run exec Db.empty (ops ++ later)).events w.id = (run exec Db.empty ops).events w.id) := by
  have inv := retirements_run ops
  have found := Table.get?_of_mem hw
  have closed := inv.closed _ w found
  have log := inv.logs.log _ w found
  refine ⟨closed.completed, fun hs => ?_, fun hs => ?_, fun hr later => ?_⟩
  · exact closed.endsWith log (by rw [hs]; rfl) (.inl rfl)
  · exact closed.endsWith log (by rw [hs]; rfl) (.inr rfl)
  · rw [run_append]
    obtain ⟨⟨w', hw', hsame⟩, hevents⟩ :=
      Frozen.run hr ⟨⟨w, found, rfl, rfl, rfl⟩, rfl⟩ later
    exact ⟨⟨w', Table.mem_of_get? hw', Table.key_of_get? hw', hsame⟩, hevents⟩

/-- One payment of 100 completes the watch. -/
theorem retired_once_completed :
    ∃ w ∈ (run exec Db.empty completedWatch).watches.rows, w.status = .completed ∧
      EndsWith (run exec Db.empty completedWatch) w.id .thresholdReached := by
  have hstatus : (run exec Db.empty completedWatch).watches.rows.map Watch.status =
      [.completed] := by decide +kernel
  obtain ⟨w, hrows, hs⟩ := List.map_eq_singleton_iff.mp hstatus
  have hw : w ∈ [w] := List.mem_singleton_self w
  rw [← hrows] at hw
  exact ⟨w, hw, hs, (retired_once _ w hw).2.1 hs⟩

/-- Only one watch of a target is active. -/
theorem Sound.active_unique (inv : Sound db) {u w : Watch} (hu : db.watches.get? u.id = some u)
    (hw : db.watches.get? w.id = some w) (hua : u.status = .active) (hwa : w.status = .active)
    (h : u.Shares w) : u = w := by
  have hid := inv.single u.id w.id u w hu hw hua hwa h
  rw [hid, hw] at hu
  exact (Option.some.inj hu).symm

end GumIndexer
