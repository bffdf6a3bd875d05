import GumIndexer.Ops

/-!
# GumIndexer.Accounting

No transfer is counted twice.

The `payment.confirmed` events of the outbox are a journal of everything that
was ever counted: `Db.credits` reads it off, and each step of the store
appends to it exactly the credits on its label (`Step.credits`).  The
accounting invariant `Accounts` ties the three places that know about a count
together: the journal names no log twice, it names exactly the logs whose row
is confirmed, and every watch's total is the sum of its credits.
-/

namespace GumIndexer

open Base

/-! ## The journal -/

/-- The log an event is about. -/
def OutboxRow.log? (e : OutboxRow) : Option LogId :=
  e.payload.transfer.map fun v => ⟨e.payload.watch.chainId, v.blockHash, v.logIndex⟩

/-- The credit a `payment.confirmed` event reports. -/
def OutboxRow.credit? (e : OutboxRow) : Option Credit :=
  if e.eventType = .paymentConfirmed then
    e.payload.transfer.map fun v =>
      ⟨e.watchId, ⟨e.payload.watch.chainId, v.blockHash, v.logIndex⟩, v.amount.toNat⟩
  else none

/-- Everything that was counted, in order. -/
def Db.credits (db : Db) : List Credit := db.outbox.rows.filterMap OutboxRow.credit?

/-- The sum of the credits of one watch. -/
def creditTotal (cs : List Credit) (id : Uuid) : Nat :=
  ((cs.filter fun c => c.watchId = id).map Credit.amount).sum

@[simp] theorem creditTotal_nil (id : Uuid) : creditTotal [] id = 0 := rfl

@[simp] theorem creditTotal_append (cs ds : List Credit) (id : Uuid) :
    creditTotal (cs ++ ds) id = creditTotal cs id + creditTotal ds id := by
  simp [creditTotal]

/-- One credit counts for its own watch. -/
theorem creditTotal_singleton (c : Credit) (id : Uuid) :
    creditTotal [c] id = if c.watchId = id then c.amount else 0 := by
  by_cases h : c.watchId = id <;> simp [creditTotal, h]

/-- The log has a row in this status. -/
def HasStatus (transfers : Table Transfer Transfer.key) (log : LogId) (s : TransferStatus) : Prop :=
  ∃ t, transfers.get? log = some t ∧ t.status = s

instance (transfers : Table Transfer Transfer.key) (log : LogId) (s : TransferStatus) :
    Decidable (HasStatus transfers log s) :=
  decidable_of_iff ((transfers.get? log).any fun t => t.status = s) (by
    simp [HasStatus, Option.any_eq_true])

/-- The row of the log is confirmed. -/
def Db.Confirmed (db : Db) (log : LogId) : Prop := HasStatus db.transfers log .confirmed

instance (db : Db) (log : LogId) : Decidable (db.Confirmed log) :=
  inferInstanceAs (Decidable (HasStatus _ _ _))

/-- The `payment.confirmed` events of a log. -/
def Db.confirmedEvents (db : Db) (log : LogId) : List OutboxRow :=
  db.outbox.rows.filter fun e => e.eventType = .paymentConfirmed ∧ e.log? = some log

variable {db db' : Db} {chain : ChainSpec} {a : Act}

/-- A post appends one row to the outbox. -/
theorem Post.outbox_rows {w w' : Watch} {type : EventType} {view : Option TransferView}
    {transfers : Table Transfer Transfer.key} (h : Post chain db w w' type view transfers db') :
    db'.outbox.rows = db.outbox.rows ++ [eventRow db chain (.ofWatch w') type view] := by
  obtain ⟨outbox, hi, rfl⟩ := h.posted
  exact Table.rows_of_insertNew hi

/-- **A step appends to the outbox.** -/
theorem Step.appends (h : Step db a db') : db.outbox.rows <+: db'.outbox.rows := by
  have hpost : ∀ {chain : ChainSpec} {db db' : Db} {w w' : Watch} {type : EventType}
      {view : Option TransferView} {transfers : Table Transfer Transfer.key},
      Post chain db w w' type view transfers db' → db.outbox.rows <+: db'.outbox.rows := by
    intro chain db db' w w' type view transfers post
    rw [post.outbox_rows]
    exact List.prefix_append _ _
  cases h with
  | expire _ post => exact hpost post
  | announce _ _ _ post => exact hpost post
  | count counts _ =>
      obtain ⟨transfers, -, post⟩ := counts.step
      exact hpost post
  | complete counts _ post =>
      obtain ⟨transfers, -, post₁⟩ := counts.step
      exact (hpost post₁).trans (hpost post)
  | orphan _ _ _ _ _ _ post => exact hpost post
  | moveCursor _ _ outbox _ => exact outbox ▸ List.prefix_refl _
  | other _ _ outbox _ _ => exact outbox ▸ List.prefix_refl _
  | _ => exact List.prefix_refl _

/-- A post queues one event, for the watch as it is then. -/
theorem Post.new_event {w w' : Watch} {type : EventType} {view : Option TransferView}
    {transfers : Table Transfer Transfer.key} {e : OutboxRow}
    (h : Post chain db w w' type view transfers db') (he : e ∈ db'.outbox.rows) :
    e ∈ db.outbox.rows ∨ e = eventRow db chain (.ofWatch w') type view := by
  rw [h.outbox_rows, List.mem_append, List.mem_singleton] at he
  exact he

theorem Post.watches {w w' : Watch} {type : EventType} {view : Option TransferView}
    {transfers : Table Transfer Transfer.key} (h : Post chain db w w' type view transfers db') :
    db'.watches = db.watches.replace w' := by
  obtain ⟨outbox, -, rfl⟩ := h.posted
  rfl

theorem Post.now {w w' : Watch} {type : EventType} {view : Option TransferView}
    {transfers : Table Transfer Transfer.key} (h : Post chain db w w' type view transfers db') :
    db'.now = db.now := by
  obtain ⟨outbox, -, rfl⟩ := h.posted
  rfl

theorem Post.transfers {w w' : Watch} {type : EventType} {view : Option TransferView}
    {transfers : Table Transfer Transfer.key} (h : Post chain db w w' type view transfers db') :
    db'.transfers = transfers := by
  obtain ⟨outbox, -, rfl⟩ := h.posted
  rfl

/-- The journal grows by what the new event reports. -/
theorem Post.credits {w w' : Watch} {type : EventType} {view : Option TransferView}
    {transfers : Table Transfer Transfer.key} (h : Post chain db w w' type view transfers db') :
    db'.credits = db.credits ++ ((eventRow db chain (.ofWatch w') type view).credit?).toList := by
  rw [Db.credits, h.outbox_rows, List.filterMap_append]
  cases hc : (eventRow db chain (.ofWatch w') type view).credit? <;> simp [hc, Db.credits]

/-- Only `payment.confirmed` is a credit. -/
theorem Post.credits_eq {w w' : Watch} {type : EventType} {view : Option TransferView}
    {transfers : Table Transfer Transfer.key} (h : Post chain db w w' type view transfers db')
    (hne : type ≠ .paymentConfirmed) : db'.credits = db.credits := by
  have hnone : (eventRow db chain (.ofWatch w') type view).credit? = none := if_neg hne
  rw [h.credits, hnone, Option.toList_none, List.append_nil]

/-- Counting a match enters it in the journal. -/
theorem Counts.credits {w : Watch} {m : MatchedTransfer} (h : Counts chain db w m db') :
    db'.credits = db.credits ++ [m.toCredit chain.chainId] := by
  obtain ⟨transfers, -, hpost⟩ := h.step
  rw [hpost.credits, MatchedTransfer.toCredit, h.watch]
  rfl

/-- **Each step appends its own credits to the journal.** -/
theorem Step.credits (h : Step db a db') : db'.credits = db.credits ++ a.credits := by
  cases h with
  | register _ _ _ _ _ => exact (List.append_nil _).symm
  | cancel _ _ => exact (List.append_nil _).symm
  | expire _ post => rw [post.credits_eq (by decide)]; exact (List.append_nil _).symm
  | announce _ _ _ post => rw [post.credits_eq (by decide)]; exact (List.append_nil _).symm
  | count counts _ => exact counts.credits
  | complete counts _ post => rw [post.credits_eq (by decide)]; exact counts.credits
  | ignore _ _ => exact (List.append_nil _).symm
  | orphanRetired _ _ _ => exact (List.append_nil _).symm
  | orphan _ _ _ _ _ _ post => rw [post.credits_eq (by decide)]; exact (List.append_nil _).symm
  | clearBackfill _ => exact (List.append_nil _).symm
  | moveCursor _ _ outbox _ => rw [Db.credits, outbox]; exact (List.append_nil _).symm
  | other _ _ outbox _ _ => rw [Db.credits, outbox]; exact (List.append_nil _).symm

/-- The journal of a whole operation. -/
theorem credits_exec (db : Db) (op : Op) : (exec db op).credits = db.credits ++ creditsOf db op := by
  obtain ⟨acts, htr, hcredits, -⟩ := exec_trace db op
  rw [← hcredits]
  exact htr.collected fun _ _ _ => Step.credits

/-- **The journal of a run** is what its operations report as counted. -/
theorem credits_run (ops : List Op) :
    (run exec db ops).credits = db.credits ++ collect creditsOf exec db ops := by
  induction ops generalizing db with
  | nil => simp
  | cons op ops ih => rw [run_cons, ih, credits_exec, collect_cons, List.append_assoc]

/-! ## Watches -/

/-- The columns no statement changes. -/
structure Watch.Same (w w' : Watch) : Prop where
  id : w'.id = w.id
  seq : w'.seq = w.seq
  chainId : w'.chainId = w.chainId
  tokenAddress : w'.tokenAddress = w.tokenAddress
  paymentAddress : w'.paymentAddress = w.paymentAddress
  threshold : w'.threshold = w.threshold
  startBlock : w'.startBlock = w.startBlock
  createdAt : w'.createdAt = w.createdAt
  expiresAt : w'.expiresAt = w.expiresAt

theorem Watch.Same.refl (w : Watch) : w.Same w := ⟨rfl, rfl, rfl, rfl, rfl, rfl, rfl, rfl, rfl⟩

theorem Watch.Same.trans {w w' w'' : Watch} (h : w.Same w') (h' : w'.Same w'') : w.Same w'' :=
  ⟨h'.id.trans h.id, h'.seq.trans h.seq, h'.chainId.trans h.chainId,
    h'.tokenAddress.trans h.tokenAddress, h'.paymentAddress.trans h.paymentAddress,
    h'.threshold.trans h.threshold, h'.startBlock.trans h.startBlock,
    h'.createdAt.trans h.createdAt, h'.expiresAt.trans h.expiresAt⟩

/-- A watch row keeps its columns and gains what was counted toward it. -/
structure Watch.Gains (w w' : Watch) (amount : Nat) : Prop where
  same : w.Same w'
  amount : w'.confirmedAmount = w.confirmedAmount + amount

theorem Watch.Gains.refl (w : Watch) : w.Gains w 0 := ⟨.refl w, rfl⟩

/-- Replacing one row is a gain of every row, if it is one of that row. -/
theorem gains_replace {u u' w : Watch} {id : Uuid} (gain : Uuid → Nat)
    (found : db.watches.get? u.id = some u) (hu : u.Gains u' (gain u.id))
    (hother : ∀ id, id ≠ u.id → gain id = 0) (hw : db.watches.get? id = some w) :
    ∃ w', (db.watches.replace u').get? id = some w' ∧ w.Gains w' (gain id) := by
  have hid := hu.same.id
  rw [← hid] at found
  rcases Table.get?_replace_cases found hw with ⟨rfl, rfl, hg⟩ | ⟨hne, hg⟩
  · exact ⟨u', hg, by rw [hid]; exact hu⟩
  · refine ⟨w, hg, ?_⟩
    rw [hother id (by rwa [hid] at hne)]
    exact .refl w

/-- A post that counts nothing. -/
theorem Post.gains {u u' w : Watch} {type : EventType} {view : Option TransferView} {id : Uuid}
    {transfers : Table Transfer Transfer.key} (h : Post chain db u u' type view transfers db')
    (hu : u.Gains u' 0) (hw : db.watches.get? id = some w) :
    ∃ w', db'.watches.get? id = some w' ∧ w.Gains w' 0 := by
  rw [h.watches]
  exact gains_replace (fun _ => 0) h.found hu (fun _ _ => rfl) hw

/-- A counted match is a gain of its watch alone. -/
theorem creditTotal_toCredit (m : MatchedTransfer) (chainId : Nat) (id : Uuid) :
    creditTotal [m.toCredit chainId] id = if m.watch.id = id then m.amount.toNat else 0 :=
  creditTotal_singleton _ _

/-- Counting a match adds its amount to its watch, and nothing to any other. -/
theorem Counts.gains {u w : Watch} {m : MatchedTransfer} {id : Uuid} (h : Counts chain db u m db')
    (hw : db.watches.get? id = some w) :
    ∃ w', db'.watches.get? id = some w' ∧
      w.Gains w' (creditTotal [m.toCredit chain.chainId] id) := by
  obtain ⟨transfers, -, post⟩ := h.step
  rw [post.watches]
  refine gains_replace (creditTotal [m.toCredit chain.chainId]) post.found ?_ ?_ hw
  · rw [creditTotal_toCredit, if_pos h.watch]
    exact ⟨⟨rfl, rfl, rfl, rfl, rfl, rfl, rfl, rfl, rfl⟩, rfl⟩
  · intro id hne
    rw [creditTotal_toCredit, h.watch, if_neg (Ne.symm hne)]

/-- **A step keeps every watch and adds its credits to the totals.** -/
theorem Step.gains {w : Watch} {id : Uuid} (h : Step db a db') (hw : db.watches.get? id = some w) :
    ∃ w', db'.watches.get? id = some w' ∧ w.Gains w' (creditTotal a.credits id) := by
  have hsame : ∀ {u : Watch} (s : WatchStatus) (now : Nat), u.Gains (u.retire s now) 0 :=
    fun _ _ => ⟨⟨rfl, rfl, rfl, rfl, rfl, rfl, rfl, rfl, rfl⟩, rfl⟩
  have hbump : ∀ {u : Watch}, u.Gains u.bump 0 :=
    ⟨⟨rfl, rfl, rfl, rfl, rfl, rfl, rfl, rfl, rfl⟩, rfl⟩
  cases h with
  | register _ _ _ _ insert =>
      refine ⟨w, ?_, .refl w⟩
      rw [Table.get?_insertNew insert, if_neg, hw]
      rintro rfl
      rw [Table.get?_of_insertNew insert] at hw
      contradiction
  | cancel found _ =>
      exact gains_replace (fun _ => 0) found ⟨⟨rfl, rfl, rfl, rfl, rfl, rfl, rfl, rfl, rfl⟩, rfl⟩
        (fun _ _ => rfl) hw
  | expire _ post => exact post.gains (hsame _ _) hw
  | announce _ _ _ post => exact post.gains hbump hw
  | count counts _ => exact counts.gains hw
  | complete counts _ post =>
      obtain ⟨w₁, hw₁, hg₁⟩ := counts.gains hw
      obtain ⟨w₂, hw₂, hg₂⟩ := post.gains (hsame _ _) hw₁
      exact ⟨w₂, hw₂, hg₁.same.trans hg₂.same, hg₂.amount.trans hg₁.amount⟩
  | ignore _ _ => exact ⟨w, hw, .refl w⟩
  | orphanRetired _ _ _ => exact ⟨w, hw, .refl w⟩
  | orphan _ _ _ _ _ _ post => exact post.gains hbump hw
  | clearBackfill found =>
      exact gains_replace (fun _ => 0) found ⟨⟨rfl, rfl, rfl, rfl, rfl, rfl, rfl, rfl, rfl⟩, rfl⟩
        (fun _ _ => rfl) hw
  | moveCursor watches _ _ _ => exact ⟨w, by rw [watches, hw], .refl w⟩
  | other watches _ _ _ _ => exact ⟨w, by rw [watches, hw], .refl w⟩

/-- What a step at the time `now` can make of a watch. -/
inductive Watch.Update (now : Nat) (w : Watch) : Watch → Prop
  | cancel (active : w.status = .active) : Update now w (w.withStatus .cancelled now)
  | expire (active : w.status = .active) : Update now w (w.retire .expired now)
  | event (active : w.status = .active) : Update now w w.bump
  | count {amount : Nat} (active : w.status = .active) (fits : (w.credit amount).Fits)
      (below : w.confirmedAmount + amount < w.threshold) : Update now w (w.credit amount)
  | complete {amount : Nat} (active : w.status = .active) (fits : (w.credit amount).Fits)
      (reached : w.threshold ≤ w.confirmedAmount + amount) :
      Update now w ((w.credit amount).retire .completed now)
  | backfilled : Update now w w.backfilled

/-- No step changes the columns that identify a watch. -/
theorem Watch.Update.same {now : Nat} {w w' : Watch} (h : w.Update now w') : w.Same w' := by
  cases h <;> exact ⟨rfl, rfl, rfl, rfl, rfl, rfl, rfl, rfl, rfl⟩

/-- After a replacement a row is what it was, or the new one. -/
theorem watch_replace {u u' w' : Watch} {id : Uuid} (found : db.watches.get? u.id = some u)
    (hid : u'.id = u.id) (hw' : (db.watches.replace u').get? id = some w') :
    db.watches.get? id = some w' ∨ (db.watches.get? id = some u ∧ w' = u') := by
  rw [Table.get?_replace] at hw'
  split at hw'
  · next hk =>
      obtain ⟨w, hw, rfl⟩ := Option.map_eq_some_iff.mp hw'
      rw [← hk, hid, found] at hw ⊢
      exact .inr ⟨rfl, rfl⟩
  · exact .inl hw'

/-- A post updates the watch it is about. -/
theorem Post.watch_update {u u' w' : Watch} {type : EventType} {view : Option TransferView}
    {id : Uuid} {transfers : Table Transfer Transfer.key}
    (h : Post chain db u u' type view transfers db') (hu : u.Update db.now u')
    (hw' : db'.watches.get? id = some w') :
    db.watches.get? id = some w' ∨ ∃ w, db.watches.get? id = some w ∧ w.Update db.now w' := by
  rw [h.watches] at hw'
  refine (watch_replace h.found h.sameId hw').imp_right ?_
  rintro ⟨hw, rfl⟩
  exact ⟨u, hw, hu⟩

/-- **A watch after a step was there before, was just registered, or was
updated.** -/
theorem Step.watch_update {id : Uuid} {w' : Watch} (h : Step db a db')
    (hw' : db'.watches.get? id = some w') :
    db.watches.get? id = some w' ∨ a = .register w' ∨
      ∃ w, db.watches.get? id = some w ∧ w.Update db.now w' := by
  have hput : ∀ {u u' : Watch}, u.Update db.now u' → db.watches.get? u.id = some u →
      (db.watches.replace u').get? id = some w' →
        db.watches.get? id = some w' ∨ a = .register w' ∨
          ∃ w, db.watches.get? id = some w ∧ w.Update db.now w' := by
    intro u u' hu found hg
    rcases watch_replace found hu.same.id hg with hw | ⟨hw, rfl⟩
    · exact .inl hw
    · exact .inr (.inr ⟨u, hw, hu⟩)
  cases h with
  | register _ _ _ _ insert =>
      rw [Table.get?_insertNew insert] at hw'
      split at hw'
      · rw [Option.some.inj hw']
        exact .inr (.inl rfl)
      · exact .inl hw'
  | cancel found active => exact hput (.cancel active) found hw'
  | expire active post => exact (post.watch_update (.expire active) hw').imp_right .inr
  | announce _ active _ post => exact (post.watch_update (.event active) hw').imp_right .inr
  | count counts below =>
      obtain ⟨transfers, -, post⟩ := counts.step
      exact (post.watch_update (.count counts.active post.fits below) hw').imp_right .inr
  | @complete d _ _ w m counts reached post =>
      obtain ⟨transfers, -, post₁⟩ := counts.step
      -- the two updates of the row are one
      have hboth : db'.watches =
          db.watches.replace ((w.credit m.amount.toNat).retire .completed db.now) := by
        rw [post.watches, post₁.watches, post₁.now]
        exact Table.replace_replace rfl
      rw [hboth] at hw'
      exact hput (.complete counts.active post₁.fits reached) post₁.found hw'
  | ignore _ _ => exact .inl hw'
  | orphanRetired _ _ _ => exact .inl hw'
  | orphan _ _ _ _ active _ post => exact (post.watch_update (.event active) hw').imp_right .inr
  | clearBackfill found => exact hput .backfilled found hw'
  | moveCursor watches _ _ _ => rw [watches] at hw'; exact .inl hw'
  | other watches _ _ _ _ => rw [watches] at hw'; exact .inl hw'

/-- A watch that is active was active before. -/
theorem Watch.Update.active_of_active {now : Nat} {w w' : Watch} (h : w.Update now w') (ha : w'.status = .active) :
    w.status = .active := by
  cases h with
  | backfilled => exact ha
  | _ => assumption

/-- `completed_at` is the time at which the watch stopped being active. -/
theorem Watch.Update.completedAt {now : Nat} {w w' : Watch} (h : w.Update now w') :
    w'.status = w.status ∧ w'.completedAt = w.completedAt ∨
      w.status = .active ∧ w'.status ≠ .active ∧ w'.completedAt = some now := by
  cases h with
  | cancel active => exact .inr ⟨active, by simp [Watch.withStatus], rfl⟩
  | expire active => exact .inr ⟨active, by simp [Watch.retire, Watch.withStatus], rfl⟩
  | complete active _ _ => exact .inr ⟨active, by simp [Watch.retire, Watch.withStatus], rfl⟩
  | _ => exact .inl ⟨rfl, rfl⟩

/-- The only watch a step can add is the one it registers. -/
theorem Step.new_watch {id : Uuid} {w : Watch} (h : Step db a db')
    (hnone : db.watches.get? id = none) (hw : db'.watches.get? id = some w) : a = .register w := by
  rcases h.watch_update hw with hold | ha | ⟨u, hu, -⟩
  · rw [hnone] at hold
    contradiction
  · exact ha
  · rw [hnone] at hu
    contradiction

/-- A later state of a watch: with its columns, not revived, and with no new
backfill. -/
structure Watch.Later (w w' : Watch) : Prop where
  same : w.Same w'
  active : w'.status = .active → w.status = .active
  backfillTo : ∀ b, w'.backfillTo = some b → w.backfillTo = some b

theorem Watch.Later.refl (w : Watch) : w.Later w := ⟨.refl w, fun h => h, fun _ h => h⟩

theorem Watch.Later.trans {w w' w'' : Watch} (h : w.Later w') (h' : w'.Later w'') : w.Later w'' :=
  ⟨h.same.trans h'.same, fun ha => h.active (h'.active ha), fun b hb => h.backfillTo b (h'.backfillTo b hb)⟩

/-- Every update leads to a later state. -/
theorem Watch.Update.later {now : Nat} {w w' : Watch} (h : w.Update now w') : w.Later w' where
  same := h.same
  active := h.active_of_active
  backfillTo b hb := by
    cases h with
    | backfilled => contradiction
    | _ => exact hb

/-- **A watch is never lost, revived or changed in its columns.** -/
theorem Step.later {w : Watch} {id : Uuid} (h : Step db a db') (hw : db.watches.get? id = some w) :
    ∃ w', db'.watches.get? id = some w' ∧ w.Later w' := by
  obtain ⟨w', hw', -⟩ := h.gains hw
  refine ⟨w', hw', ?_⟩
  rcases h.watch_update hw' with hold | rfl | ⟨u, hu, hupdate⟩
  · rw [hw] at hold
    cases hold
    exact .refl w
  · -- the id of a new watch was free
    cases h with
    | register _ _ _ _ insert =>
        obtain rfl := Table.key_of_get? hw'
        rw [Table.get?_of_insertNew insert] at hw
        contradiction
  · rw [hw] at hu
    cases hu
    exact hupdate.later

/-- The watch is still there. -/
def Db.Retains (db : Db) (w : Watch) : Prop :=
  ∃ w', db.watches.get? w.id = some w' ∧ w.Later w'

theorem Db.Retains.of_get? {w : Watch} (hw : db.watches.get? w.id = some w) : db.Retains w :=
  ⟨w, hw, .refl w⟩

/-- So every step keeps it. -/
theorem Db.Retains.step {w : Watch} (h : Step db a db') (inv : db.Retains w) : db'.Retains w := by
  obtain ⟨w₁, hw₁, hl₁⟩ := inv
  obtain ⟨w₂, hw₂, hl₂⟩ := h.later hw₁
  exact ⟨w₂, hw₂, hl₁.trans hl₂⟩

/-- **Watches are retained in every run**, and a retired one stays retired. -/
theorem Db.Retains.run {w : Watch} (inv : db.Retains w) (ops : List Op) :
    (Base.run exec db ops).Retains w :=
  invariant_run (Db.Retains · w)
    (fun _ op hinv => exec_invariant (Db.Retains · w) (fun _ _ _ => Retains.step) hinv op) inv ops

/-- The watch under an id stays there, as a later state of itself. -/
theorem later_run {id : Uuid} {w : Watch} (hw : db.watches.get? id = some w) (ops : List Op) :
    ∃ w', (run exec db ops).watches.get? id = some w' ∧ w.Later w' := by
  obtain rfl := Table.key_of_get? hw
  exact (Db.Retains.of_get? hw).run ops

/-! ## Rows -/

/-- The row a step writes, and what was there before. -/
inductive Writes (db : Db) : Act → Transfer → Prop
  | announce {chainId : Nat} {m : MatchedTransfer} {w : Watch}
      (fresh : db.transfers.get? (m.logId chainId) = none)
      (found : db.watches.get? m.watch.id = some w) (active : w.status = .active) :
      Writes db (.announce chainId m) (m.row chainId m.watch.id .pending)
  | insert {chainId : Nat} {m : MatchedTransfer} {w : Watch}
      (fresh : db.transfers.get? (m.logId chainId) = none)
      (found : db.watches.get? m.watch.id = some w) :
      Writes db (.count chainId m) (m.row chainId m.watch.id .confirmed)
  | confirm {chainId : Nat} {m : MatchedTransfer} {t : Transfer}
      (found : db.transfers.get? (m.logId chainId) = some t) (pending : t.status = .pending) :
      Writes db (.count chainId m) (t.withStatus .confirmed)
  | ignore {t : Transfer} (found : db.transfers.get? t.key = some t) (pending : t.status = .pending) :
      Writes db (.ignore t) (t.withStatus .ignored)
  | orphan {t : Transfer} (found : db.transfers.get? t.key = some t) (pending : t.status = .pending) :
      Writes db (.orphan t) (t.withStatus .orphaned)

section Rows

variable {ts ts' : Table Transfer Transfer.key} {row t u : Transfer} {log : LogId}

theorem row_insertNew (h : ts.insertNew row = some ts') (ht : ts'.get? log = some t) :
    ts.get? log = some t ∨ t = row := by
  rw [Table.get?_insertNew h] at ht
  split at ht
  · exact .inr (Option.some.inj ht).symm
  · exact .inl ht

theorem row_replace (ht : (ts.replace u).get? log = some t) : ts.get? log = some t ∨ t = u := by
  rw [Table.get?_replace] at ht
  split at ht
  · obtain ⟨_, -, rfl⟩ := Option.map_eq_some_iff.mp ht
    exact .inr rfl
  · exact .inl ht

/-- Confirming a row leaves the other rows alone. -/
theorem Confirms.get?_of_ne (h : Confirms ts row ts') (hne : log ≠ row.key) :
    ts'.get? log = ts.get? log := by
  cases h with
  | fresh insert => rw [Table.get?_insertNew insert, if_neg (Ne.symm hne)]
  | pending found _ =>
      refine Table.get?_replace_of_ne ?_
      rw [Transfer.key_withStatus, Table.key_of_get? found]
      exact Ne.symm hne

/-- A row that is there is confirmed as it is. -/
theorem Confirms.get?_self (h : Confirms ts row ts') (ht : ts.get? row.key = some t) :
    ts'.get? row.key = some (t.withStatus .confirmed) := by
  cases h with
  | fresh insert => rw [Table.get?_of_insertNew insert] at ht; contradiction
  | pending found _ =>
      rw [ht] at found
      obtain rfl := Option.some.inj found
      rw [Table.get?_replace, Transfer.key_withStatus, if_pos (Table.key_of_get? ht), ht]
      rfl

end Rows

/-- Counting writes the row of its match, and no other. -/
theorem Counts.writes {w : Watch} {m : MatchedTransfer} {log : LogId} {t : Transfer}
    (h : Counts chain db w m db') (ht : db'.transfers.get? log = some t) :
    db.transfers.get? log = some t ∨ Writes db (.count chain.chainId m) t := by
  obtain ⟨transfers, hc, post⟩ := h.step
  rw [post.transfers] at ht
  cases hc with
  | fresh insert =>
      have hfound := post.found
      rw [← h.watch] at insert hfound
      refine (row_insertNew insert ht).imp_right ?_
      rintro rfl
      exact .insert (Table.get?_of_insertNew insert) hfound
  | pending found pending =>
      refine (row_replace ht).imp_right ?_
      rintro rfl
      exact .confirm found pending

/-- **A row after a step was there before, or is the one the step writes.** -/
theorem Step.writes {log : LogId} {t : Transfer} (h : Step db a db')
    (ht : db'.transfers.get? log = some t) : db.transfers.get? log = some t ∨ Writes db a t := by
  cases h with
  | register _ _ _ _ _ => exact .inl ht
  | cancel _ _ => exact .inl ht
  | expire _ post => rw [post.transfers] at ht; exact .inl ht
  | announce watch active insert post =>
      have hfound := post.found
      rw [← watch] at insert hfound
      rw [post.transfers] at ht
      refine (row_insertNew insert ht).imp_right ?_
      rintro rfl
      exact .announce (Table.get?_of_insertNew insert) hfound active
  | count counts _ => exact counts.writes ht
  | complete counts _ post => rw [post.transfers] at ht; exact counts.writes ht
  | ignore found pending =>
      refine (row_replace ht).imp_right ?_
      rintro rfl
      exact .ignore found pending
  | orphanRetired found pending _ =>
      refine (row_replace ht).imp_right ?_
      rintro rfl
      exact .orphan found pending
  | orphan found pending _ _ _ _ post =>
      rw [post.transfers] at ht
      refine (row_replace ht).imp_right ?_
      rintro rfl
      exact .orphan found pending
  | clearBackfill _ => exact .inl ht
  | moveCursor _ transfers _ _ => rw [transfers] at ht; exact .inl ht
  | other _ transfers _ _ _ => rw [transfers] at ht; exact .inl ht

/-- Only an announcement makes a row pending. -/
theorem Step.pending {log : LogId} {t : Transfer} (h : Step db a db')
    (hannounce : ∀ chainId m, a ≠ .announce chainId m) (ht : db'.transfers.get? log = some t)
    (hp : t.status = .pending) : db.transfers.get? log = some t := by
  rcases h.writes ht with ht | hw
  · exact ht
  · cases hw with
    | announce _ _ _ => exact absurd rfl (hannounce _ _)
    | _ => contradiction

/-- The pending rows of `s` are pending rows of `db`. -/
def PendingFrom (db s : Db) : Prop :=
  ∀ log t, s.transfers.get? log = some t → t.status = .pending → db.transfers.get? log = some t

/-- Only `recordPending` announces. -/
theorem Op.Allows.not_announce {op : Op} (h : op.Allows db a)
    (hop : ∀ chain m, op ≠ .recordPending chain m) : ∀ chainId m, a ≠ .announce chainId m := by
  rintro chainId m rfl
  cases op <;> try contradiction
  exact hop _ _ rfl

/-- Only `record_pending` makes rows pending. -/
theorem PendingFrom.step {s s' : Db} {op : Op} (h : PendingFrom db s) (hstep : Step s a s')
    (hallow : op.Allows db a) (hop : ∀ chain m, op ≠ .recordPending chain m) : PendingFrom db s' :=
  fun log t ht hp => h log t (hstep.pending (hallow.not_announce hop) ht hp) hp

/-- What is pending after an operation other than an announcement was pending
before it. -/
theorem pendingFrom_exec {op : Op} (hop : ∀ chain m, op ≠ .recordPending chain m) :
    PendingFrom db (exec db op) := by
  obtain ⟨acts, htr, -, hallow⟩ := exec_trace db op
  exact htr.invariant_mem (PendingFrom db)
    (fun _ a _ ha hstep h => h.step hstep (hallow a ha) hop) fun _ _ ht _ => ht

/-! ## Confirmed rows -/

section Rows

variable {ts ts' : Table Transfer Transfer.key} {row t : Transfer} {log : LogId}

/-- A new row adds its own status, and takes none away. -/
theorem hasStatus_insertNew {s : TransferStatus} (h : ts.insertNew row = some ts') :
    HasStatus ts' log s ↔ HasStatus ts log s ∨ (log = row.key ∧ row.status = s) := by
  unfold HasStatus
  rw [Table.get?_insertNew h]
  by_cases hk : row.key = log
  · subst hk
    rw [if_pos rfl, Table.get?_of_insertNew h]
    simp
  · rw [if_neg hk]
    simp [Ne.symm hk]

/-- Settling a pending row moves it from one status to the other. -/
theorem hasStatus_settle {s s' : TransferStatus} (found : ts.get? t.key = some t)
    (pending : t.status = .pending) (hs : s ≠ .pending) :
    HasStatus (ts.replace (t.withStatus s')) log s ↔
      HasStatus ts log s ∨ (log = t.key ∧ s' = s) := by
  unfold HasStatus
  rw [Table.get?_replace, Transfer.key_withStatus]
  by_cases hk : t.key = log
  · subst hk
    rw [if_pos rfl, found]
    have hne : t.status ≠ s := by rw [pending]; exact Ne.symm hs
    simp [Transfer.withStatus, hne]
  · rw [if_neg hk]
    simp [Ne.symm hk]

/-- After the upsert exactly one more log is confirmed. -/
theorem Confirms.confirmed_iff (h : Confirms ts row ts') (hrow : row.status = .confirmed) :
    HasStatus ts' log .confirmed ↔ HasStatus ts log .confirmed ∨ log = row.key := by
  cases h with
  | fresh insert => rw [hasStatus_insertNew insert]; simp [hrow]
  | pending found pending =>
      have hk := Table.key_of_get? found
      rw [← hk] at found
      rw [hasStatus_settle found pending (by decide), hk]
      simp

end Rows

/-- The same for a match that is counted. -/
theorem Counts.confirmed_iff {w : Watch} {m : MatchedTransfer} {log : LogId}
    (h : Counts chain db w m db') :
    db'.Confirmed log ↔ db.Confirmed log ∨ log = m.logId chain.chainId := by
  obtain ⟨transfers, hc, post⟩ := h.step
  rw [Db.Confirmed, post.transfers]
  exact hc.confirmed_iff rfl

/-- **A step confirms exactly the rows of its credits.** -/
theorem Step.confirmed_iff {log : LogId} (h : Step db a db') :
    db'.Confirmed log ↔ db.Confirmed log ∨ log ∈ a.credits.map Credit.log := by
  have hcount : ∀ {chainId : Nat} {m : MatchedTransfer},
      log ∈ (Act.credits (.count chainId m)).map Credit.log ↔ log = m.logId chainId := by
    intro chainId m
    simp [Act.credits, MatchedTransfer.toCredit]
  cases h with
  | register _ _ _ _ _ => simp [Act.credits, Db.Confirmed]
  | cancel _ _ => simp [Act.credits, Db.Confirmed]
  | expire _ post => simp [Act.credits, Db.Confirmed, post.transfers]
  | announce _ _ insert post =>
      simp [Act.credits, Db.Confirmed, post.transfers, hasStatus_insertNew insert, MatchedTransfer.row]
  | count counts _ => rw [counts.confirmed_iff, hcount]
  | complete counts _ post => rw [Db.Confirmed, post.transfers, hcount]; exact counts.confirmed_iff
  | ignore found pending =>
      simp [Act.credits, Db.Confirmed, hasStatus_settle found pending (s := .confirmed) (by decide)]
  | orphanRetired found pending _ =>
      simp [Act.credits, Db.Confirmed, hasStatus_settle found pending (s := .confirmed) (by decide)]
  | orphan found pending _ _ _ _ post =>
      simp [Act.credits, Db.Confirmed, post.transfers,
        hasStatus_settle found pending (s := .confirmed) (by decide)]
  | clearBackfill _ => simp [Act.credits, Db.Confirmed]
  | moveCursor _ transfers _ _ => simp [Act.credits, Db.Confirmed, transfers]
  | other _ transfers _ _ _ => simp [Act.credits, Db.Confirmed, transfers]

/-- What is counted was not confirmed before. -/
theorem Counts.countable {w : Watch} {m : MatchedTransfer} (h : Counts chain db w m db') :
    db.Countable (m.logId chain.chainId) := by
  obtain ⟨transfers, hc, -⟩ := h.step
  exact hc.countable

/-- What can be counted was not counted. -/
theorem Db.Countable.not_confirmed {log : LogId} (h : db.Countable log) : ¬ db.Confirmed log := by
  rintro ⟨t, ht, hs⟩
  rw [h t ht] at hs
  contradiction

/-- **Nothing is counted twice**: what a step counts was not confirmed before.
-/
theorem Step.credits_fresh (h : Step db a db') : ∀ c ∈ a.credits, ¬ db.Confirmed c.log := by
  cases h with
  | count counts _ =>
      intro c hc
      rw [List.mem_singleton.mp hc]
      exact counts.countable.not_confirmed
  | complete counts _ _ =>
      intro c hc
      rw [List.mem_singleton.mp hc]
      exact counts.countable.not_confirmed
  | _ => exact fun c hc => absurd hc List.not_mem_nil

/-- A step credits watches that exist. -/
theorem Step.credits_known (h : Step db a db') :
    ∀ c ∈ a.credits, ∃ w, db.watches.get? c.watchId = some w := by
  have hknown : ∀ {chain : ChainSpec} {w : Watch} {m : MatchedTransfer} {db' : Db},
      Counts chain db w m db' → ∀ c ∈ [m.toCredit chain.chainId],
        ∃ w, db.watches.get? c.watchId = some w := by
    intro chain w m db' counts c hc
    obtain ⟨transfers, -, post⟩ := counts.step
    rw [List.mem_singleton.mp hc]
    refine ⟨w, ?_⟩
    rw [MatchedTransfer.toCredit, counts.watch]
    exact post.found
  cases h with
  | count counts _ => exact hknown counts
  | complete counts _ _ => exact hknown counts
  | _ => exact fun c hc => absurd hc List.not_mem_nil

/-! ## The invariant -/

/-- The journal, the rows and the totals agree. -/
structure Accounts (db : Db) : Prop where
  /-- No log is counted twice. -/
  once : (db.credits.map Credit.log).Nodup
  /-- The counted logs are the confirmed rows. -/
  confirmed : ∀ log, log ∈ db.credits.map Credit.log ↔ db.Confirmed log
  /-- A total is the sum of its credits. -/
  totals : ∀ id w, db.watches.get? id = some w → w.confirmedAmount = creditTotal db.credits id
  /-- Credits belong to watches that exist. -/
  known : ∀ c ∈ db.credits, ∃ w, db.watches.get? c.watchId = some w

/-- In an empty database there is nothing to disagree. -/
theorem Accounts.empty : Accounts Db.empty where
  once := List.nodup_nil
  confirmed log := by simp [Db.credits, Db.empty, Db.Confirmed, HasStatus]
  totals id w hw := by simp [Db.empty] at hw
  known c hc := by simp [Db.credits, Db.empty] at hc

/-- Credits of other watches add nothing. -/
theorem creditTotal_eq_zero {cs : List Credit} {id : Uuid} (h : ∀ c ∈ cs, c.watchId ≠ id) :
    creditTotal cs id = 0 := by
  have hnil : cs.filter (fun c => c.watchId = id) = [] := by simpa using h
  rw [creditTotal, hnil]
  rfl

theorem Act.credits_nodup (a : Act) : (a.credits.map Credit.log).Nodup := by
  cases a <;> simp [Act.credits]

/-- **Every step keeps the accounts.** -/
theorem Accounts.step (h : Step db a db') (inv : Accounts db) : Accounts db' where
  once := by
    rw [h.credits, List.map_append, List.nodup_append]
    refine ⟨inv.once, a.credits_nodup, fun l hl l' hl' heq => ?_⟩
    obtain ⟨c, hc, rfl⟩ := List.mem_map.mp hl'
    subst heq
    exact h.credits_fresh c hc ((inv.confirmed _).mp hl)
  confirmed log := by
    rw [h.credits, List.map_append, List.mem_append, inv.confirmed, h.confirmed_iff]
  totals id w hw := by
    rw [h.credits, creditTotal_append]
    cases hold : db.watches.get? id with
    | some w₀ =>
        obtain ⟨w', hw', hg⟩ := h.gains hold
        rw [hw] at hw'
        cases hw'
        rw [hg.amount, inv.totals id w₀ hold]
    | none =>
        obtain rfl := h.new_watch hold hw
        cases h
        rw [creditTotal_eq_zero, creditTotal_eq_zero]
        · rfl
        · exact fun c hc => absurd hc List.not_mem_nil
        · rintro c hc rfl
          obtain ⟨u, hu⟩ := inv.known c hc
          rw [hold] at hu
          contradiction
  known c hc := by
    rw [h.credits, List.mem_append] at hc
    have hold : ∃ w, db.watches.get? c.watchId = some w :=
      hc.elim (inv.known c) (h.credits_known c)
    obtain ⟨w, hw⟩ := hold
    obtain ⟨w', hw', -⟩ := h.gains hw
    exact ⟨w', hw'⟩

/-- The events of a log are its entries in the journal. -/
theorem length_confirmedEvents (db : Db) (log : LogId) :
    (db.confirmedEvents log).length = (db.credits.map Credit.log).count log := by
  have hlog : ∀ e : OutboxRow, e.credit?.map Credit.log =
      if e.eventType = .paymentConfirmed then e.log? else none := by
    intro e
    unfold OutboxRow.credit? OutboxRow.log?
    split
    · cases e.payload.transfer <;> rfl
    · rfl
  rw [Db.confirmedEvents, Db.credits, List.map_filterMap, List.count_eq_countP, List.countP_filterMap,
    List.countP_eq_length_filter]
  congr 2
  funext e
  rw [hlog]
  by_cases ht : e.eventType = .paymentConfirmed
  · simp only [ht, true_and, if_true]
    cases e.log? <;> simp [beq_eq_decide]
  · simp [ht]

/-- **The accounts agree in every reachable state.** -/
theorem accounts_run (ops : List Op) : Accounts (run exec Db.empty ops) :=
  reachable_invariant Accounts (fun _ _ _ => Accounts.step) .empty ops

/-- **No double count.**  Over a run of any operations, whatever their
arguments, order, repetitions and failures: no log is counted twice, for
whichever watches; the totals of the watches are the sums of what was counted;
each further operation counts exactly the logs whose row it confirms; and a
log has exactly one `payment.confirmed` event if its row is confirmed, and
none otherwise. -/
theorem counted_at_most_once (ops : List Op) :
    ((collect creditsOf exec Db.empty ops).map Credit.log).Nodup ∧
      (∀ w ∈ (run exec Db.empty ops).watches.rows,
        w.confirmedAmount = creditTotal (collect creditsOf exec Db.empty ops) w.id) ∧
      (∀ op log, log ∈ (creditsOf (run exec Db.empty ops) op).map Credit.log ↔
        ¬ (run exec Db.empty ops).Confirmed log ∧
          (exec (run exec Db.empty ops) op).Confirmed log) ∧
      ∀ log, ((run exec Db.empty ops).confirmedEvents log).length =
        if (run exec Db.empty ops).Confirmed log then 1 else 0 := by
  have inv := accounts_run ops
  have hjournal : (run exec Db.empty ops).credits = collect creditsOf exec Db.empty ops := credits_run ops
  refine ⟨hjournal ▸ inv.once, fun w hw => ?_, fun op log => ?_, fun log => ?_⟩
  · rw [← hjournal]
    exact inv.totals w.id w (Table.get?_of_mem hw)
  · have inv' := exec_invariant Accounts (fun _ _ _ => Accounts.step) inv op
    have hnodup := inv'.once
    rw [credits_exec, List.map_append, List.nodup_append] at hnodup
    rw [← inv.confirmed, ← inv'.confirmed, credits_exec, List.map_append, List.mem_append]
    constructor
    · exact fun h => ⟨fun h' => hnodup.2.2 log h' log h rfl, .inr h⟩
    · rintro ⟨hn, h | h⟩
      · exact absurd h hn
      · exact h
  · rw [length_confirmedEvents]
    by_cases hc : (run exec Db.empty ops).Confirmed log
    · rw [if_pos hc]
      exact List.count_eq_one_of_mem inv.once ((inv.confirmed log).mpr hc)
    · rw [if_neg hc, List.count_eq_zero]
      exact fun h => hc ((inv.confirmed log).mp h)

end GumIndexer
