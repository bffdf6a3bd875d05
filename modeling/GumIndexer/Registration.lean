import GumIndexer.Coverage
import GumIndexer.Lifecycle

/-!
# GumIndexer.Registration

`create_watch`, statement by statement.

`createWatch` is the registration as one atomic operation.  The transaction
behind it has up to three statements, and at `READ COMMITTED` each of them sees
what was committed before it: the cursor, read `FOR SHARE`; the
`INSERT … ON CONFLICT DO NOTHING`; and, if that inserted nothing, the `SELECT`
of the active watch it ran into.  Between them other transactions commit.  The
lock on the row of the cursor keeps out the sweeps of the chain and
`fast_forward_cursor`, and an inserted row keeps out the registrations of the
same target; `cancel_watch`, `expire_watches` and `apply_backfill` wait for
neither.

`answered_atomic` says that every answer of the call, and what it left behind,
is what the atomic `commitWatch` gives at the moment of the last statement.
What the atomic operation hides is that there may be no answer: the watch that
refused the `INSERT` can be retired before the `SELECT` looks for it.
`registration_answers_iff` is the exact condition.
-/

namespace GumIndexer

open Base

/-! ## The call -/

/-- Where a call of `create_watch` stands. -/
inductive Stage
  | begun
  /-- The row of the cursor is held `FOR SHARE`, in a transaction that began at
  `began`. -/
  | holding (cursor began : Nat)
  /-- The row is inserted but not committed: nobody else sees it. -/
  | inserted (row : Watch)
  /-- The `INSERT` returned no row, for there is an active watch. -/
  | refused
  | answered (result : Except StoreError CreateOutcome)

/-- A call of `create_watch` and the committed database. -/
structure Registration where
  db : Db
  stage : Stage := .begun

/-- The active watch on the target of a request. -/
def NewWatch.activeIn (new : NewWatch) (db : Db) : Option Watch :=
  db.activeOn new.chainId new.tokenAddress new.paymentAddress

namespace Registration

/-- `SELECT confirmed_block … FOR SHARE`. -/
def lockCursor (new : NewWatch) (db : Db) : Registration :=
  match db.cursors.get? new.chainId with
  | none => ⟨db, .answered (.error (.missingCursor new.chainId))⟩
  | some cur => ⟨db, .holding cur.confirmedBlock db.now⟩

/-- `INSERT … ON CONFLICT … DO NOTHING RETURNING *`.  The number of the row is
drawn first, and is gone whatever comes of the call. -/
def insertRow (id : Uuid) (new : NewWatch) (cursor began : Nat) (db : Db) : Registration :=
  let row := new.row id (db.watchesSeq + 1) cursor began
  let db := { db with watchesSeq := db.watchesSeq + 1 }
  if row.threshold = 0 then ⟨db, .answered (.error (.db (.checkViolation .watchesThreshold)))⟩
  else match new.activeIn db with
  | some _ => ⟨db, .refused⟩
  | none =>
      match db.watches.insertNew row with
      | none => ⟨db, .answered (.error (.db (.uniqueViolation .watchesPkey)))⟩
      | some _ =>
          match WatchRow.fromRow row with
          | .error e => ⟨db, .answered (.error e)⟩
          | .ok _ => ⟨db, .inserted row⟩

/-- The commit of the inserted row. -/
def commitRow (row : Watch) (db : Db) : Registration :=
  ⟨{ db with watches := (db.watches.insertNew row).getD db.watches },
    .answered ((WatchRow.fromRow row).map .created)⟩

/-- `SELECT * FROM watches … AND status = 'active'` with `fetch_one`. -/
def selectActive (new : NewWatch) (db : Db) : Registration :=
  match new.activeIn db with
  | none => ⟨db, .answered (.error (.db .rowNotFound))⟩
  | some row =>
      ⟨db, .answered ((WatchRow.fromRow row).map fun existing =>
        if existing.threshold = new.threshold ∧ existing.webhookUrl = new.webhookUrl then
          .existing existing
        else .conflict existing)⟩

/-- The next statement of the call. -/
def statement (id : Uuid) (new : NewWatch) (s : Registration) : Registration :=
  match s.stage with
  | .begun => lockCursor new s.db
  | .holding cursor began => insertRow id new cursor began s.db
  | .inserted row => commitRow row s.db
  | .refused => selectActive new s.db
  | .answered _ => s

end Registration

/-! ## The others -/

/-- The operations that take the row of a chain's cursor `FOR UPDATE`. -/
def Op.LocksCursor (chainId : Nat) : Op → Prop
  | .applySweep chain _ _ _ _ => chain.chainId = chainId
  | .fastForwardCursor c _ => c = chainId
  | _ => False

/-- The row has the id or the target of a request. -/
def Watch.Meets (row : Watch) (id : Uuid) (new : NewWatch) : Prop :=
  id = row.id ∨ new.chainId = row.chainId ∧ new.tokenAddress = row.tokenAddress ∧
    new.paymentAddress = row.paymentAddress

instance (row : Watch) (id : Uuid) (new : NewWatch) : Decidable (row.Meets id new) :=
  inferInstanceAs (Decidable (_ ∨ _))

/-- The registrations that wait for an uncommitted row, by the primary key or
by the index on the active targets. -/
def Op.AwaitsRow (row : Watch) : Op → Prop
  | .createWatch id new => row.Meets id new
  | .commitWatch _ id new => row.Meets id new
  | _ => False

instance (chainId : Nat) : DecidablePred (Op.LocksCursor chainId)
  | .applySweep _ _ _ _ _ => inferInstanceAs (Decidable (_ = _))
  | .fastForwardCursor _ _ => inferInstanceAs (Decidable (_ = _))
  | .ensureCursor _ _ => isFalse id
  | .createWatch _ _ => isFalse id
  | .commitWatch _ _ _ => isFalse id
  | .cancelWatch _ => isFalse id
  | .expireWatches _ _ _ => isFalse id
  | .recordPending _ _ => isFalse id
  | .applyBackfill _ _ _ _ => isFalse id
  | .tick _ => isFalse id
  | .draw _ => isFalse id

instance (row : Watch) : DecidablePred (Op.AwaitsRow row)
  | .createWatch id new => inferInstanceAs (Decidable (row.Meets id new))
  | .commitWatch _ id new => inferInstanceAs (Decidable (row.Meets id new))
  | .ensureCursor _ _ => isFalse id
  | .applySweep _ _ _ _ _ => isFalse id
  | .fastForwardCursor _ _ => isFalse id
  | .cancelWatch _ => isFalse id
  | .expireWatches _ _ _ => isFalse id
  | .recordPending _ _ => isFalse id
  | .applyBackfill _ _ _ _ => isFalse id
  | .tick _ => isFalse id
  | .draw _ => isFalse id

/-- The operation does not wait for the locks that the call holds. -/
def Stage.Permits (new : NewWatch) : Stage → Op → Prop
  | .begun, _ => True
  | .holding _ _, op => ¬ op.LocksCursor new.chainId
  | .inserted row, op => ¬ op.LocksCursor new.chainId ∧ ¬ op.AwaitsRow row
  | .refused, op => ¬ op.LocksCursor new.chainId
  | .answered _, _ => True

instance (new : NewWatch) : (stage : Stage) → (op : Op) → Decidable (stage.Permits new op)
  | .begun, _ => isTrue trivial
  | .holding _ _, _ => inferInstanceAs (Decidable (¬ _))
  | .inserted _, _ => inferInstanceAs (Decidable (_ ∧ _))
  | .refused, _ => inferInstanceAs (Decidable (¬ _))
  | .answered _, _ => isTrue trivial

inductive RegistrationStep
  | statement
  /-- Another transaction commits. -/
  | commits (op : Op)

def RegistrationStep.isStatement : RegistrationStep → Bool
  | .statement => true
  | .commits _ => false

/-- One step of the call or of the others; a transaction that waits for the
call does not commit. -/
def Registration.step (id : Uuid) (new : NewWatch) (s : Registration) :
    RegistrationStep → Registration
  | .statement => s.statement id new
  | .commits op => if s.stage.Permits new op then { s with db := exec s.db op } else s

/-! ## What the others leave alone -/

variable {db db' : Db} {op : Op} {id : Uuid} {new : NewWatch} {out : CreateOutcome}

/-- The row of a cursor stays, and only the operations that lock it move it. -/
theorem exec_cursorAt {c k : Nat} (op : Op) (h : db.CursorAt c k) :
    ∃ k', (exec db op).CursorAt c k' ∧ (¬ op.LocksCursor c → k' = k) := by
  -- without moves there is nothing to tile
  have hstill : ∀ op : Op, op.Forward → (¬ op.LocksCursor c → movesOf c db op = []) →
      ∃ k', (exec db op).CursorAt c k' ∧ (¬ op.LocksCursor c → k' = k) := by
    intro op hf hnone
    obtain ⟨k', hat, htiles⟩ := exec_moves hf h
    refine ⟨k', hat, fun hlock => ?_⟩
    rw [hnone hlock] at htiles
    exact htiles.symm
  cases op with
  | applySweep chain cache expectedCursor toBlock logs =>
      simp only [exec]
      rcases applySweep_cases db chain cache expectedCursor toBlock logs with
        ⟨tx, db', -, htx, hflush, he⟩ | ⟨actual, -, he⟩ | he | ⟨e, -, he⟩
      · have hat := sweepTx_cursorAt htx hflush h
        simp only [he, committed]
        by_cases hc : chain.chainId = c
        · subst hc
          exact ⟨toBlock, Db.cursorAt_setCursor hat toBlock, fun hlock => absurd rfl hlock⟩
        · exact ⟨k, Db.cursorAt_setCursor_of_ne hat hc toBlock, fun _ => rfl⟩
      all_goals
        simp only [he, committed]
        exact ⟨k, h, fun _ => rfl⟩
  | fastForwardCursor c' target =>
      refine hstill _ trivial fun hlock => ?_
      simp only [movesOf, fastForwardCursor]
      cases db.cursors.get? c' with
      | none => rfl
      | some cur => exact if_neg fun hn => hlock hn.1
  | _ => exact hstill _ trivial fun _ => rfl

/-- An operation that does not need the row of the cursor leaves the cursor alone. -/
theorem cursorAt_of_permits {c k : Nat} (hlock : ¬ op.LocksCursor c) (h : db.CursorAt c k) :
    (exec db op).CursorAt c k := by
  obtain ⟨k', hat, hsame⟩ := exec_cursorAt op h
  rw [← hsame hlock]
  exact hat

/-- The unique index is free if no watch of the target is active. -/
theorem activeIn_eq_none_iff :
    new.activeIn db = none ↔
      ∀ w, db.watches.get? w.id = some w → w.chainId = new.chainId →
        w.tokenAddress = new.tokenAddress → w.paymentAddress = new.paymentAddress →
        w.status ≠ .active := by
  constructor
  · intro h w hw
    exact activeOn_eq_none h (Table.mem_of_get? hw)
  · intro h
    refine List.find?_eq_none.mpr fun w hmem => ?_
    simpa using h w (Table.get?_of_mem hmem)

/-- A registration with the id or the target of a row waits for it. -/
theorem Registers.awaits {row : Watch} {seq : Nat} (h : Registers db id new seq out db' op)
    (meets : row.Meets id new) : op.AwaitsRow row := by
  cases h <;> exact meets

/-- A vacant target stays vacant until somebody registers a watch on it. -/
theorem activeIn_exec {row : Watch} (hrow : row.chainId = new.chainId)
    (htoken : row.tokenAddress = new.tokenAddress) (hpayment : row.paymentAddress = new.paymentAddress)
    (hwaits : ¬ op.AwaitsRow row) (h : new.activeIn db = none) :
    new.activeIn (exec db op) = none := by
  rw [activeIn_eq_none_iff] at h ⊢
  intro w hw hchain htoken' hpayment' active
  cases hg : db.watches.get? w.id with
  | none =>
      obtain ⟨new', seq, cur, -, hrow', hreg⟩ := exec_new_watch hg hw
      refine hwaits (hreg.awaits (.inr ⟨?_, ?_, ?_⟩))
      · rw [hrow, ← hchain, hrow']
        rfl
      · rw [htoken, ← htoken', hrow']
        rfl
      · rw [hpayment, ← hpayment', hrow']
        rfl
  | some u =>
      obtain ⟨w', hw', hlater⟩ := (Db.Retains.of_get? (by rw [Table.key_of_get? hg]; exact hg)).run [op]
      rw [run_cons, run_nil, Table.key_of_get? hg, hw] at hw'
      obtain rfl := Option.some.inj hw'
      exact h u (by rw [Table.key_of_get? hg]; exact hg) (hlater.same.chainId.symm.trans hchain)
        (hlater.same.tokenAddress.symm.trans htoken')
        (hlater.same.paymentAddress.symm.trans hpayment') (hlater.active active)

/-- Nobody else takes the id of the inserted row. -/
theorem free_exec {row : Watch} (hid : row.id = id) (hwaits : ¬ op.AwaitsRow row)
    (h : db.watches.get? id = none) : (exec db op).watches.get? id = none := by
  cases hg : (exec db op).watches.get? id with
  | none => rfl
  | some w =>
      obtain ⟨new', seq, cur, -, -, hreg⟩ := exec_new_watch h hg
      exact absurd (hreg.awaits (.inl hid.symm)) hwaits

/-! ## The statements of the call -/

/-- A row that waits for its commit. -/
structure NewWatch.Uncommitted (new : NewWatch) (id : Uuid) (db : Db) (row : Watch) : Prop where
  row : ∃ seq k began, row = new.row id seq k began ∧ db.CursorAt new.chainId k
  positive : new.threshold ≠ 0
  vacant : new.activeIn db = none
  free : db.watches.get? id = none

/-- A new row can be read back. -/
theorem NewWatch.row_fits (new : NewWatch) (id : Uuid) (seq k now : Nat) :
    (new.row id seq k now).Fits :=
  ⟨new.threshold.isLt, Nat.two_pow_pos 256⟩

/-- The check on the threshold is a check on the request. -/
theorem NewWatch.row_threshold_eq_zero_iff {seq k now : Nat} :
    (new.row id seq k now).threshold = 0 ↔ new.threshold = 0 :=
  (BitVec.toNat_inj (x := new.threshold) (y := 0)).trans Iff.rfl

/-- What the `INSERT` can come to. -/
inductive Inserts (id : Uuid) (new : NewWatch) (k began : Nat) (db : Db) : Registration → Prop
  | zero {s : Registration} {e : StoreError} (zero : new.threshold = 0)
      (failed : s.stage = .answered (.error e)) : Inserts id new k began db s
  | taken {s : Registration} {e : StoreError} (positive : new.threshold ≠ 0)
      (vacant : new.activeIn db = none) (taken : db.watches.get? id ≠ none)
      (failed : s.stage = .answered (.error e)) : Inserts id new k began db s
  | refused {w : Watch} (positive : new.threshold ≠ 0) (active : new.activeIn db = some w) :
      Inserts id new k began db ⟨exec db (.draw 1), .refused⟩
  | inserted (positive : new.threshold ≠ 0) (vacant : new.activeIn db = none)
      (free : db.watches.get? id = none) :
      Inserts id new k began db
        ⟨exec db (.draw 1), .inserted (new.row id (db.watchesSeq + 1) k began)⟩

/-- The `INSERT` comes to one of these. -/
theorem insertRow_inserts (id : Uuid) (new : NewWatch) (k began : Nat) (db : Db) :
    Inserts id new k began db (Registration.insertRow id new k began db) := by
  unfold Registration.insertRow
  by_cases hz : (new.row id (db.watchesSeq + 1) k began).threshold = 0
  · simp only [if_pos hz]
    exact .zero (NewWatch.row_threshold_eq_zero_iff.mp hz) rfl
  · simp only [if_neg hz]
    have hpos : new.threshold ≠ 0 := fun h => hz (NewWatch.row_threshold_eq_zero_iff.mpr h)
    have hsame : new.activeIn { db with watchesSeq := db.watchesSeq + 1 } = new.activeIn db := rfl
    rw [hsame]
    cases hactive : new.activeIn db with
    | some w => exact .refused hpos hactive
    | none =>
        cases hi : db.watches.insertNew (new.row id (db.watchesSeq + 1) k began) with
        | none =>
            refine .taken hpos hactive (fun hfree => ?_) rfl
            obtain ⟨ws, hws⟩ := Table.exists_insertNew
              (a := new.row id (db.watchesSeq + 1) k began) (t := db.watches) hfree
            rw [hi] at hws
            contradiction
        | some ws =>
            rw [WatchRow.fromRow_of_fits (new.row_fits id _ k began)]
            exact .inserted hpos hactive (Table.get?_of_insertNew hi)

/-- The call ended in `s` with what the atomic registration makes of `db`, with
a number that was drawn earlier and the time at which its transaction began. -/
def Registration.Answers (id : Uuid) (new : NewWatch) (db : Db) (s : Registration)
    (out : CreateOutcome) : Prop :=
  s.stage = .answered (.ok out) ∧
    ∃ seq began db', commitWatch { db with now := began } seq id new = .ok (out, db') ∧
      s.db = { db' with now := db.now }

/-- **The commit of an inserted row is the atomic registration.** -/
theorem commitRow_answers {row : Watch} (h : new.Uncommitted id db row) :
    Registration.Answers id new db (.commitRow row db) (.created (.ofWatch row)) := by
  obtain ⟨⟨seq, k, began, rfl, hat⟩, hpos, hvacant, hfree⟩ := h
  obtain ⟨ws, hws⟩ := Table.exists_insertNew (a := new.row id seq k began) (t := db.watches) hfree
  have hfits := WatchRow.fromRow_of_fits (new.row_fits id seq k began)
  refine ⟨?_, seq, began, { db with now := began, watches := ws }, ?_, ?_⟩
  · simp only [Registration.commitRow, hfits]
    rfl
  · have hcur : db.cursors.get? new.chainId = some ⟨new.chainId, k⟩ := hat
    have hz : (new.row id seq k began).threshold ≠ 0 := fun hz =>
      hpos (NewWatch.row_threshold_eq_zero_iff.mp hz)
    have hnone : Db.activeOn { db with now := began } new.chainId new.tokenAddress
        new.paymentAddress = none := hvacant
    simp only [commitWatch, hcur, if_neg hz, hnone, hws, hfits]
    rfl
  · simp only [Registration.commitRow, hws]
    rfl

/-- The `SELECT` finds no active watch, or answers with the one it finds. -/
theorem selectActive_cases {k : Nat} (id : Uuid) (inv : Sound db) (positive : new.threshold ≠ 0)
    (hat : db.CursorAt new.chainId k) :
    (new.activeIn db = none ∧
        ∃ e, (Registration.selectActive new db).stage = .answered (.error e)) ∨
      new.activeIn db ≠ none ∧
        ∃ out, Registration.Answers id new db (.selectActive new db) out := by
  unfold Registration.selectActive
  cases hactive : new.activeIn db with
  | none => exact .inl ⟨rfl, _, rfl⟩
  | some w =>
      have hfits : WatchRow.fromRow w = .ok (.ofWatch w) :=
        WatchRow.fromRow_of_fits (inv.fits w.id w (Table.get?_of_mem (List.mem_of_find?_eq_some hactive)))
      simp only [hfits]
      refine .inr ⟨Option.some_ne_none w, _, rfl, db.watchesSeq, db.now, db, ?_, rfl⟩
      have hcur : db.cursors.get? new.chainId = some ⟨new.chainId, k⟩ := hat
      have hz : (new.row id db.watchesSeq k db.now).threshold ≠ 0 := fun hz =>
        positive (NewWatch.row_threshold_eq_zero_iff.mp hz)
      have hsome : db.activeOn new.chainId new.tokenAddress new.paymentAddress = some w := hactive
      simp only [commitWatch, hcur, if_neg hz, hsome, hfits, bind, Except.bind]
      split <;> rfl

/-! ## Runs -/

namespace Registration

variable {s : Registration}

/-- What holds of a call on the way to its answer. -/
def Standing (id : Uuid) (new : NewWatch) (s : Registration) : Prop :=
  match s.stage with
  | .begun => Sound s.db ∧ ∃ k, s.db.CursorAt new.chainId k
  | .holding k _ => Sound s.db ∧ s.db.CursorAt new.chainId k
  | .inserted row => Sound s.db ∧ new.Uncommitted id s.db row
  | .refused => Sound s.db ∧ new.threshold ≠ 0 ∧ ∃ k, s.db.CursorAt new.chainId k
  | .answered _ => True

/-- The statement that the call takes next will not fail. -/
def Clear (id : Uuid) (new : NewWatch) (s : Registration) : RegistrationStep → Prop
  | .commits _ => True
  | .statement =>
      match s.stage with
      | .holding _ _ => new.threshold ≠ 0 ∧ (new.activeIn s.db = none → s.db.watches.get? id = none)
      | .refused => new.activeIn s.db ≠ none
      | _ => True

instance (id : Uuid) (new : NewWatch) :
    (s : Registration) → (i : RegistrationStep) → Decidable (s.Clear id new i)
  | _, .commits _ => isTrue trivial
  | ⟨_, .begun⟩, .statement => isTrue trivial
  | ⟨_, .holding _ _⟩, .statement => inferInstanceAs (Decidable (_ ∧ (_ → _)))
  | ⟨_, .inserted _⟩, .statement => isTrue trivial
  | ⟨_, .refused⟩, .statement => inferInstanceAs (Decidable (_ ≠ _))
  | ⟨_, .answered _⟩, .statement => isTrue trivial

/-- The call has not failed. -/
def Unfailed (s : Registration) : Prop := ∀ e, s.stage ≠ .answered (.error e)

theorem sound_exec (h : Sound db) (op : Op) : Sound (exec db op) :=
  exec_invariant Sound (fun _ _ _ => Sound.step) h op

/-- What others may commit meanwhile does not upset the call. -/
theorem Standing.commits (h : s.Standing id new) (op : Op) (permits : s.stage.Permits new op) :
    Standing id new { s with db := exec s.db op } := by
  obtain ⟨db, stage⟩ := s
  cases stage with
  | begun =>
      obtain ⟨hsound, k, hat⟩ := h
      obtain ⟨k', hat', -⟩ := exec_cursorAt op hat
      exact ⟨sound_exec hsound op, k', hat'⟩
  | holding k began => exact ⟨sound_exec h.1 op, cursorAt_of_permits permits h.2⟩
  | inserted row =>
      obtain ⟨hsound, ⟨seq, k, began, rfl, hat⟩, hpos, hvacant, hfree⟩ := h
      exact ⟨sound_exec hsound op, ⟨seq, k, began, rfl, cursorAt_of_permits permits.1 hat⟩, hpos,
        activeIn_exec rfl rfl rfl permits.2 hvacant, free_exec rfl permits.2 hfree⟩
  | refused =>
      obtain ⟨hsound, hpos, k, hat⟩ := h
      exact ⟨sound_exec hsound op, hpos, k, cursorAt_of_permits permits hat⟩
  | answered r => trivial

/-- An answered call relies on nothing. -/
theorem standing_of_answered {r : Except StoreError CreateOutcome} (h : s.stage = .answered r) :
    s.Standing id new := by
  rw [Standing, h]
  trivial

/-- Every step keeps what the call relies on. -/
theorem Standing.step (h : s.Standing id new) (i : RegistrationStep) :
    (s.step id new i).Standing id new := by
  cases i with
  | commits op =>
      simp only [Registration.step]
      split
      · next permits => exact h.commits op permits
      · exact h
  | statement =>
      obtain ⟨db, stage⟩ := s
      cases stage with
      | begun =>
          obtain ⟨hsound, k, hat⟩ := h
          have hcur : db.cursors.get? new.chainId = some ⟨new.chainId, k⟩ := hat
          simp only [Registration.step, statement, lockCursor, hcur]
          exact ⟨hsound, hat⟩
      | holding k began =>
          obtain ⟨hsound, hat⟩ := h
          have hins := insertRow_inserts id new k began db
          simp only [Registration.step, statement]
          generalize insertRow id new k began db = s' at hins ⊢
          cases hins with
          | zero _ failed => exact standing_of_answered failed
          | taken _ _ _ failed => exact standing_of_answered failed
          | refused hpos _ => exact ⟨sound_exec hsound (.draw 1), hpos, k, hat⟩
          | inserted hpos hvacant hfree =>
              exact ⟨sound_exec hsound (.draw 1), ⟨_, k, began, rfl, hat⟩, hpos, hvacant, hfree⟩
      | inserted row => exact standing_of_answered rfl
      | refused =>
          obtain ⟨hsound, hpos, k, hat⟩ := h
          rcases selectActive_cases id hsound hpos hat with
            ⟨-, e, he⟩ | ⟨-, out, ho, -⟩
          · exact standing_of_answered he
          · exact standing_of_answered ho
      | answered r => exact standing_of_answered rfl

/-- A call fails exactly at a step that is not clear. -/
theorem unfailed_step_iff (h : s.Standing id new) (hs : s.Unfailed) (i : RegistrationStep) :
    (s.step id new i).Unfailed ↔ s.Clear id new i := by
  have hok : ∀ {s' : Registration} {out : CreateOutcome}, s'.stage = .answered (.ok out) →
      s'.Unfailed := by
    intro s' out h e he
    rw [h] at he
    cases he
  cases i with
  | commits op =>
      simp only [Registration.step, Clear, iff_true]
      split
      · exact hs
      · exact hs
  | statement =>
      obtain ⟨db, stage⟩ := s
      cases stage with
      | begun =>
          obtain ⟨hsound, k, hat⟩ := h
          have hcur : db.cursors.get? new.chainId = some ⟨new.chainId, k⟩ := hat
          simp only [Registration.step, statement, lockCursor, hcur, Clear, iff_true]
          exact fun e he => Stage.noConfusion he
      | holding k began =>
          have hins := insertRow_inserts id new k began db
          simp only [Registration.step, statement, Clear]
          generalize insertRow id new k began db = s' at hins ⊢
          cases hins with
          | zero hzero failed =>
              exact ⟨fun h => absurd failed (h _), fun h => absurd hzero h.1⟩
          | taken _ hvacant htaken failed =>
              exact ⟨fun h => absurd failed (h _), fun h => absurd (h.2 hvacant) htaken⟩
          | refused hpos hactive =>
              refine ⟨fun _ => ⟨hpos, fun hnone => ?_⟩, fun _ e he => Stage.noConfusion he⟩
              rw [hnone] at hactive
              contradiction
          | inserted hpos _ hfree =>
              exact ⟨fun _ => ⟨hpos, fun _ => hfree⟩, fun _ e he => Stage.noConfusion he⟩
      | inserted row =>
          have hans := commitRow_answers h.2
          simp only [Registration.step, statement, Clear, iff_true]
          exact hok hans.1
      | refused =>
          obtain ⟨hsound, hpos, k, hat⟩ := h
          simp only [Registration.step, statement, Clear]
          rcases selectActive_cases id hsound hpos hat with
            ⟨hnone, e, he⟩ | ⟨hsome, out, hans⟩
          · exact ⟨fun h => absurd he (h e), fun h => absurd hnone h⟩
          · exact ⟨fun _ => hsome, fun _ => hok hans.1⟩
      | answered r =>
          simp only [Registration.step, statement, Clear, iff_true]
          exact hs

/-- The statements that a call still has before it. -/
def left (s : Registration) : Nat :=
  match s.stage with
  | .begun => 3
  | .holding _ _ => 2
  | .inserted _ => 1
  | .refused => 1
  | .answered _ => 0

/-- An answered call has nothing left to do. -/
theorem left_of_answered {r : Except StoreError CreateOutcome} (h : s.stage = .answered r) :
    s.left = 0 := by
  rw [left, h]

/-- A call with nothing left to do is answered. -/
theorem answered_of_left (h : s.left = 0) : ∃ r, s.stage = .answered r := by
  obtain ⟨db, stage⟩ := s
  cases stage with
  | answered r => exact ⟨r, rfl⟩
  | _ => contradiction

/-- Each statement brings it nearer. -/
theorem left_statement (h : s.Standing id new) : (s.statement id new).left ≤ s.left - 1 := by
  obtain ⟨db, stage⟩ := s
  cases stage with
  | begun =>
      obtain ⟨-, k, hat⟩ := h
      have hcur : db.cursors.get? new.chainId = some ⟨new.chainId, k⟩ := hat
      simp only [statement, lockCursor, hcur]
      exact Nat.le_refl _
  | holding k began =>
      have hins := insertRow_inserts id new k began db
      simp only [statement]
      generalize insertRow id new k began db = s' at hins ⊢
      cases hins with
      | zero _ failed => exact (left_of_answered failed).trans_le (Nat.zero_le _)
      | taken _ _ _ failed => exact (left_of_answered failed).trans_le (Nat.zero_le _)
      | refused _ _ => exact Nat.le_refl _
      | inserted _ _ _ => exact Nat.le_refl _
  | inserted row => exact Nat.le_refl _
  | refused =>
      simp only [statement, selectActive]
      split <;> exact Nat.le_refl _
  | answered r => exact Nat.le_refl _

/-- Three statements are enough. -/
theorem left_run (h : s.Standing id new) (steps : List RegistrationStep) :
    (run (step id new) s steps).left ≤ s.left - steps.countP RegistrationStep.isStatement := by
  induction steps generalizing s with
  | nil => exact Nat.le_refl _
  | cons i steps ih =>
      refine (ih (h.step i)).trans ?_
      rw [List.countP_cons]
      cases i with
      | statement =>
          have hless : (s.step id new .statement).left ≤ s.left - 1 := left_statement h
          simp only [RegistrationStep.isStatement, if_true]
          omega
      | commits op =>
          have hsame : (s.step id new (.commits op)).left = s.left := by
            simp only [step]
            split <;> rfl
          simp [RegistrationStep.isStatement, hsame]

/-- An answer is final. -/
theorem stage_of_answered {r : Except StoreError CreateOutcome} (h : s.stage = .answered r)
    (steps : List RegistrationStep) : (run (step id new) s steps).stage = .answered r := by
  refine invariant_run (fun s : Registration => s.stage = .answered r) (fun s i hs => ?_) h steps
  cases i with
  | statement =>
      simp only [step, statement, hs]
  | commits op =>
      simp only [step]
      split <;> exact hs

/-- **A call that answers is an atomic registration**: its answer, and what it
left in the database, are those of `commitWatch` when its last statement ran,
with the number that its `INSERT` drew and the time at which it began. -/
theorem answered_atomic (h : s.Standing id new) (hopen : ∀ r, s.stage ≠ .answered r)
    {steps : List RegistrationStep}
    (hans : (run (step id new) s steps).stage = .answered (.ok out)) :
    ∃ pre post, steps = pre ++ .statement :: post ∧
      Answers id new (run (step id new) s pre).db (run (step id new) s (pre ++ [.statement])) out := by
  obtain ⟨pre, i, post, rfl, hnot, r, hr⟩ := exists_first
    (P := fun s : Registration => ∃ r, s.stage = .answered r) (fun ⟨r, hr⟩ => hopen r hr) ⟨_, hans⟩
  -- the first answer is the one the call ends with
  rw [run_append, run_cons, stage_of_answered hr] at hans
  obtain rfl : r = .ok out := Stage.answered.inj hans
  have hstand : (run (step id new) s pre).Standing id new :=
    invariant_run (Standing id new) (fun _ i hs => hs.step i) h pre
  cases i with
  | commits op =>
      refine absurd ?_ hnot
      simp only [step] at hr
      split at hr <;> exact ⟨_, hr⟩
  | statement =>
      refine ⟨pre, post, rfl, ?_⟩
      rw [run_append, run_cons, run_nil]
      generalize run (step id new) s pre = t at *
      obtain ⟨db, stage⟩ := t
      cases stage with
      | begun =>
          simp only [step, statement, lockCursor] at hr
          split at hr <;> cases hr
      | holding k began =>
          have hins := insertRow_inserts id new k began db
          simp only [step, statement] at hr
          generalize insertRow id new k began db = s' at hins hr
          cases hins with
          | zero _ failed => rw [failed] at hr; cases hr
          | taken _ _ _ failed => rw [failed] at hr; cases hr
          | refused _ _ => cases hr
          | inserted _ _ _ => cases hr
      | inserted row =>
          have hcommit := commitRow_answers hstand.2
          obtain rfl := Except.ok.inj (Stage.answered.inj (hcommit.1.symm.trans hr))
          exact hcommit
      | refused =>
          obtain ⟨hsound, hpos, k, hat⟩ := hstand
          rcases selectActive_cases id hsound hpos hat with
            ⟨-, e, he⟩ | ⟨-, out', hselect⟩
          · cases he.symm.trans hr
          · obtain rfl := Except.ok.inj (Stage.answered.inj (hselect.1.symm.trans hr))
            exact hselect
      | answered r => exact absurd ⟨r, rfl⟩ hnot

end Registration

/-! ## Answers -/

/-- What an answer says about the database it was given in. -/
def CreateOutcome.Tells (id : Uuid) (new : NewWatch) (db : Db) : CreateOutcome → Prop
  | .created w =>
      new.activeIn db = none ∧
        ∃ seq k began, db.CursorAt new.chainId k ∧ w = .ofWatch (new.row id seq k began)
  | .existing w =>
      ∃ row, new.activeIn db = some row ∧ w = .ofWatch row ∧
        (w.threshold = new.threshold ∧ w.webhookUrl = new.webhookUrl)
  | .conflict w =>
      ∃ row, new.activeIn db = some row ∧ w = .ofWatch row ∧
        ¬ (w.threshold = new.threshold ∧ w.webhookUrl = new.webhookUrl)

/-- The answer tells what there was when the row was committed. -/
theorem commitWatch_tells {seq : Nat} (h : commitWatch db seq id new = .ok (out, db')) :
    out.Tells id new db := by
  obtain ⟨⟨c, k⟩, row, hcur, rfl, -, ⟨watches, hfree, -, rfl, -⟩ | ⟨found, hfound, rfl, -⟩⟩ :=
    commitWatch_cases h
  · obtain rfl : c = new.chainId := Table.key_of_get? hcur
    exact ⟨hfree, seq, k, db.now, hcur, rfl⟩
  · split
    · next heq => exact ⟨found, hfound, rfl, heq⟩
    · next hne => exact ⟨found, hfound, rfl, hne⟩

/-- The answer does not depend on when the transaction began. -/
theorem CreateOutcome.Tells.of_now {now : Nat} (h : out.Tells id new { db with now }) :
    out.Tells id new db := by
  cases out with
  | created w => exact h
  | existing w => exact h
  | conflict w => exact h

/-- **When a registration has an answer.**  Other transactions commit between
the statements of the call, in any order.  The call has not failed, at any
point, exactly if its statements were clear: the threshold is not zero and the
id is new, and if the `INSERT` ran into an active watch then the `SELECT` still
finds one on the target.  Three statements answer the call; while its row is
inserted and not committed the target has no active watch; and what it answers
is so when its last statement runs. -/
theorem registration_answers_iff (ops : List Op) (id : Uuid) (new : NewWatch) (cursor : Nat)
    (steps : List RegistrationStep) (hat : (run exec Db.empty ops).CursorAt new.chainId cursor) :
    let call := run (Registration.step id new) ⟨run exec Db.empty ops, .begun⟩
    (Along (Registration.step id new) (Registration.Clear id new) ⟨run exec Db.empty ops, .begun⟩
        steps ↔
      ∀ pre post, steps = pre ++ post → (call pre).Unfailed) ∧
    (3 ≤ steps.countP RegistrationStep.isStatement →
      ∃ result, (call steps).stage = .answered result) ∧
    (∀ pre post row, steps = pre ++ post → (call pre).stage = .inserted row →
      new.activeIn (call pre).db = none) ∧
    ∀ out, (call steps).stage = .answered (.ok out) →
      ∃ pre post, steps = pre ++ .statement :: post ∧ out.Tells id new (call pre).db := by
  intro call
  have hstand : Registration.Standing id new ⟨run exec Db.empty ops, .begun⟩ :=
    ⟨sound_run ops, cursor, hat⟩
  have hstands : ∀ pre, (call pre).Standing id new := fun pre =>
    invariant_run (Registration.Standing id new) (fun _ i hs => hs.step i) hstand pre
  refine ⟨?_, fun hthree => ?_, fun pre post row _ hstage => ?_, fun out hout => ?_⟩
  · exact along_iff_of_step (Registration.Standing id new) Registration.Unfailed
      (fun _ i hs => hs.step i) (fun _ i hs hun => Registration.unfailed_step_iff hs hun i) hstand
      (fun e he => Stage.noConfusion he) steps
  · have hleft : (call steps).left ≤ 3 - steps.countP RegistrationStep.isStatement :=
      Registration.left_run hstand steps
    exact Registration.answered_of_left (by omega)
  · have hrow := hstands pre
    rw [Registration.Standing, hstage] at hrow
    exact hrow.2.vacant
  · obtain ⟨pre, post, rfl, -, seq, began, db', hcommit, -⟩ :=
      Registration.answered_atomic hstand (fun r hr => Stage.noConfusion hr) hout
    exact ⟨pre, post, rfl, (commitWatch_tells hcommit).of_now⟩

/-- A watch on the target of `watchOrder`. -/
def watchedTarget : List Op := [.ensureCursor baseChain.chainId 100, .createWatch 1 watchOrder]

/-- The same request again; the watch is cancelled after the `INSERT`. -/
def cancelledBetween : List RegistrationStep :=
  [.statement, .statement, .commits (.cancelWatch 1), .statement]

/-- The same watch is cancelled and registered anew. -/
def replacedBetween : List RegistrationStep :=
  [.statement, .statement, .commits (.cancelWatch 1), .commits (.createWatch 2 watchOrder),
    .statement]

theorem registration_answers_replaced :
    (run exec Db.empty watchedTarget).CursorAt watchOrder.chainId 100 ∧
      (run (Registration.step 3 watchOrder) ⟨run exec Db.empty watchedTarget, .begun⟩
        replacedBetween).Unfailed ∧
      ∃ result, (run (Registration.step 3 watchOrder) ⟨run exec Db.empty watchedTarget, .begun⟩
        replacedBetween).stage = .answered result :=
  have hat : (run exec Db.empty watchedTarget).CursorAt watchOrder.chainId 100 := by decide
  have h := registration_answers_iff watchedTarget 3 watchOrder 100 replacedBetween hat
  have hclear : Along (Registration.step 3 watchOrder) (Registration.Clear 3 watchOrder)
      ⟨run exec Db.empty watchedTarget, .begun⟩ replacedBetween := by decide
  ⟨hat, h.1.mp hclear replacedBetween [] (by simp), h.2.1 (by decide)⟩

/-- The chain has a cursor and the request is the one that was accepted before,
with a new id, and still the call ends with a database error: `cancel_watch`
does not wait for it. -/
theorem retired_before_select :
    (run exec Db.empty watchedTarget).CursorAt watchOrder.chainId 100 ∧
      watchOrder.threshold ≠ 0 ∧ (run exec Db.empty watchedTarget).watches.get? 2 = none ∧
      (run (Registration.step 2 watchOrder) ⟨run exec Db.empty watchedTarget, .begun⟩
        cancelledBetween).stage = .answered (.error (.db .rowNotFound)) := by
  refine ⟨by decide, by decide, by decide, rfl⟩

end GumIndexer
