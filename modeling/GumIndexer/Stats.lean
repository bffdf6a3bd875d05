import GumIndexer.Rollup
import GumIndexer.Settlement
import GumIndexer.Watchlist

/-!
# GumIndexer.Stats

Do the statistics agree with the ledger?

A counting transaction accumulates a `StatsDelta` for each token and writes
them once, at its end, while it writes watches, transfers and events one by
one.  `Db.measure` is any of the five numbers that the statistics are about,
taken over the watches of one token of one chain; `Accrued` says that at every
point of a transaction the measures have grown by what was accumulated
(`sweepTx_accrued`, `backfillTx_accrued`), and `rollup_flush` that flushing adds
just that.
-/

namespace GumIndexer

open Base

/-! ## Measures -/

/-- What the statistics of a token are about. -/
inductive Stat
  /-- `payment.confirmed` events. -/
  | confirmed
  /-- Confirmed transfers. -/
  | counted
  | volume
  | thresholds
  /-- `payment.orphaned` events. -/
  | orphaned
deriving DecidableEq, Repr

namespace Stat

def ofWatch : Stat → Watch → Nat
  | .volume, w => w.confirmedAmount
  | .thresholds, w => if w.status = .completed then 1 else 0
  | _, _ => 0

def ofRow : Stat → Transfer → Nat
  | .counted, t => if t.status = .confirmed then 1 else 0
  | _, _ => 0

def ofType : Stat → EventType → Nat
  | .confirmed, type => if type = .paymentConfirmed then 1 else 0
  | .orphaned, type => if type = .paymentOrphaned then 1 else 0
  | _, _ => 0

/-- What counting a transfer adds. -/
def perCount : Stat → Nat → Nat
  | .confirmed, _ => 1
  | .counted, _ => 1
  | .volume, amount => amount
  | _, _ => 0

/-- What completing a watch adds. -/
def perCompletion : Stat → Nat
  | .thresholds => 1
  | _ => 0

/-- What reporting an orphan adds. -/
def perOrphan : Stat → Nat
  | .orphaned => 1
  | _ => 0

end Stat

/-- `n`, if it is to be included. -/
def included (on : Bool) (n : Nat) : Nat := if on then n else 0

@[simp] theorem included_true (n : Nat) : included true n = n := rfl

@[simp] theorem included_false (n : Nat) : included false n = 0 := rfl

/-- A sum is included as a whole. -/
theorem included_add (on : Bool) (n k : Nat) : included on (n + k) = included on n + included on k := by
  cases on <;> rfl

@[simp] theorem included_zero (on : Bool) : included on 0 = 0 := by cases on <;> rfl

/-- The rows of some watches, by their ids. -/
def rowsOn (s : Stat) (on : Uuid → Bool) (ts : Table Transfer Transfer.key) : Nat :=
  ts.sumOf fun t => included (on t.watchId) (s.ofRow t)

/-- A measure, over the watches with the ids `on`. -/
def Db.measure (db : Db) (on : Uuid → Bool) (s : Stat) : Nat :=
  db.watches.sumOf (fun w => included (on w.id) (s.ofWatch w)) + rowsOn s on db.transfers +
    db.outbox.sumOf fun e => included (on e.watchId) (s.ofType e.eventType)

variable {db db' : Db} {chain : ChainSpec} {a : Act} {on : Uuid → Bool} {s : Stat}

/-! ## Steps -/

/-- An event is queued for a watch. -/
theorem Post.measure {w w' : Watch} {type : EventType} {view : Option TransferView}
    {transfers : Table Transfer Transfer.key} (h : Post chain db w w' type view transfers db')
    (on : Uuid → Bool) (s : Stat) :
    db'.measure on s + (included (on w.id) (s.ofWatch w) + rowsOn s on db.transfers) =
      db.measure on s + (included (on w.id) (s.ofWatch w' + s.ofType type) + rowsOn s on transfers) := by
  have found : db.watches.get? w'.id = some w := by rw [h.sameId]; exact h.found
  obtain ⟨outbox, hi, hdb⟩ := h.posted
  have hwatch := Table.sumOf_replace found fun w => included (on w.id) (s.ofWatch w)
  have houtbox := Table.sumOf_insertNew hi fun e => included (on e.watchId) (s.ofType e.eventType)
  have hevent : included (on (eventRow db chain (.ofWatch w') type view).watchId)
      (s.ofType (eventRow db chain (.ofWatch w') type view).eventType) =
        included (on w.id) (s.ofType type) := by
    change included (on w'.id) (s.ofType type) = _
    rw [h.sameId]
  rw [hevent] at houtbox
  rw [h.sameId] at hwatch
  have hafter : db'.measure on s =
      (db.watches.replace w').sumOf (fun w => included (on w.id) (s.ofWatch w)) +
        rowsOn s on transfers +
        outbox.sumOf (fun e => included (on e.watchId) (s.ofType e.eventType)) := by
    rw [hdb]
    rfl
  rw [hafter, included_add, Db.measure]
  omega

section Rows

variable {ts ts' : Table Transfer Transfer.key} {row t : Transfer}

/-- A pending row is settled without being counted. -/
theorem rowsOn_settle {status : TransferStatus} (found : ts.get? t.key = some t)
    (pending : t.status = .pending) (hs : status ≠ .confirmed) :
    rowsOn s on (ts.replace (t.withStatus status)) = rowsOn s on ts := by
  have hsum := Table.sumOf_replace (a := t.withStatus status) found
    fun t => included (on t.watchId) (s.ofRow t)
  have hold : s.ofRow t = 0 := by cases s <;> simp [Stat.ofRow, pending]
  have hnew : s.ofRow (t.withStatus status) = 0 := by
    cases s <;> simp [Stat.ofRow, Transfer.withStatus, hs]
  rw [hold, hnew, included_zero, included_zero] at hsum
  exact hsum

/-- A new row adds its own share. -/
theorem rowsOn_insertNew (h : ts.insertNew row = some ts') :
    rowsOn s on ts' = rowsOn s on ts + included (on row.watchId) (s.ofRow row) :=
  Table.sumOf_insertNew h _

/-- A row is confirmed. -/
theorem Confirms.rowsOn (h : Confirms ts row ts') (hrow : row.status = .confirmed)
    (akin : ∀ t, ts.get? row.key = some t → on t.watchId = on row.watchId) :
    rowsOn s on ts' = GumIndexer.rowsOn s on ts + included (on row.watchId) (s.ofRow row) := by
  cases h with
  | fresh insert => exact rowsOn_insertNew insert
  | @pending t found pending =>
      have hfound : ts.get? (t.withStatus .confirmed).key = some t := by
        rw [Transfer.key_withStatus, Table.key_of_get? found, found]
      have hsum := Table.sumOf_replace hfound fun t => included (on t.watchId) (s.ofRow t)
      have hold : s.ofRow t = 0 := by cases s <;> simp [Stat.ofRow, pending]
      have hnew : s.ofRow (t.withStatus .confirmed) = s.ofRow row := by
        cases s <;> simp [Stat.ofRow, Transfer.withStatus, hrow]
      have howner : on (t.withStatus .confirmed).watchId = on row.watchId := akin t found
      rw [hold, hnew, howner, included_zero, Nat.add_zero] at hsum
      exact hsum

end Rows

/-- **What counting a match adds to a measure.** -/
theorem Counts.measure {w : Watch} {m : MatchedTransfer} (h : Counts chain db w m db')
    (akin : ∀ t, db.transfers.get? (m.logId chain.chainId) = some t → on t.watchId = on w.id) :
    db'.measure on s = db.measure on s + included (on w.id) (s.perCount m.amount.toNat) := by
  obtain ⟨transfers, hc, post⟩ := h.step
  have hpost := post.measure on s
  have hrows : rowsOn s on transfers = _ := hc.rowsOn rfl akin
  have hgain : s.ofWatch (w.credit m.amount.toNat) + s.ofType .paymentConfirmed +
      s.ofRow (m.row chain.chainId w.id .confirmed) = s.ofWatch w + s.perCount m.amount.toNat := by
    have hstatus : (w.credit m.amount.toNat).status = w.status := rfl
    have hamount : (w.credit m.amount.toNat).confirmedAmount = w.confirmedAmount + m.amount.toNat := rfl
    cases s <;> simp [Stat.ofWatch, Stat.ofType, Stat.ofRow, Stat.perCount, MatchedTransfer.row, hstatus,
      hamount]
  have hsplit := congrArg (included (on w.id)) hgain
  rw [included_add, included_add (on w.id) (s.ofWatch w)] at hsplit
  change rowsOn s on transfers = rowsOn s on db.transfers +
    included (on w.id) (s.ofRow (m.row chain.chainId w.id .confirmed)) at hrows
  omega

/-- A watch is completed. -/
theorem Post.measure_complete {w : Watch} {now : Nat}
    (h : Post chain db w (w.retire .completed now) .thresholdReached none db.transfers db')
    (hw : w.status ≠ .completed) :
    db'.measure on s = db.measure on s + included (on w.id) s.perCompletion := by
  have hpost := h.measure on s
  have hgain : s.ofWatch (w.retire .completed now) + s.ofType .thresholdReached =
      s.ofWatch w + s.perCompletion := by
    cases s <;> simp [Stat.ofWatch, Stat.ofType, Stat.perCompletion, Watch.retire, Watch.withStatus,
      Watch.bump, hw]
  rw [hgain, included_add] at hpost
  omega

/-- The step moves no measure: it neither counts nor reports an orphan. -/
def Act.Still : Act → Prop
  | .count _ _ => False
  | .orphan _ => False
  | _ => True

/-- A watch is replaced by one with the same total, and neither is completed. -/
theorem measure_putWatch {w w' : Watch} (found : db.watches.get? w.id = some w) (hid : w'.id = w.id)
    (hwatch : s.ofWatch w' = s.ofWatch w) : (db.putWatch w').measure on s = db.measure on s := by
  rw [← hid] at found
  have hsum := Table.sumOf_replace found fun w => included (on w.id) (s.ofWatch w)
  rw [hwatch, hid] at hsum
  unfold Db.measure
  rw [Db.watches_putWatch, Nat.add_right_cancel hsum]
  rfl

/-- The sequence number of a watch is in no measure. -/
theorem Stat.ofWatch_bump (s : Stat) (w : Watch) : s.ofWatch w.bump = s.ofWatch w := by
  cases s <;> rfl

/-- A status other than `completed` is in no measure. -/
theorem Stat.ofWatch_withStatus {w : Watch} {status : WatchStatus} (hw : w.status ≠ .completed)
    (hs : status ≠ .completed) (now : Nat) (s : Stat) :
    s.ofWatch (w.withStatus status now) = s.ofWatch w := by
  cases s <;> simp [ofWatch, Watch.withStatus, hw, hs]

/-- A step that neither counts nor orphans changes no measure. -/
theorem Step.measure_of_still (h : Step db a db') (hstill : a.Still) :
    db'.measure on s = db.measure on s := by
  have hactive : ∀ {w : Watch}, w.status = .active → w.status ≠ .completed := by
    intro w ha
    rw [ha]
    decide
  cases h with
  | @register id new cur seq _ _ _ _ _ insert =>
      have hsum := Table.sumOf_insertNew insert fun w => included (on w.id) (s.ofWatch w)
      have hrow : s.ofWatch (new.row id seq cur.confirmedBlock db.now) = 0 := by
        cases s <;> rfl
      rw [hrow, included_zero, Nat.add_zero] at hsum
      unfold Db.measure
      rw [hsum]
  | cancel found active =>
      exact measure_putWatch found rfl (s.ofWatch_withStatus (hactive active) (by decide) _)
  | @expire _ chain w active post =>
      have hpost := post.measure on s
      have hwatch : s.ofWatch (w.retire .expired db.now) = s.ofWatch w :=
        (s.ofWatch_withStatus (w := w.bump) (hactive active) (by decide) _).trans (s.ofWatch_bump w)
      have htype : s.ofType .watchExpired = 0 := by cases s <;> rfl
      rw [hwatch, htype, Nat.add_zero] at hpost
      omega
  | @announce _ chain w m transfers _ _ insert post =>
      have hpost := post.measure on s
      have hrows : rowsOn s on _ = _ := rowsOn_insertNew insert
      have hrow : s.ofRow (m.row chain.chainId w.id .pending) = 0 := by
        cases s <;> rfl
      have htype : s.ofType .paymentPending = 0 := by cases s <;> rfl
      rw [hrow, included_zero] at hrows
      rw [s.ofWatch_bump, htype, Nat.add_zero] at hpost
      omega
  | count _ _ => exact hstill.elim
  | complete _ _ _ => exact hstill.elim
  | ignore found pending =>
      unfold Db.measure
      rw [Db.transfers_putTransfer, rowsOn_settle found pending (by decide)]
      rfl
  | orphanRetired _ _ _ => exact hstill.elim
  | orphan _ _ _ _ _ _ _ => exact hstill.elim
  | clearBackfill found => exact measure_putWatch found rfl (by cases s <;> rfl)
  | moveCursor watches transfers outbox _ => unfold Db.measure; rw [watches, transfers, outbox]
  | other watches transfers outbox _ _ => unfold Db.measure; rw [watches, transfers, outbox]

/-! ## Watches of a token -/

/-- The watch `id` is of this token of the chain. -/
def Db.Target (db : Db) (c : Nat) (token : Address) (id : Uuid) : Prop :=
  ∃ w, db.watches.get? id = some w ∧ w.chainId = c ∧ w.tokenAddress = token

/-- A watch stays on its token. -/
theorem Db.Target.step {c : Nat} {token : Address} {id : Uuid} (h : Step db a db')
    (inv : db.Target c token id) : db'.Target c token id := by
  obtain ⟨w, hw, hc, ht⟩ := inv
  obtain ⟨w', hw', hlater⟩ := h.later hw
  exact ⟨w', hw', hlater.same.chainId.trans hc, hlater.same.tokenAddress.trans ht⟩

/-- `on` tells the watches of the token from the others. -/
def Marks (on : Uuid → Bool) (c : Nat) (token : Address) (db : Db) : Prop :=
  ∀ id w, db.watches.get? id = some w → on id = decide (w.chainId = c ∧ w.tokenAddress = token)

/-- Unless a watch is registered, the marks of a token stay right. -/
theorem Marks.step {c : Nat} {token : Address} (h : Step db a db') (hreg : ∀ w, a ≠ .register w)
    (inv : Marks on c token db) : Marks on c token db' := by
  intro id w' hw'
  rcases h.watch_update hw' with hold | ha | ⟨w, hw, hupdate⟩
  · exact inv id w' hold
  · exact absurd ha (hreg w')
  · rw [inv id w hw, hupdate.same.chainId, hupdate.same.tokenAddress]

/-- Every row belongs to a watch of the token its log is about. -/
def Rooted (tokenOf : LogId → Address) (db : Db) : Prop :=
  ∀ log t, db.transfers.get? log = some t → db.Target t.chainId (tokenOf log) t.watchId

/-- The match is for a watch of the token its log is about. -/
def Act.Suits (tokenOf : LogId → Address) (db : Db) : Act → Prop
  | .announce chainId m => db.Target chainId (tokenOf (m.logId chainId)) m.watch.id
  | .count chainId m => db.Target chainId (tokenOf (m.logId chainId)) m.watch.id
  | _ => True

/-- What is suited stays suited. -/
theorem Act.Suits.step {tokenOf : LogId → Address} {b : Act} (h : Step db b db')
    (inv : a.Suits tokenOf db) : a.Suits tokenOf db' := by
  cases a with
  | announce chainId m => exact Db.Target.step h inv
  | count chainId m => exact Db.Target.step h inv
  | _ => trivial

/-- A suited step keeps the rows with watches of their tokens. -/
theorem Rooted.step {tokenOf : LogId → Address} (h : Step db a db') (suits : a.Suits tokenOf db)
    (inv : Rooted tokenOf db) : Rooted tokenOf db' := by
  intro log t ht
  rcases h.writes ht with hold | hw
  · exact (inv log t hold).step h
  · obtain rfl := Table.key_of_get? ht
    cases hw with
    | announce _ _ _ => exact Db.Target.step h suits
    | insert _ _ => exact Db.Target.step h suits
    | @confirm chainId m u found _ =>
        have hkey : u.key = m.logId chainId := Table.key_of_get? found
        rw [Transfer.key_withStatus, hkey]
        exact (inv _ u found).step h
    | @ignore u found _ => exact (inv _ u found).step h
    | @orphan u found _ => exact (inv _ u found).step h

/-! ## A transaction in progress -/

/-- The delta is what `n` says, the volume up to a wrap around. -/
structure StatsDelta.Holds (d : StatsDelta) (n : Stat → Nat) : Prop where
  confirmed : d.confirmed = n .confirmed
  counted : d.confirmed = n .counted
  volume : d.volume = BitVec.ofNat 256 (n .volume)
  thresholds : d.thresholds = n .thresholds
  orphaned : d.orphaned = n .orphaned

namespace StatsDelta.Holds

variable {d : StatsDelta} {n : Stat → Nat}

theorem zero : StatsDelta.Holds {} fun _ => 0 := ⟨rfl, rfl, rfl, rfl, rfl⟩

/-- A credit raises the delta as it raises the measures. -/
theorem credit (h : d.Holds n) (amount : U256) :
    (d.credit amount).Holds fun s => n s + s.perCount amount.toNat where
  confirmed := congrArg (· + 1) h.confirmed
  counted := congrArg (· + 1) h.counted
  volume := by
    change d.volume + amount = BitVec.ofNat 256 (n .volume + amount.toNat)
    rw [h.volume, BitVec.ofNat_add, BitVec.ofNat_toNat, BitVec.setWidth_eq]
  thresholds := h.thresholds
  orphaned := h.orphaned

/-- So does a completion. -/
theorem complete (h : d.Holds n) : d.complete.Holds fun s => n s + s.perCompletion :=
  ⟨h.confirmed, h.counted, h.volume, congrArg (· + 1) h.thresholds, h.orphaned⟩

/-- And so does an orphaned row. -/
theorem orphan (h : d.Holds n) : d.orphan.Holds fun s => n s + s.perOrphan :=
  ⟨h.confirmed, h.counted, h.volume, h.thresholds, congrArg (· + 1) h.orphaned⟩

end StatsDelta.Holds

/-- What a transaction on `chain` has noted for a token of the chain `c`. -/
def SweepTx.noted (tx : SweepTx) (chain : ChainSpec) (c : Nat) (token : Address) : StatsDelta :=
  if chain.chainId = c then tx.delta token else {}

/-- The volume of the watches in what a transaction has counted. -/
def SweepTx.counted (tx : SweepTx) (on : Uuid → Bool) : Nat :=
  total MatchedTransfer.units (tx.out.confirmed.filter fun m => on m.watch.id)

/-- The measures have grown by what was noted. -/
structure Accrued (chain : ChainSpec) (tokenOf : LogId → Address) (on : Uuid → Bool) (c : Nat)
    (token : Address) (db : Db) (tx : SweepTx) : Prop where
  marks : Marks on c token tx.db
  rooted : Rooted tokenOf tx.db
  grown : ∃ n, (∀ s, tx.db.measure on s = db.measure on s + n s) ∧
    (tx.noted chain c token).Holds n ∧ n .volume = tx.counted on

section Accrued

variable {tokenOf : LogId → Address} {c : Nat} {token : Address} {tx tx' : SweepTx}
  {m : MatchedTransfer} {w : Watch}

/-- A bump under the token of a watch of the chain is noted if the watch is
marked. -/
theorem noted_of_bump (tx tx' : SweepTx) {bump : StatsDelta → StatsDelta} (home : w.chainId = chain.chainId)
    (hon : on w.id = decide (w.chainId = c ∧ w.tokenAddress = token))
    (h : tx'.stats = bumpStats tx.stats w.tokenAddress bump) :
    tx'.noted chain c token =
      if on w.id then bump (tx.noted chain c token) else tx.noted chain c token := by
  unfold SweepTx.noted
  rw [delta_of_bump h, hon, home]
  by_cases hc : chain.chainId = c
  · by_cases ht : w.tokenAddress = token <;> simp [hc, ht]
  · simp [hc]

/-- A counted transfer, in the statistics and in the measures. -/
theorem noted_of_note {n : Stat → Nat} (home : w.chainId = chain.chainId)
    (hon : on w.id = decide (w.chainId = c ∧ w.tokenAddress = token))
    (h : tx'.stats = w.note m tx.stats) (holds : (tx.noted chain c token).Holds n) :
    (tx'.noted chain c token).Holds fun s => n s + included (on w.id) (s.perCount m.amount.toNat +
      if w.threshold ≤ w.confirmedAmount + m.amount.toNat then s.perCompletion else 0) := by
  let tx₁ : SweepTx := { tx with stats := bumpStats tx.stats w.tokenAddress (·.credit m.amount) }
  have hs₁ : tx₁.stats = bumpStats tx.stats w.tokenAddress (·.credit m.amount) := rfl
  have h₁ := noted_of_bump tx tx₁ home hon hs₁
  unfold Watch.note at h
  by_cases hr : w.threshold ≤ w.confirmedAmount + m.amount.toNat
  · rw [if_pos hr] at h
    rw [noted_of_bump tx₁ tx' home hon h, h₁]
    cases on w.id with
    | false => exact holds
    | true =>
        simp only [if_true, included_true, if_pos hr, ← Nat.add_assoc]
        exact (holds.credit m.amount).complete
  · rw [if_neg hr] at h
    rw [noted_of_bump tx tx' home hon h]
    cases on w.id with
    | false => exact holds
    | true =>
        simp only [if_true, included_true, if_neg hr, Nat.add_zero]
        exact holds.credit m.amount

/-- What is confirmed next adds to what was counted. -/
theorem counted_append {ms : List MatchedTransfer} (h : tx'.out.confirmed = tx.out.confirmed ++ ms) :
    tx'.counted on =
      tx.counted on + total MatchedTransfer.units (ms.filter fun m => on m.watch.id) := by
  unfold SweepTx.counted
  rw [h, List.filter_append, total_append]

/-- What the count of a match adds to the volume of the watches. -/
theorem counted_singleton (hm : m.watch.id = w.id) :
    total MatchedTransfer.units (List.filter (fun m => on m.watch.id) [m]) =
      included (on w.id) m.amount.toNat := by
  rw [List.filter_singleton, hm]
  cases on w.id <;> simp [MatchedTransfer.units]

/-- **Counting a match keeps the tally.** -/
theorem Accrued.count (inv : Accrued chain tokenOf on c token db tx)
    (suits : Act.Suits tokenOf tx.db (.count chain.chainId m))
    (h : countConfirmed chain tx m = .ok tx') : Accrued chain tokenOf on c token db tx' := by
  have hcounted := countConfirmed_ok h
  obtain ⟨cs, hcs, -, htr⟩ := hcounted.trace
  have hacts : ∀ a ∈ cs.map (Act.count chain.chainId), a = .count chain.chainId m := by
    intro a ha
    obtain ⟨m', hm', rfl⟩ := List.mem_map.mp ha
    rw [List.mem_singleton.mp (hcs.mem hm')]
  -- what the count of a match adds, in the measures and in the notes
  have hgrown : ∀ {u : Watch} {d : Db}, Counts chain tx.db u m d →
      tx'.out.confirmed = tx.out.confirmed ++ [m] →
      (∀ s, tx'.db.measure on s = tx.db.measure on s + included (on u.id)
        (s.perCount m.amount.toNat +
          if u.threshold ≤ u.confirmedAmount + m.amount.toNat then s.perCompletion else 0)) →
      ∃ n, (∀ s, tx'.db.measure on s = db.measure on s + n s) ∧
        (tx'.noted chain c token).Holds n ∧ n .volume = tx'.counted on := by
    intro u d counts hconfirmed hmeasure
    obtain ⟨n, hn, holds, hvolume⟩ := inv.grown
    obtain ⟨transfers, -, post⟩ := counts.step
    have hon := inv.marks u.id u post.found
    have home : u.chainId = chain.chainId := by
      obtain ⟨v, hv, hchain, -⟩ := suits
      rw [counts.watch, post.found] at hv
      rw [Option.some.inj hv, hchain]
    refine ⟨_, fun s => ?_, noted_of_note home hon (countConfirmed_noted h counts) holds, ?_⟩
    · rw [hmeasure s, hn s, Nat.add_assoc]
    · rw [counted_append hconfirmed, counted_singleton counts.watch, ← hvolume]
      split <;> rfl
  -- the row that is confirmed belongs to a watch of the same token
  have hakin : ∀ {u : Watch} {d : Db}, Counts chain tx.db u m d →
      ∀ t, tx.db.transfers.get? (m.logId chain.chainId) = some t → on t.watchId = on u.id := by
    intro u d counts t ht
    obtain ⟨transfers, -, post⟩ := counts.step
    obtain ⟨v, hv, hvchain, hvtoken⟩ := suits
    rw [counts.watch, post.found] at hv
    obtain rfl := Option.some.inj hv
    obtain ⟨v', hv', hchain, htoken⟩ := inv.rooted _ t ht
    have hkey : t.key = m.logId chain.chainId := Table.key_of_get? ht
    have htchain : t.chainId = chain.chainId := congrArg LogId.chainId hkey
    rw [inv.marks _ v' hv', inv.marks _ u post.found, hchain, htoken, hvchain, hvtoken, htchain]
  refine ⟨?_, ?_, ?_⟩
  · exact htr.invariant_mem (Marks on c token) (fun d a d' ha hstep hd =>
      hd.step hstep fun u => by rw [hacts a ha]; exact Act.noConfusion) inv.marks
  · refine (htr.invariant_mem (fun d => Rooted tokenOf d ∧
      Act.Suits tokenOf d (.count chain.chainId m)) (fun d a d' ha hstep hd => ?_)
      ⟨inv.rooted, suits⟩).1
    have hsuits := hd.2
    rw [← hacts a ha] at hsuits
    exact ⟨hd.1.step hstep hsuits, Act.Suits.step hstep hd.2⟩
  · cases hcounted with
    | inactive _ => exact inv.grown
    | settled _ => exact inv.grown
    | below counts below confirmed _ =>
        refine hgrown counts confirmed fun s => ?_
        rw [counts.measure (hakin counts), if_neg (Nat.not_le_of_lt below), Nat.add_zero]
    | @reached _ d u counts reached post confirmed _ =>
        refine hgrown counts confirmed fun s => ?_
        have hcompleted : (u.credit m.amount.toNat).status ≠ .completed := by
          change u.status ≠ .completed
          rw [counts.active]
          decide
        rw [post.measure_complete hcompleted, counts.measure (hakin counts), if_pos reached,
          included_add, Nat.add_assoc, Watch.id_credit]

/-- **Resolving a leftover keeps the tally.** -/
theorem Accrued.resolve {canonical : List (B256 × Nat)} {t : Transfer} {ts : List Transfer}
    (inv : Accrued chain tokenOf on c token db tx)
    (hts : tx.db.transfers.Lists (Leftover chain.chainId) (t :: ts))
    (h : resolveLeftover chain canonical tx t = .ok tx') : Accrued chain tokenOf on c token db tx' := by
  obtain ⟨hstep, -, hconf, -⟩ := resolveLeftover_ok hts h
  have hnoted := resolveLeftover_noted h
  obtain ⟨n, hn, holds, hvolume⟩ := inv.grown
  have hcounted : tx'.counted on = tx.counted on := by rw [SweepTx.counted, hconf, SweepTx.counted]
  have hlabel := resolveAct_cases canonical t
  have hidle : tx'.stats = tx.stats → tx'.db.measure on = tx.db.measure on →
      ∃ n, (∀ s, tx'.db.measure on s = db.measure on s + n s) ∧
        (tx'.noted chain c token).Holds n ∧ n .volume = tx'.counted on := by
    intro hstats hmeasure
    refine ⟨n, fun s => by rw [hmeasure, hn s], ?_, by rw [hcounted, hvolume]⟩
    unfold SweepTx.noted SweepTx.delta
    rw [hstats]
    exact holds
  refine ⟨inv.marks.step hstep fun w => ?_, inv.rooted.step hstep ?_, ?_⟩
  · rcases hlabel with heq | heq <;> rw [heq] <;> exact Act.noConfusion
  · rcases hlabel with heq | heq <;> rw [heq] <;> trivial
  · unfold resolveAct at hstep
    by_cases hc : (t.blockHash, t.logIndex) ∈ canonical
    · rw [if_pos hc] at hstep hnoted
      exact hidle hnoted (funext fun s => hstep.measure_of_still trivial)
    · rw [if_neg hc] at hstep hnoted
      generalize hd : tx'.db = d at hstep hidle ⊢
      cases hstep with
      | orphanRetired found pending retired =>
          refine hidle ?_ (funext fun s => ?_)
          · rw [hnoted]
            cases hg : tx.db.watches.get? t.watchId with
            | none => rfl
            | some w => exact if_neg (retired w hg)
          · unfold Db.measure
            rw [Db.transfers_putTransfer, rowsOn_settle found pending (by decide)]
            rfl
      | @orphan _ chain' _ w found pending home amount watch active _ post =>
          have hstats : tx'.stats = bumpStats tx.stats w.tokenAddress StatsDelta.orphan := by
            rw [hnoted, watch, post.found]
            exact if_pos active
          have hhome : w.chainId = chain.chainId := by
            obtain ⟨v, hv, hvchain, -⟩ := inv.rooted _ t found
            rw [watch, post.found] at hv
            rw [Option.some.inj hv, hvchain]
            exact (hts.sat t List.mem_cons_self).1
          have hmeasure : ∀ s, d.measure on s = tx.db.measure on s + included (on w.id) s.perOrphan := by
            intro s
            have hpost := post.measure on s
            have htype : s.ofType .paymentOrphaned = s.perOrphan := by cases s <;> rfl
            rw [s.ofWatch_bump, included_add, htype, rowsOn_settle found pending (by decide)] at hpost
            omega
          have hon := inv.marks w.id w post.found
          refine ⟨fun s => n s + included (on w.id) s.perOrphan, fun s => ?_, ?_, ?_⟩
          · rw [hmeasure s, hn s, Nat.add_assoc]
          · rw [noted_of_bump tx tx' hhome hon hstats]
            cases on w.id with
            | false => exact holds
            | true => exact holds.orphan
          · rw [hcounted, ← hvolume]
            exact congrArg (n .volume + ·) (included_zero (on w.id))

/-- Steps that count and report nothing keep the tally. -/
theorem Accrued.still {acts : List Act} {d : Db} (inv : Accrued chain tokenOf on c token db tx)
    (htr : Trace Step tx.db acts d)
    (hacts : ∀ a ∈ acts, a.Still ∧ (∀ w, a ≠ .register w) ∧ ∀ d, a.Suits tokenOf d) :
    Accrued chain tokenOf on c token db { tx with db := d } where
  marks := htr.invariant_mem (Marks on c token)
    (fun _ a _ ha hstep hd => hd.step hstep (hacts a ha).2.1) inv.marks
  rooted := htr.invariant_mem (Rooted tokenOf)
    (fun d a _ ha hstep hd => hd.step hstep ((hacts a ha).2.2 d)) inv.rooted
  grown := by
    obtain ⟨n, hn, hrest⟩ := inv.grown
    refine ⟨n, fun s => ?_, hrest⟩
    rw [← hn s]
    exact htr.invariant_mem (fun d => d.measure on s = tx.db.measure on s)
      (fun _ a _ ha hstep hd => (hstep.measure_of_still (hacts a ha).1).trans hd) rfl

/-- The loop over the matches accrues what it changes. -/
theorem countAll_accrued {ms : List MatchedTransfer} (inv : Accrued chain tokenOf on c token db tx)
    (suits : ∀ m ∈ ms, Act.Suits tokenOf tx.db (.count chain.chainId m))
    (h : ms.foldlM (countConfirmed chain) tx = .ok tx') : Accrued chain tokenOf on c token db tx' := by
  refine (foldlM_ok (fun rest (tx : SweepTx) => Accrued chain tokenOf on c token db tx ∧
    ∀ m ∈ rest, Act.Suits tokenOf tx.db (.count chain.chainId m)) (fun m rest s s' hs hok => ?_)
    ⟨inv, suits⟩ h).1
  refine ⟨hs.1.count (hs.2 m List.mem_cons_self) hok, fun m' hm' => ?_⟩
  obtain ⟨cs, -, -, htr⟩ := (countConfirmed_ok hok).trace
  exact htr.invariant (fun d => Act.Suits tokenOf d (.count chain.chainId m'))
    (fun _ _ _ hstep hd => Act.Suits.step hstep hd) (hs.2 m' (List.mem_cons_of_mem m hm'))

/-- A transaction that has done nothing yet. -/
theorem accrued_start (marks : Marks on c token db) (rooted : Rooted tokenOf db)
    (discovered : List WatchKey) :
    Accrued chain tokenOf on c token db { db, out := { discovered } } := by
  refine ⟨marks, rooted, fun _ => 0, fun s => rfl, ?_, rfl⟩
  unfold SweepTx.noted
  split <;> exact .zero

/-- So does the loop over the leftovers. -/
theorem resolveAll_accrued {canonical : List (B256 × Nat)} {ts : List Transfer}
    (inv : Accrued chain tokenOf on c token db tx)
    (hts : tx.db.transfers.Lists (Leftover chain.chainId) ts)
    (h : ts.foldlM (resolveLeftover chain canonical) tx = .ok tx') :
    Accrued chain tokenOf on c token db tx' :=
  (foldlM_ok (fun rest (tx : SweepTx) => Accrued chain tokenOf on c token db tx ∧
    tx.db.transfers.Lists (Leftover chain.chainId) rest) (fun _ _ _ _ hs hok =>
      ⟨hs.1.resolve hs.2 hok, (resolveLeftover_ok hs.2 hok).2.1⟩) ⟨inv, hts⟩ h).1

/-- **The deltas of a sweep are what it changed.** -/
theorem sweepTx_accrued {cache : WatchCache} {discovered : List WatchKey} {toBlock : Nat}
    {logs : List Log} (marks : Marks on c token db) (rooted : Rooted tokenOf db)
    (suits : ∀ m ∈ sweepMatches chain cache logs, Act.Suits tokenOf db (.count chain.chainId m))
    (h : sweepTx db chain cache discovered toBlock logs = .ok tx) :
    Accrued chain tokenOf on c token db tx := by
  obtain ⟨mid, hcount, hresolve⟩ := sweepTx_phases h
  exact resolveAll_accrued (countAll_accrued (accrued_start marks rooted discovered) suits hcount)
    (lists_leftovers _ _ _) hresolve

/-- The same for a backfill. -/
theorem backfillTx_accrued {batch : List PendingBackfill} {logs : List Log}
    (marks : Marks on c token db) (rooted : Rooted tokenOf db)
    (suits : ∀ m ∈ backfillMatches chain batch logs, Act.Suits tokenOf db (.count chain.chainId m))
    (h : backfillTx db chain batch logs = .ok tx) : Accrued chain tokenOf on c token db tx := by
  unfold backfillTx at h
  cases hc : (backfillMatches chain batch logs).foldlM (countConfirmed chain) { db } with
  | error e => rw [hc] at h; cases h
  | ok mid =>
      rw [hc] at h
      cases h
      obtain ⟨ws, htr⟩ := clearBackfills_trace mid.db (batch.map PendingBackfill.id)
      refine (countAll_accrued (accrued_start marks rooted []) suits hc).still htr fun a ha => ?_
      obtain ⟨w, -, rfl⟩ := List.mem_map.mp ha
      exact ⟨trivial, fun _ => Act.noConfusion, fun _ => trivial⟩

end Accrued

end GumIndexer
