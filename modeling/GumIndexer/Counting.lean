import GumIndexer.Lifecycle

/-!
# GumIndexer.Counting

The counting loop, watch by watch.

Sweeps and backfills run their matches through `count_confirmed` one after the
other.  The matches of different watches do not interfere, and those of one
watch fill its threshold: of the matches whose row is missing or pending,
taken in order, the loop counts as many as it takes to reach the threshold
(`countAll_took`).  The loop fails if and only if some watch's total would not
be a `uint256` any more (`countAll_ok_iff`).
-/

namespace GumIndexer

open Base

/-- The value of a match in base units. -/
def MatchedTransfer.units (m : MatchedTransfer) : Nat := m.amount.toNat

instance (db : Db) (log : LogId) : Decidable (db.Countable log) :=
  inferInstanceAs (Decidable (∀ t ∈ db.transfers.get? log, t.status = .pending))

/-- The matches of a watch whose row is missing or pending. -/
def Db.share (db : Db) (chainId : Nat) (id : Uuid) (ms : List MatchedTransfer) :
    List MatchedTransfer :=
  ms.filter fun m => m.watch.id = id ∧ db.Countable (m.logId chainId)

/-- The matches that fill the threshold of an active watch. -/
def Watch.take (w : Watch) (ms : List MatchedTransfer) : List MatchedTransfer :=
  if w.status = .active then fill MatchedTransfer.units w.threshold w.confirmedAmount ms else []

/-- The watch after `ms` were counted toward it. -/
structure Watch.Took (w w' : Watch) (ms : List MatchedTransfer) : Prop where
  same : w.Same w'
  amount : w'.confirmedAmount = w.confirmedAmount + total MatchedTransfer.units ms
  status : w'.status =
    if w.status = .active ∧ w.threshold ≤ w'.confirmedAmount then .completed else w.status
  backfillTo : w'.backfillTo = w.backfillTo

namespace Watch

variable {w w' w'' : Watch} {m : MatchedTransfer} {ms ms' : List MatchedTransfer}

theorem take_of_inactive (h : w.status ≠ .active) : w.take ms = [] := if_neg h

theorem take_of_active (h : w.status = .active) :
    w.take ms = fill MatchedTransfer.units w.threshold w.confirmedAmount ms := if_pos h

/-- A watch takes nothing from nothing. -/
theorem Took.refl (hshort : w.status = .active → w.confirmedAmount < w.threshold) : w.Took w [] where
  same := .refl w
  amount := rfl
  status := by
    rw [if_neg]
    rintro ⟨ha, hle⟩
    have hlt := hshort ha
    omega
  backfillTo := rfl

/-- What it takes in two parts it takes in one. -/
theorem Took.trans (h : w.Took w' ms) (h' : w'.Took w'' ms') : w.Took w'' (ms ++ ms') where
  same := h.same.trans h'.same
  amount := by rw [h'.amount, h.amount, total_append, Nat.add_assoc]
  status := by
    have hle : w'.confirmedAmount ≤ w''.confirmedAmount := by rw [h'.amount]; omega
    have hthreshold : w'.threshold = w.threshold := h.same.threshold
    rw [h'.status, h.status, hthreshold]
    by_cases ha : w.status = .active
    · by_cases hr : w.threshold ≤ w'.confirmedAmount
      · have hr' : w.threshold ≤ w''.confirmedAmount := by omega
        simp [ha, hr, hr']
      · simp [ha, hr]
    · simp [ha]
  backfillTo := h'.backfillTo.trans h.backfillTo

/-- What the first of two lists fills is a part of what both do. -/
theorem take_isPrefix (w : Watch) (ms ms' : List MatchedTransfer) : w.take ms <+: w.take (ms ++ ms') := by
  unfold take
  split
  · rw [fill_append]
    exact List.prefix_append _ _
  · exact List.prefix_refl _

/-- **Two lists, one after the other**: the watch that took the first goes on
with the second. -/
theorem take_append (h : w.Took w' (w.take ms)) : w.take (ms ++ ms') = w.take ms ++ w'.take ms' := by
  have hstatus := h.status
  have hthreshold : w'.threshold = w.threshold := h.same.threshold
  by_cases ha : w.status = .active
  · have hamount := h.amount
    rw [take_of_active ha] at hamount
    rw [take_of_active ha, take_of_active ha, fill_append, ← hamount]
    by_cases hr : w.threshold ≤ w'.confirmedAmount
    · rw [if_pos ⟨ha, hr⟩] at hstatus
      rw [fill_of_le hr, take_of_inactive (by rw [hstatus]; decide)]
    · rw [if_neg fun h => hr h.2] at hstatus
      rw [take_of_active (hstatus.trans ha), hthreshold]
  · rw [if_neg fun h => ha h.1] at hstatus
    rw [take_of_inactive ha, take_of_inactive ha, take_of_inactive (by rw [hstatus]; exact ha)]
    rfl

/-- What was taken determines the total and the status. -/
theorem Took.unique (h : w.Took w' ms) (h' : w.Took w'' ms) :
    w''.confirmedAmount = w'.confirmedAmount ∧ w''.status = w'.status := by
  have hamount : w''.confirmedAmount = w'.confirmedAmount := by rw [h'.amount, h.amount]
  exact ⟨hamount, by rw [h'.status, h.status, hamount]⟩

/-- Counting a match that leaves the threshold open. -/
theorem take_cons_of_lt (active : w.status = .active)
    (below : w.confirmedAmount + m.units < w.threshold) :
    w.take (m :: ms) = m :: (w.credit m.units).take ms := by
  have hcredit : (w.credit m.units).status = .active := active
  rw [take_of_active active, take_of_active hcredit, fill_cons, if_neg (by omega)]
  rfl

/-- Short of the threshold the transfer is counted. -/
theorem took_credit (below : w.confirmedAmount + m.units < w.threshold) :
    w.Took (w.credit m.units) [m] where
  same := ⟨rfl, rfl, rfl, rfl, rfl, rfl, rfl, rfl, rfl⟩
  amount := rfl
  status := by
    have hlt : (w.credit m.units).confirmedAmount < w.threshold := below
    rw [if_neg (by omega)]
    rfl
  backfillTo := rfl

/-- Counting the match that reaches the threshold. -/
theorem take_cons_of_le {now : Nat} (active : w.status = .active)
    (short : w.confirmedAmount < w.threshold)
    (reached : w.threshold ≤ w.confirmedAmount + m.units) :
    w.take (m :: ms) = m :: ((w.credit m.units).retire .completed now).take ms := by
  have hretired : ((w.credit m.units).retire .completed now).status ≠ .active := by
    change WatchStatus.completed ≠ .active
    decide
  rw [take_of_active active, take_of_inactive hretired, fill_cons, if_neg (by omega),
    fill_of_le reached]

/-- The transfer that reaches the threshold completes the watch. -/
theorem took_complete {now : Nat} (active : w.status = .active)
    (reached : w.threshold ≤ w.confirmedAmount + m.units) :
    w.Took ((w.credit m.units).retire .completed now) [m] where
  same := ⟨rfl, rfl, rfl, rfl, rfl, rfl, rfl, rfl, rfl⟩
  amount := rfl
  status := (if_pos ⟨active, reached⟩).symm
  backfillTo := rfl

end Watch

/-! ## One match -/

variable {db db' : Db} {chain : ChainSpec}

/-- The share depends on the rows of the logs in the list only. -/
theorem share_congr {ms : List MatchedTransfer} {chainId : Nat} {id : Uuid}
    (h : ∀ m ∈ ms, db'.transfers.get? (m.logId chainId) = db.transfers.get? (m.logId chainId)) :
    db'.share chainId id ms = db.share chainId id ms := by
  refine List.filter_congr fun m hm => decide_eq_decide.mpr (and_congr_right fun _ => ?_)
  rw [Db.Countable, h m hm]
  rfl

/-- Counting a match does not affect the rows of others. -/
theorem Counts.share {u : Watch} {m : MatchedTransfer} {ms : List MatchedTransfer}
    (h : Counts chain db u m db') (hnew : m.logId chain.chainId ∉ ms.map (·.logId chain.chainId))
    (id : Uuid) : db'.share chain.chainId id ms = db.share chain.chainId id ms := by
  obtain ⟨transfers, hc, post⟩ := h.step
  refine share_congr fun m' hm' => ?_
  rw [post.transfers]
  refine hc.get?_of_ne fun heq => hnew ?_
  change m'.logId chain.chainId = m.logId chain.chainId at heq
  exact heq ▸ List.mem_map_of_mem hm'

/-- What one turn of the loop does for a watch, with the matches `ms` still to
come. -/
structure Turn (chain : ChainSpec) (tx tx' : SweepTx) (m : MatchedTransfer)
    (ms : List MatchedTransfer) (w w' : Watch) (got : List MatchedTransfer) : Prop where
  found : tx'.db.watches.get? w.id = some w'
  took : w.Took w' got
  confirmed : tx'.out.confirmed.filter (fun m => m.watch.id = w.id) =
    tx.out.confirmed.filter (fun m => m.watch.id = w.id) ++ got
  take : w.take (tx.db.share chain.chainId w.id (m :: ms)) =
    got ++ w'.take (tx'.db.share chain.chainId w.id ms)

/-- A match that is not counted. -/
theorem Turn.idle {tx : SweepTx} {m : MatchedTransfer} {ms : List MatchedTransfer} {w : Watch}
    (inv : Sound tx.db) (hw : tx.db.watches.get? w.id = some w)
    (h : w.status = .active → m.watch.id = w.id → ¬ tx.db.Countable (m.logId chain.chainId)) :
    Turn chain tx tx m ms w w [] where
  found := hw
  took := .refl (inv.short w.id w hw)
  confirmed := (List.append_nil _).symm
  take := by
    rw [List.nil_append]
    by_cases ha : w.status = .active
    · rw [Db.share, List.filter_cons_of_neg]
      · rfl
      · simpa using h ha
    · rw [Watch.take_of_inactive ha, Watch.take_of_inactive ha]

/-- A match that is counted, toward this watch or another. -/
theorem Turn.counted {tx tx' : SweepTx} {m : MatchedTransfer} {ms : List MatchedTransfer}
    {u u' w : Watch} {db' : Db} (inv : Sound tx.db) (hw : tx.db.watches.get? w.id = some w)
    (hnew : m.logId chain.chainId ∉ ms.map (·.logId chain.chainId))
    (counts : Counts chain tx.db u m db') (transfers : tx'.db.transfers = db'.transfers)
    (watches : tx'.db.watches = tx.db.watches.replace u') (took : u.Took u' [m])
    (take : ∀ rest, u.take (m :: rest) = m :: u'.take rest)
    (confirmed : tx'.out.confirmed = tx.out.confirmed ++ [m]) :
    ∃ w' got, Turn chain tx tx' m ms w w' got := by
  have hfound : tx.db.watches.get? u.id = some u := by
    obtain ⟨_, -, post⟩ := counts.step
    exact post.found
  have hshare : tx'.db.share chain.chainId w.id ms = tx.db.share chain.chainId w.id ms := by
    rw [← counts.share hnew w.id]
    exact share_congr fun m _ => by rw [transfers]
  by_cases hid : w.id = u.id
  · obtain rfl : w = u := by
      rw [hid, hfound] at hw
      exact (Option.some.inj hw).symm
    refine ⟨u', [m], ?_, took, ?_, ?_⟩
    · rw [watches, ← took.same.id]
      exact Table.get?_replace_self (b := w) (by rw [took.same.id]; exact hfound)
    · rw [confirmed, List.filter_append]
      simp [counts.watch]
    · rw [hshare, Db.share, List.filter_cons_of_pos, take]
      · rfl
      · simpa using ⟨counts.watch, counts.countable⟩
  · refine ⟨w, [], ?_, .refl (inv.short w.id w hw), ?_, ?_⟩
    · rw [watches, Table.get?_replace_of_ne, hw]
      rw [took.same.id]
      exact Ne.symm hid
    · have hne : ¬ u.id = w.id := Ne.symm hid
      rw [confirmed, List.filter_append]
      simp [counts.watch, hne]
    · rw [hshare, Db.share, List.filter_cons_of_neg]
      · rfl
      · simp [counts.watch, Ne.symm hid]

/-- **One turn of the loop**, seen from one watch. -/
theorem Counted.turn {tx tx' : SweepTx} {m : MatchedTransfer} {ms : List MatchedTransfer} {w : Watch}
    (h : Counted chain tx m tx') (inv : Sound tx.db) (hw : tx.db.watches.get? w.id = some w)
    (hnew : m.logId chain.chainId ∉ ms.map (·.logId chain.chainId)) :
    ∃ w' got, Turn chain tx tx' m ms w w' got := by
  cases h with
  | inactive hin =>
      refine ⟨w, [], .idle inv hw fun ha hid => ?_⟩
      rw [hid] at hin
      exact absurd ha (hin w hw)
  | settled hsettled => exact ⟨w, [], .idle inv hw fun _ _ => hsettled⟩
  | below counts below confirmed _ =>
      obtain ⟨_, -, post⟩ := id counts.step
      exact Turn.counted inv hw hnew counts rfl post.watches (Watch.took_credit below)
        (fun _ => Watch.take_cons_of_lt counts.active below) confirmed
  | reached counts reached post confirmed _ =>
      obtain ⟨_, -, post₁⟩ := id counts.step
      have hwatches := post.watches
      rw [post₁.watches] at hwatches
      exact Turn.counted inv hw hnew counts post.transfers (hwatches.trans (Table.replace_replace rfl))
        (Watch.took_complete counts.active reached) (fun _ => Watch.take_cons_of_le counts.active
          (inv.short _ _ post₁.found counts.active) reached) confirmed

/-! ## The whole loop -/

/-- A turn keeps the database sound. -/
theorem Counted.sound {tx tx' : SweepTx} {m : MatchedTransfer} (h : Counted chain tx m tx')
    (inv : Sound tx.db) : Sound tx'.db := by
  obtain ⟨cs, -, -, htr⟩ := h.trace
  exact htr.invariant Sound (fun _ _ _ => Sound.step) inv

/-- And it keeps the event logs. -/
theorem Counted.eventLogs {tx tx' : SweepTx} {m : MatchedTransfer} (h : Counted chain tx m tx')
    (inv : EventLogs tx.db) : EventLogs tx'.db := by
  obtain ⟨cs, -, -, htr⟩ := h.trace
  exact htr.invariant EventLogs (fun _ _ _ => EventLogs.step) inv

/-- The turns of the loop, seen from one watch: `got` is what it got. -/
inductive Turns (chain : ChainSpec) (tx' : SweepTx) (w' : Watch) :
    SweepTx → List MatchedTransfer → Watch → List MatchedTransfer → Prop
  | nil (inv : Sound tx'.db) (found : tx'.db.watches.get? w'.id = some w') :
      Turns chain tx' w' tx' [] w' []
  | cons {tx tx₁ : SweepTx} {m : MatchedTransfer} {ms : List MatchedTransfer} {w w₁ : Watch}
      {got got' : List MatchedTransfer} (counted : Counted chain tx m tx₁)
      (found : tx.db.watches.get? w.id = some w) (turn : Turn chain tx tx₁ m ms w w₁ got)
      (rest : Turns chain tx' w' tx₁ ms w₁ got') : Turns chain tx' w' tx (m :: ms) w (got ++ got')

/-- The loop is made of turns, for every watch there is. -/
theorem countAll_turns {tx tx' : SweepTx} {ms : List MatchedTransfer} {w : Watch}
    (inv : Sound tx.db) (distinct : (ms.map (·.logId chain.chainId)).Nodup)
    (h : ms.foldlM (countConfirmed chain) tx = .ok tx') (hw : tx.db.watches.get? w.id = some w) :
    ∃ w' got, Turns chain tx' w' tx ms w got := by
  induction ms generalizing tx w with
  | nil =>
      obtain rfl : tx = tx' := Except.ok.inj h
      exact ⟨w, [], .nil inv hw⟩
  | cons m ms ih =>
      rw [List.foldlM_cons] at h
      rw [List.map_cons, List.nodup_cons] at distinct
      cases hm : countConfirmed chain tx m with
      | error e => rw [hm] at h; cases h
      | ok tx₁ =>
          rw [hm] at h
          have hcounted := countConfirmed_ok hm
          obtain ⟨w₁, got, turn⟩ := hcounted.turn inv hw distinct.1
          have hw₁ : tx₁.db.watches.get? w₁.id = some w₁ := by
            rw [turn.took.same.id]
            exact turn.found
          obtain ⟨w', got', rest⟩ := ih (hcounted.sound inv) distinct.2 h hw₁
          exact ⟨w', got ++ got', .cons hcounted hw turn rest⟩

section Turns

variable {tx tx' : SweepTx} {ms got : List MatchedTransfer} {w w' : Watch}

/-- Over the loop the watch takes what its turns take. -/
theorem Turns.took (h : Turns chain tx' w' tx ms w got) : w.Took w' got := by
  induction h with
  | nil inv found => exact .refl (inv.short _ _ found)
  | cons _ _ turn _ ih => exact turn.took.trans ih

/-- And it is found in the end. -/
theorem Turns.found (h : Turns chain tx' w' tx ms w got) : tx'.db.watches.get? w.id = some w' := by
  induction h with
  | nil _ found => exact found
  | cons _ _ turn _ ih => rw [← turn.took.same.id]; exact ih

/-- The outcome lists for the watch what it took. -/
theorem Turns.confirmed (h : Turns chain tx' w' tx ms w got) :
    tx'.out.confirmed.filter (fun m => m.watch.id = w.id) =
      tx.out.confirmed.filter (fun m => m.watch.id = w.id) ++ got := by
  induction h with
  | nil _ _ => exact (List.append_nil _).symm
  | cons _ _ turn _ ih =>
      rw [turn.took.same.id] at ih
      rw [ih, turn.confirmed, List.append_assoc]

/-- **What is taken** is what the watch takes of its share. -/
theorem Turns.take (h : Turns chain tx' w' tx ms w got) :
    w.take (tx.db.share chain.chainId w.id ms) = got := by
  induction h with
  | nil _ _ =>
      unfold Watch.take
      split <;> rfl
  | cons _ _ turn _ ih =>
      rw [turn.take, ← turn.took.same.id, ih]

end Turns

/-- **The counting loop fills the threshold of every watch**: with the matches
of the watch whose row is missing or pending, in order. -/
theorem countAll_took {tx tx' : SweepTx} {ms : List MatchedTransfer} {w : Watch}
    (inv : Sound tx.db) (distinct : (ms.map (·.logId chain.chainId)).Nodup)
    (h : ms.foldlM (countConfirmed chain) tx = .ok tx') (hw : tx.db.watches.get? w.id = some w) :
    ∃ w', tx'.db.watches.get? w.id = some w' ∧
      w.Took w' (w.take (tx.db.share chain.chainId w.id ms)) ∧
      tx'.out.confirmed.filter (fun m => m.watch.id = w.id) =
        tx.out.confirmed.filter (fun m => m.watch.id = w.id) ++
          w.take (tx.db.share chain.chainId w.id ms) := by
  obtain ⟨w', got, turns⟩ := countAll_turns inv distinct h hw
  rw [turns.take]
  exact ⟨w', turns.found, turns.took, turns.confirmed⟩

/-- Only a registration adds a watch. -/
theorem Trace.no_new_watch {acts : List Act} {id : Uuid} (h : Trace Step db acts db')
    (hacts : ∀ a ∈ acts, ∀ w, a ≠ .register w) (hnone : db.watches.get? id = none) :
    db'.watches.get? id = none := by
  refine h.invariant_mem (fun d => d.watches.get? id = none) (fun d a d' ha hstep hd => ?_) hnone
  cases hg : d'.watches.get? id with
  | none => rfl
  | some u => exact absurd (hstep.new_watch hd hg) (hacts a ha u)

/-- Counting registers no watch. -/
theorem Counted.watch_before {tx tx' : SweepTx} {m : MatchedTransfer} {id : Uuid} {w' : Watch}
    (h : Counted chain tx m tx') (hw' : tx'.db.watches.get? id = some w') :
    ∃ w, tx.db.watches.get? id = some w := by
  cases hw : tx.db.watches.get? id with
  | some w => exact ⟨w, rfl⟩
  | none =>
      obtain ⟨cs, -, -, htr⟩ := h.trace
      have hnone : tx'.db.watches.get? id = none := by
        refine Trace.no_new_watch htr (fun a ha w => ?_) hw
        obtain ⟨c, -, rfl⟩ := List.mem_map.mp ha
        exact Act.noConfusion
      rw [hnone] at hw'
      contradiction

/-- The total of the watch after the loop, if it succeeds. -/
def SweepTx.reaches (tx : SweepTx) (chainId : Nat) (w : Watch) (ms : List MatchedTransfer) : Nat :=
  w.confirmedAmount + total MatchedTransfer.units (w.take (tx.db.share chainId w.id ms))

/-- Where the watch will end is the same before and after a turn. -/
theorem Turn.reaches {tx tx' : SweepTx} {m : MatchedTransfer} {ms : List MatchedTransfer}
    {w w' : Watch} {got : List MatchedTransfer} (turn : Turn chain tx tx' m ms w w' got) :
    tx.reaches chain.chainId w (m :: ms) = tx'.reaches chain.chainId w' ms := by
  rw [SweepTx.reaches, SweepTx.reaches, turn.take, total_append, turn.took.amount, turn.took.same.id,
    Nat.add_assoc]

/-- A turn fails only if it would overflow the total of its watch. -/
theorem reaches_of_error {tx : SweepTx} {m : MatchedTransfer} {e : StoreError}
    (ms : List MatchedTransfer) (inv : Sound tx.db) (logs : EventLogs tx.db)
    (h : countConfirmed chain tx m = .error e) :
    ∃ w, tx.db.watches.get? w.id = some w ∧ 2 ^ 256 ≤ tx.reaches chain.chainId w (m :: ms) := by
  rcases countConfirmed_cases chain tx m with ⟨tx', -, ho⟩ |
    ⟨w, hid, hw, ha, ⟨hcorrupt, -⟩ | ⟨htaken, -⟩⟩
  · rw [ho] at h
    contradiction
  · refine ⟨w, hw, ?_⟩
    rcases hcorrupt with hfits | ⟨hcountable, hover⟩
    · exact absurd (inv.fits w.id w hw) hfits
    · have hfits := (inv.fits w.id w hw).1
      have hshort := inv.short w.id w hw ha
      have hsum : 2 ^ 256 ≤ w.confirmedAmount + m.units := by
        by_contra hlt
        exact hover ⟨hfits, Nat.lt_of_not_le hlt⟩
      have hshare : tx.db.share chain.chainId w.id (m :: ms) =
          m :: tx.db.share chain.chainId w.id ms :=
        List.filter_cons_of_pos (by simpa using ⟨hid, hcountable⟩)
      rw [SweepTx.reaches, hshare, Watch.take_of_active ha, fill_cons, if_neg (by omega), total_cons]
      omega
  · exact absurd htaken (logs.log w.id w hw).seq_free

/-- **The counting loop succeeds if and only if every total stays a
`uint256`.** -/
theorem countAll_ok_iff {tx : SweepTx} {ms : List MatchedTransfer} (inv : Sound tx.db)
    (logs : EventLogs tx.db) (distinct : (ms.map (·.logId chain.chainId)).Nodup) :
    (∃ tx', ms.foldlM (countConfirmed chain) tx = .ok tx') ↔
      ∀ w, tx.db.watches.get? w.id = some w → tx.reaches chain.chainId w ms < 2 ^ 256 := by
  induction ms generalizing tx with
  | nil =>
      refine ⟨fun _ w hw => ?_, fun _ => ⟨tx, rfl⟩⟩
      have hfits := (inv.fits w.id w hw).2
      have hnil : w.take (tx.db.share chain.chainId w.id []) = [] := by
        unfold Watch.take
        split <;> rfl
      rw [SweepTx.reaches, hnil]
      exact hfits
  | cons m ms ih =>
      rw [List.map_cons, List.nodup_cons] at distinct
      rw [List.foldlM_cons]
      cases hm : countConfirmed chain tx m with
      | error e =>
          constructor
          · rintro ⟨tx', h⟩
            contradiction
          · intro hall
            obtain ⟨w, hw, hle⟩ := reaches_of_error ms inv logs hm
            have hlt := hall w hw
            omega
      | ok tx₁ =>
          have hcounted := countConfirmed_ok hm
          refine (ih (hcounted.sound inv) (hcounted.eventLogs logs) distinct.2).trans ?_
          -- the watches before and after the turn reach the same totals
          constructor
          · intro hall w hw
            obtain ⟨w₁, got, turn⟩ := hcounted.turn inv hw distinct.1
            rw [turn.reaches]
            exact hall w₁ (by rw [turn.took.same.id]; exact turn.found)
          · intro hall w₁ hw₁
            obtain ⟨w, hw⟩ := hcounted.watch_before hw₁
            have hid : w.id = w₁.id := Table.key_of_get? hw
            rw [← hid] at hw
            obtain ⟨w₂, got, turn⟩ := hcounted.turn inv hw distinct.1
            obtain rfl : w₁ = w₂ := by
              have hfound := turn.found
              rw [hid, hw₁] at hfound
              exact Option.some.inj hfound
            rw [← turn.reaches]
            exact hall w hw

end GumIndexer
