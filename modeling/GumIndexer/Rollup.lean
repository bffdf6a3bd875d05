import GumIndexer.Base.Groups
import GumIndexer.Counting

/-!
# GumIndexer.Rollup

What a transaction writes to `stats_rollup`, and when it can.

A counting transaction accumulates a `StatsDelta` for each token and writes
them once, at its end.  The volume of a delta is a `uint256` and wraps around;
the volume on record is a `NUMERIC(78, 0)`, and the write that would carry it to
`10 ^ 78` fails and rolls the transaction back.  So a counting transaction
commits if its loops succeed and the volumes fit (`flush_ok_iff`), both of which
are conditions on the state before it.
-/

namespace GumIndexer

open Base

variable {db db' : Db} {chain : ChainSpec} {a : Act} {op : Op}

/-! ## What a transaction notes -/

/-- What a transaction accumulated for a token. -/
def SweepTx.delta (tx : SweepTx) (token : Address) : StatsDelta :=
  ((tx.stats.get? token).map Prod.snd).getD {}

/-- The delta of a counted transfer. -/
def StatsDelta.credit (d : StatsDelta) (amount : U256) : StatsDelta :=
  { d with confirmed := d.confirmed + 1, volume := d.volume + amount }

def StatsDelta.complete (d : StatsDelta) : StatsDelta := { d with thresholds := d.thresholds + 1 }

def StatsDelta.orphan (d : StatsDelta) : StatsDelta := { d with orphaned := d.orphaned + 1 }

/-- A bump changes the delta of its token only. -/
theorem delta_of_bump {tx tx' : SweepTx} {token : Address} {bump : StatsDelta → StatsDelta}
    (h : tx'.stats = bumpStats tx.stats token bump) (token' : Address) :
    tx'.delta token' = if token = token' then bump (tx.delta token') else tx.delta token' := by
  unfold SweepTx.delta
  rw [h, bumpStats, Table.get?_upsert]
  by_cases ht : token = token'
  · subst ht
    simp
  · simp [ht]

/-- An update of a watch that is there returns the updated row. -/
theorem updateWatch_ok {id : Uuid} {set : Watch → Watch} {watch : WatchRow} {w : Watch}
    (h : updateWatch db id set = .ok (watch, db')) (hw : db.watches.get? id = some w) :
    watch = .ofWatch (set w) ∧ db' = db.putWatch (set w) := by
  unfold updateWatch at h
  simp only [hw] at h
  rcases WatchRow.fromRow_cases (set w) with ⟨-, hr⟩ | ⟨-, v, hr⟩
  · rw [hr] at h
    cases h
    exact ⟨rfl, rfl⟩
  · rw [hr] at h
    contradiction

section Noted

variable {tx tx' : SweepTx} {m : MatchedTransfer} {w : Watch}

/-- A credit is noted for the token of the watch. -/
theorem creditWatch_noted {inserted : Bool} {watch : WatchRow}
    (h : creditWatch chain tx m w.id inserted = .ok (watch, tx'))
    (hw : tx.db.watches.get? w.id = some w) :
    watch = .ofWatch (w.add m.amount.toNat) ∧
      tx'.stats = bumpStats tx.stats w.tokenAddress (·.credit m.amount) ∧
      tx'.db.watches.get? w.id = some (w.add m.amount.toNat) := by
  unfold creditWatch at h
  cases hu : updateWatch tx.db w.id fun w => w.add m.amount.toNat with
  | error e => rw [hu] at h; contradiction
  | ok r =>
      obtain ⟨watch', db₁⟩ := r
      obtain ⟨rfl, rfl⟩ := updateWatch_ok hu hw
      simp only [hu, bind, Except.bind] at h
      rcases insertEvent_cases (tx.db.putWatch (w.add m.amount.toNat)) chain
        (.ofWatch (w.add m.amount.toNat)) .paymentConfirmed (some (transferView m .confirmed)) with
        ⟨outbox, -, he⟩ | ⟨-, he⟩
      · rw [he] at h
        cases h
        exact ⟨rfl, rfl, Table.get?_replace_self (a := w.add m.amount.toNat) hw⟩
      · rw [he] at h
        contradiction

/-- So is a completion. -/
theorem completeWatch_noted (h : completeWatch chain tx m w.id = .ok tx')
    (hw : tx.db.watches.get? w.id = some w) :
    tx'.stats = bumpStats tx.stats w.tokenAddress StatsDelta.complete := by
  unfold completeWatch at h
  cases hu : updateWatch tx.db w.id fun w => w.bump.withStatus .completed tx.db.now with
  | error e => rw [hu] at h; contradiction
  | ok r =>
      obtain ⟨watch', db₁⟩ := r
      obtain ⟨rfl, rfl⟩ := updateWatch_ok hu hw
      simp only [hu, bind, Except.bind] at h
      rcases insertEvent_cases (tx.db.putWatch (w.bump.withStatus .completed tx.db.now)) chain
        (.ofWatch (w.bump.withStatus .completed tx.db.now)) .thresholdReached none with
        ⟨outbox, -, he⟩ | ⟨-, he⟩
      · rw [he] at h
        cases h
        rfl
      · rw [he] at h
        contradiction

/-- The statistics with a transfer counted toward the watch. -/
def Watch.note (w : Watch) (m : MatchedTransfer) (stats : Table (Address × StatsDelta) Prod.fst) :
    Table (Address × StatsDelta) Prod.fst :=
  let credited := bumpStats stats w.tokenAddress (·.credit m.amount)
  if w.threshold ≤ w.confirmedAmount + m.amount.toNat then
    bumpStats credited w.tokenAddress StatsDelta.complete
  else credited

/-- A counted transfer is noted under the token of its watch. -/
theorem countConfirmed_noted {db₁ : Db} (h : countConfirmed chain tx m = .ok tx')
    (counts : Counts chain tx.db w m db₁) : tx'.stats = w.note m tx.stats := by
  obtain ⟨transfers, -, post⟩ := counts.step
  have hfits := post.fits
  rcases lockActiveWatch_cases tx.db m.watch.id with
    ⟨hin, -⟩ | ⟨u, hid, hg, -, -, hl⟩ | ⟨u, v, hid, hg, -, hf, -⟩
  · rw [counts.watch] at hin
    exact absurd counts.active (hin w post.found)
  · obtain rfl : w = u := by
      have hfound := post.found
      rw [← counts.watch, hid, hg] at hfound
      exact (Option.some.inj hfound).symm
    rcases upsertConfirmed_cases (tx.db.putWatch w.bump) (m.row chain.chainId w.id .confirmed) with
      ⟨inserted, transfers, -, hu⟩ | ⟨t, ht, hp, -⟩
    · rw [countConfirmed_of_some hl hu] at h
      cases hcr : creditWatch chain { tx with db := (tx.db.putWatch w.bump).withTransfers transfers } m
          w.id inserted with
      | error e => rw [hcr] at h; contradiction
      | ok r =>
          obtain ⟨watch, tx₁⟩ := r
          have hbumped : ((tx.db.putWatch w.bump).withTransfers transfers).watches.get? w.bump.id =
              some w.bump := Table.get?_replace_self (a := w.bump) hg
          obtain ⟨rfl, hstats, hrow⟩ := creditWatch_noted (w := w.bump) hcr hbumped
          simp only [hcr, bind, Except.bind] at h
          change finishCredit chain m (.ofWatch (w.credit m.amount.toNat)) tx₁ = .ok tx' at h
          unfold Watch.note
          by_cases hr : w.threshold ≤ w.confirmedAmount + m.amount.toNat
          · rw [if_pos hr]
            rw [finishCredit_reached hfits hr] at h
            cases hco : completeWatch chain tx₁ m (w.credit m.amount.toNat).id with
            | error e => rw [hco] at h; contradiction
            | ok tx₂ =>
                rw [hco] at h
                cases h
                have hnoted := completeWatch_noted (w := w.credit m.amount.toNat) hco hrow
                rw [hstats] at hnoted
                exact hnoted
          · rw [if_neg hr]
            rw [finishCredit_below hfits (Nat.lt_of_not_le hr)] at h
            cases h
            exact hstats
    · exact absurd (counts.countable t ht) hp
  · obtain rfl : w = u := by
      have hfound := post.found
      rw [← counts.watch, hid, hg] at hfound
      exact (Option.some.inj hfound).symm
    exact absurd ⟨hfits.1, by have hlt := hfits.2; change w.confirmedAmount + _ < _ at hlt; omega⟩ hf

/-- A resolved transfer is noted if its watch is told. -/
theorem resolveLeftover_noted {canonical : List (B256 × Nat)} {t : Transfer}
    (h : resolveLeftover chain canonical tx t = .ok tx') :
    tx'.stats =
      if (t.blockHash, t.logIndex) ∈ canonical then tx.stats
      else match tx.db.watches.get? t.watchId with
        | some w => if w.status = .active then bumpStats tx.stats w.tokenAddress StatsDelta.orphan
            else tx.stats
        | none => tx.stats := by
  unfold resolveLeftover at h
  by_cases hc : (t.blockHash, t.logIndex) ∈ canonical
  · rw [if_pos hc] at h ⊢
    cases h
    rfl
  · rw [if_neg hc] at h ⊢
    rcases lockActiveWatch_cases (setTransfer tx.db t.key .orphaned) t.watchId with
      ⟨hin, hl⟩ | ⟨w, hid, hg, ha, -, hl⟩ | ⟨w, v, -, -, -, -, hl⟩
    · rw [hl] at h
      cases h
      rw [Db.Inactive, watches_setTransfer] at hin
      cases hg : tx.db.watches.get? t.watchId with
      | none => rfl
      | some w => exact (if_neg (hin w hg)).symm
    · rw [watches_setTransfer] at hg
      have hg' : tx.db.watches.get? t.watchId = some w := by rw [hid]; exact hg
      simp only [hg', if_pos ha]
      simp only [hl, bind, Except.bind] at h
      cases hn : numericColumn t.amount with
      | error e => rw [hn] at h; contradiction
      | ok amount =>
          simp only [hn] at h
          rcases insertEvent_cases ((setTransfer tx.db t.key .orphaned).putWatch w.bump) chain
            (.ofWatch w.bump) .paymentOrphaned (some (t.orphanedView amount)) with
            ⟨outbox, -, he⟩ | ⟨-, he⟩
          · rw [he] at h
            cases h
            rfl
          · rw [he] at h
            contradiction
    · rw [hl] at h
      contradiction

end Noted

/-! ## Flushing -/

/-- The statistics of a token; a missing row counts as zeros. -/
def Db.rollup (db : Db) (c : Nat) (token : Address) : StatsRollup :=
  (db.stats.get? (c, token)).getD { chainId := c, tokenAddress := token }

def StatsRollup.plus (r : StatsRollup) (d : StatsDelta) : StatsRollup :=
  { r with
    confirmedCount := r.confirmedCount + d.confirmed
    orphanedCount := r.orphanedCount + d.orphaned
    thresholdsReached := r.thresholdsReached + d.thresholds
    confirmedVolume := r.confirmedVolume + d.volume.toNat }

theorem StatsRollup.plus_zero (r : StatsRollup) : r.plus {} = r := rfl

/-- The row that `apply_stats` writes, and when it does. -/
theorem applyStats_eq (db : Db) (chainId : Nat) (token : Address) (d : StatsDelta) :
    applyStats db chainId token d =
      if ((db.rollup chainId token).plus d).confirmedVolume < 10 ^ 78 then
        .ok { db with stats := db.stats.upsert ((db.rollup chainId token).plus d) }
      else .error (.db .numericOverflow) := rfl

/-- `apply_stats` adds the delta to the row of its token. -/
theorem rollup_applyStats {chainId : Nat} {token : Address} {d : StatsDelta}
    (h : applyStats db chainId token d = .ok db') (c : Nat) (token' : Address) :
    db'.rollup c token' =
      if chainId = c ∧ token = token' then (db.rollup c token').plus d else db.rollup c token' := by
  have hrow : db'.stats = db.stats.upsert ((db.rollup chainId token).plus d) := by
    rw [applyStats_eq] at h
    split at h
    · cases h
      rfl
    · contradiction
  have hkey : ((db.rollup chainId token).plus d).key = (chainId, token) := by
    unfold Db.rollup
    cases hg : db.stats.get? (chainId, token) with
    | none => rfl
    | some r =>
        have hr : r.key = (chainId, token) := Table.key_of_get? hg
        exact hr
  rw [Db.rollup, hrow, Table.get?_upsert, hkey]
  by_cases h : chainId = c ∧ token = token'
  · rw [if_pos h, if_pos (Prod.ext h.1 h.2), h.1, h.2]
    rfl
  · rw [if_neg h, if_neg fun heq => h (Prod.mk.inj heq)]
    rfl

/-- The entry of a token in a list of deltas. -/
def deltaIn (es : List (Address × StatsDelta)) (token : Address) : StatsDelta :=
  ((es.find? fun e => e.1 = token).map Prod.snd).getD {}

/-- The flush adds every delta to its own row. -/
theorem rollup_foldlM {es : List (Address × StatsDelta)} {chainId : Nat}
    (distinct : (es.map Prod.fst).Nodup)
    (h : es.foldlM (fun db e => applyStats db chainId e.1 e.2) db = .ok db') (c : Nat)
    (token : Address) :
    db'.rollup c token =
      if chainId = c then (db.rollup c token).plus (deltaIn es token) else db.rollup c token := by
  induction es generalizing db with
  | nil =>
      cases h
      split <;> rfl
  | cons e es ih =>
      rw [List.map_cons, List.nodup_cons] at distinct
      rw [List.foldlM_cons] at h
      cases he : applyStats db chainId e.1 e.2 with
      | error _ => rw [he] at h; contradiction
      | ok db₁ =>
          rw [he] at h
          rw [ih distinct.2 h, rollup_applyStats he]
          by_cases hc : chainId = c
          · by_cases ht : e.1 = token
            · -- no later entry is of the same token
              have hnone : es.find? (fun e => e.1 = token) = none := by
                rw [List.find?_eq_none]
                intro e' he' heq
                rw [ht, ← of_decide_eq_true heq] at distinct
                exact distinct.1 (List.mem_map_of_mem he')
              have hrest : deltaIn es token = {} := by rw [deltaIn, hnone]; rfl
              rw [hrest]
              simp only [hc, ht, deltaIn, and_self, if_true, List.find?_cons, decide_true,
                Option.map_some, Option.getD_some]
              rfl
            · simp [hc, ht, deltaIn]
          · simp [hc]

/-- A list of deltas of different tokens can be written if each of them can. -/
theorem applyAll_ok_iff {es : List (Address × StatsDelta)} {chainId : Nat}
    (distinct : (es.map Prod.fst).Nodup) :
    (∃ db', es.foldlM (fun db e => applyStats db chainId e.1 e.2) db = .ok db') ↔
      ∀ e ∈ es, ((db.rollup chainId e.1).plus e.2).confirmedVolume < 10 ^ 78 := by
  induction es generalizing db with
  | nil => exact iff_of_true ⟨db, rfl⟩ (by simp)
  | cons e es ih =>
      rw [List.map_cons, List.nodup_cons] at distinct
      rw [List.foldlM_cons, List.forall_mem_cons]
      by_cases hfits : ((db.rollup chainId e.1).plus e.2).confirmedVolume < 10 ^ 78
      · have he := applyStats_eq db chainId e.1 e.2
        rw [if_pos hfits] at he
        rw [he]
        refine (ih distinct.2).trans ⟨fun h => ⟨hfits, fun e' he' => ?_⟩, fun h e' he' => ?_⟩
        all_goals
          have hne : e.1 ≠ e'.1 := fun heq => distinct.1 (heq ▸ List.mem_map_of_mem he')
          have hkept := rollup_applyStats he chainId e'.1
          rw [if_neg fun h => hne h.2] at hkept
        · rw [← hkept]
          exact h e' he'
        · rw [hkept]
          exact h.2 e' he'
      · have he := applyStats_eq db chainId e.1 e.2
        rw [if_neg hfits] at he
        rw [he]
        exact iff_of_false (by rintro ⟨db', h⟩; contradiction) fun h => hfits h.1

/-- The order of writing: every token once. -/
theorem nodup_flushed (tx : SweepTx) :
    ((tx.stats.rows.insertionSort fun a b => a.1.toNat ≤ b.1.toNat).map Prod.fst).Nodup :=
  ((List.perm_insertionSort _ tx.stats.rows).map Prod.fst).nodup_iff.mpr tx.stats.nodup

/-- **Flushing adds what was accumulated.** -/
theorem rollup_flush {tx : SweepTx} (h : flushStats chain tx = .ok db') (c : Nat) (token : Address) :
    db'.rollup c token =
      (tx.db.rollup c token).plus (if chain.chainId = c then tx.delta token else {}) := by
  have hperm := List.perm_insertionSort (fun a b : Address × StatsDelta => a.1.toNat ≤ b.1.toNat)
    tx.stats.rows
  have hdelta : deltaIn (tx.stats.rows.insertionSort fun a b => a.1.toNat ≤ b.1.toNat) token =
      tx.delta token := by
    have hget := Table.get?_congr
      (t := (⟨_, nodup_flushed tx⟩ : Table (Address × StatsDelta) Prod.fst))
      (u := tx.stats) (fun a => hperm.mem_iff) token
    unfold SweepTx.delta
    rw [← hget]
    rfl
  rw [rollup_foldlM (nodup_flushed tx) h, hdelta]
  split
  · rfl
  · rw [StatsRollup.plus_zero]

/-! ## Who writes statistics -/

/-- Statistics are written at the end of a transaction only. -/
theorem Step.stats_eq (h : Step db a db') (hcursor : a ≠ .moveCursor) (hother : a ≠ .other) :
    db'.stats = db.stats := by
  have hpost : ∀ {chain : ChainSpec} {db db' : Db} {w w' : Watch} {type : EventType}
      {view : Option TransferView} {transfers : Table Transfer Transfer.key},
      Post chain db w w' type view transfers db' → db'.stats = db.stats := by
    intro _ _ _ _ _ _ _ _ post
    obtain ⟨outbox, -, rfl⟩ := post.posted
    rfl
  cases h with
  | expire _ post => exact hpost post
  | announce _ _ _ post => exact hpost post
  | count counts _ =>
      obtain ⟨transfers, -, post⟩ := counts.step
      exact hpost post
  | complete counts _ post' =>
      obtain ⟨transfers, -, post⟩ := counts.step
      exact (hpost post').trans (hpost post)
  | orphan _ _ _ _ _ _ post => exact hpost post
  | moveCursor _ _ _ _ => exact absurd rfl hcursor
  | other _ _ _ _ _ => exact absurd rfl hother
  | _ => rfl

/-- No step of a sweep or backfill touches the statistics. -/
theorem Trace.stats_eq {acts : List Act} (h : Trace Step db acts db')
    (hacts : ∀ a ∈ acts, a ≠ .moveCursor ∧ a ≠ .other) : db'.stats = db.stats :=
  h.invariant_mem (fun d => d.stats = db.stats)
    (fun _ a _ ha hstep hd => (hstep.stats_eq (hacts a ha).1 (hacts a ha).2).trans hd) rfl

/-- Counting and resolving write no statistics. -/
theorem stats_of_sweep {chainId : Nat} {canonical : List (B256 × Nat)} {cs : List MatchedTransfer}
    {ts : List Transfer} (h : Trace Step db
      (cs.map (.count chainId) ++ ts.map (resolveAct canonical)) db') : db'.stats = db.stats := by
  refine Trace.stats_eq h fun a ha => ?_
  rcases List.mem_append.mp ha with ha | ha
  · obtain ⟨m, -, rfl⟩ := List.mem_map.mp ha
    exact ⟨Act.noConfusion, Act.noConfusion⟩
  · obtain ⟨t, -, rfl⟩ := List.mem_map.mp ha
    rcases resolveAct_cases canonical t with heq | heq <;> rw [heq] <;>
      exact ⟨Act.noConfusion, Act.noConfusion⟩

/-- The transaction of a sweep leaves them to the flush. -/
theorem sweepTx_stats {cache : WatchCache} {discovered : List WatchKey} {toBlock : Nat}
    {logs : List Log} {tx : SweepTx} (h : sweepTx db chain cache discovered toBlock logs = .ok tx) :
    tx.db.stats = db.stats := by
  obtain ⟨mid, cs, -, -, htr, htr'⟩ := sweepTx_trace h
  exact stats_of_sweep (htr.append htr')

/-- So does that of a backfill. -/
theorem backfillTx_stats {batch : List PendingBackfill} {logs : List Log} {tx : SweepTx}
    (h : backfillTx db chain batch logs = .ok tx) : tx.db.stats = db.stats := by
  obtain ⟨mid, cs, -, -, htr, hdb⟩ := backfillTx_trace h
  obtain ⟨ws, htr'⟩ := clearBackfills_trace mid (batch.map PendingBackfill.id)
  rw [← hdb] at htr'
  refine Trace.stats_eq (htr.append htr') fun a ha => ?_
  rcases List.mem_append.mp ha with ha | ha <;> obtain ⟨x, -, rfl⟩ := List.mem_map.mp ha <;>
    exact ⟨Act.noConfusion, Act.noConfusion⟩

/-- Operations that neither sweep nor backfill write no statistics. -/
theorem exec_stats (hsweep : ∀ chain cache expectedCursor toBlock logs,
      op ≠ .applySweep chain cache expectedCursor toBlock logs)
    (hbackfill : ∀ chain cache batch logs, op ≠ .applyBackfill chain cache batch logs) :
    (exec db op).stats = db.stats := by
  have hcreate : ∀ {id : Uuid} {new : NewWatch}, op.Creates id new → (exec db op).stats = db.stats := by
    intro id new hop
    rcases exec_creates hop db with heq | ⟨seq, out, hreg⟩
    · rw [heq]
    · rcases hreg.cases with ⟨cur, -, -, hstep⟩ | ⟨-, n, hdb⟩
      · exact hstep.stats_eq Act.noConfusion Act.noConfusion
      · rw [hdb]
  cases op with
  | ensureCursor chainId head =>
      simp only [exec, ensureCursor]
      split <;> rfl
  | createWatch id new => exact hcreate ⟨rfl, rfl⟩
  | commitWatch seq id new => exact hcreate ⟨rfl, rfl⟩
  | cancelWatch id =>
      simp only [exec, cancelWatch]
      split
      · split <;> rfl
      · rfl
  | expireWatches chain limit locked =>
      cases h : (overdueWatches db chain limit locked).foldlM (expireOne chain) ([], db) with
      | error e => simp only [exec, expireWatches, h, committed]
      | ok r =>
          simp only [exec, expireWatches, h, committed]
          refine Trace.stats_eq (expireAll_trace (lists_overdueWatches db chain limit locked) h)
            fun a ha => ?_
          obtain ⟨w, -, rfl⟩ := List.mem_map.mp ha
          exact ⟨Act.noConfusion, Act.noConfusion⟩
  | recordPending chain m =>
      rcases recordPending_cases db chain m with ⟨db', he, hstep⟩ | he | ⟨v, he⟩ | ⟨w, -, -, he⟩
      · simp only [exec, he, committed]
        exact hstep.stats_eq Act.noConfusion Act.noConfusion
      all_goals simp only [exec, he, committed]
  | applySweep chain cache expectedCursor toBlock logs => exact absurd rfl (hsweep _ _ _ _ _)
  | applyBackfill chain cache batch logs => exact absurd rfl (hbackfill _ _ _ _)
  | fastForwardCursor chainId target =>
      simp only [exec, fastForwardCursor]
      cases db.cursors.get? chainId with
      | none => rfl
      | some cur =>
          simp only [committed]
          split <;> rfl
  | tick elapsed => rfl
  | draw drawn => rfl

/-- Every volume on record has at most 78 digits. -/
def Db.Capped (db : Db) : Prop := ∀ c token, (db.rollup c token).confirmedVolume < 10 ^ 78

/-- A flush keeps the volumes below the cap of the column. -/
theorem flushStats_capped {tx : SweepTx} (h : flushStats chain tx = .ok db') (inv : tx.db.Capped) :
    db'.Capped := by
  refine foldlM_ok (fun _ (db : Db) => db.Capped) (fun e es db db' capped he c token => ?_) inv h
  rw [rollup_applyStats he]
  split
  · next heq =>
      obtain ⟨rfl, rfl⟩ := heq
      rw [applyStats_eq] at he
      split at he
      · next hlt => exact hlt
      · contradiction
  · exact capped c token

/-- The cap is about the statistics only. -/
theorem Db.Capped.of_stats (inv : db.Capped) (h : db'.stats = db.stats) : db'.Capped := by
  intro c token
  rw [Db.rollup, h]
  exact inv c token

/-- **No operation writes a volume of more digits.** -/
theorem Db.Capped.exec (inv : db.Capped) (op : Op) : (exec db op).Capped := by
  by_cases hsweep : ∃ chain cache expectedCursor toBlock logs,
      op = .applySweep chain cache expectedCursor toBlock logs
  · obtain ⟨chain, cache, expectedCursor, toBlock, logs, rfl⟩ := hsweep
    rcases applySweep_cases db chain cache expectedCursor toBlock logs with
      ⟨tx, db', -, htx, hflush, he⟩ | ⟨actual, -, he⟩ | he | ⟨e, -, he⟩
    · simp only [GumIndexer.exec, he, committed]
      have hcapped := flushStats_capped hflush (inv.of_stats (sweepTx_stats htx))
      exact hcapped.of_stats rfl
    all_goals
      simp only [GumIndexer.exec, he, committed]
      exact inv
  · by_cases hbackfill : ∃ chain cache batch logs, op = .applyBackfill chain cache batch logs
    · obtain ⟨chain, cache, batch, logs, rfl⟩ := hbackfill
      rcases applyBackfill_cases db chain cache batch logs with ⟨tx, db', htx, hflush, he⟩ | ⟨e, -, he⟩
      · simp only [GumIndexer.exec, he, committed]
        exact flushStats_capped hflush (inv.of_stats (backfillTx_stats htx))
      · simp only [GumIndexer.exec, he, committed]
        exact inv
    · push Not at hsweep hbackfill
      exact inv.of_stats (exec_stats hsweep hbackfill)

/-- The volumes are below the cap in every reachable state. -/
theorem capped_run (ops : List Op) : (run exec Db.empty ops).Capped :=
  invariant_run Db.Capped (fun _ op inv => inv.exec op) (fun _ _ => Nat.pow_pos (by decide)) ops

/-! ## The volume a transaction notes -/

/-- The token of a watch. -/
def Db.watchToken (db : Db) (id : Uuid) : Option Address := (db.watches.get? id).map Watch.tokenAddress

/-- Unless a watch is registered, no step changes the token of an id. -/
theorem Step.watchToken (h : Step db a db') (hreg : ∀ w, a ≠ .register w) (id : Uuid) :
    db'.watchToken id = db.watchToken id := by
  unfold Db.watchToken
  cases hw : db.watches.get? id with
  | some w =>
      obtain rfl := Table.key_of_get? hw
      obtain ⟨w', hw', hlater⟩ := h.later hw
      rw [hw', Option.map_some, Option.map_some, hlater.same.tokenAddress]
  | none =>
      cases hw' : db'.watches.get? id with
      | none => rfl
      | some w' => exact absurd (h.new_watch hw hw') (hreg w')

/-- The same for a trace. -/
theorem Trace.watchToken {acts : List Act} (h : Trace Step db acts db')
    (hreg : ∀ a ∈ acts, ∀ w, a ≠ .register w) (id : Uuid) : db'.watchToken id = db.watchToken id :=
  h.invariant_mem (fun d => d.watchToken id = db.watchToken id)
    (fun _ a _ ha hstep hd => (hstep.watchToken (hreg a ha) id).trans hd) rfl

/-- What the matches of a token add up to. -/
def Db.paidIn (db : Db) (token : Address) (ms : List MatchedTransfer) : Nat :=
  total MatchedTransfer.units (ms.filter fun m => db.watchToken m.watch.id = some token)

/-- Every delta holds what was counted for its token, up to a wrap around. -/
structure Volumes (db : Db) (tx : SweepTx) : Prop where
  tokens : ∀ id, tx.db.watchToken id = db.watchToken id
  volume : ∀ token, (tx.delta token).volume = BitVec.ofNat 256 (db.paidIn token tx.out.confirmed)

section Volumes

variable {tx tx' : SweepTx}

/-- A transaction starts with no volume. -/
theorem Volumes.start (db : Db) (discovered : List WatchKey) :
    Volumes db { db, out := { discovered } } := ⟨fun _ => rfl, fun _ => rfl⟩

/-- A match adds its amount to the volume of the token of its watch. -/
theorem volume_note {m : MatchedTransfer} {w : Watch} (h : tx'.stats = w.note m tx.stats)
    (token : Address) :
    (tx'.delta token).volume =
      (tx.delta token).volume + if w.tokenAddress = token then m.amount else 0 := by
  let tx₁ : SweepTx := { tx with stats := bumpStats tx.stats w.tokenAddress (·.credit m.amount) }
  have hcredited : (tx₁.delta token).volume =
      (tx.delta token).volume + if w.tokenAddress = token then m.amount else 0 := by
    rw [delta_of_bump (show tx₁.stats = bumpStats tx.stats w.tokenAddress (·.credit m.amount) from rfl)]
    split
    · rfl
    · exact (BitVec.add_zero _).symm
  unfold Watch.note at h
  split at h
  · rw [delta_of_bump (show tx'.stats = bumpStats tx₁.stats w.tokenAddress _ from h), ← hcredited]
    split <;> rfl
  · rw [← hcredited]
    exact congrArg (fun stats => (SweepTx.delta { tx with stats } token).volume) h

/-- Counting a match keeps the volumes in step with what is confirmed. -/
theorem Volumes.count {m : MatchedTransfer} (inv : Volumes db tx)
    (h : countConfirmed chain tx m = .ok tx') : Volumes db tx' := by
  have hcounted := countConfirmed_ok h
  obtain ⟨cs, -, -, htr⟩ := hcounted.trace
  have htokens : ∀ id, tx'.db.watchToken id = db.watchToken id := fun id =>
    (Trace.watchToken htr (fun a ha w => by
      obtain ⟨c, -, rfl⟩ := List.mem_map.mp ha
      exact Act.noConfusion) id).trans (inv.tokens id)
  -- the delta of the watch's token grows by the amount, and so does what was paid in it
  have hnoted : ∀ {w : Watch} {d : Db}, Counts chain tx.db w m d →
      tx'.out.confirmed = tx.out.confirmed ++ [m] → Volumes db tx' := by
    intro w d counts hconfirmed
    refine ⟨htokens, fun token => ?_⟩
    have htoken : db.watchToken m.watch.id = some w.tokenAddress := by
      obtain ⟨_, -, post⟩ := counts.step
      rw [← inv.tokens, counts.watch, Db.watchToken, post.found, Option.map_some]
    rw [volume_note (countConfirmed_noted h counts), inv.volume, hconfirmed, Db.paidIn, Db.paidIn,
      List.filter_append, total_append, List.filter_singleton, htoken]
    by_cases heq : w.tokenAddress = token
    · simp [heq, MatchedTransfer.units, BitVec.ofNat_add]
    · simp [heq]
  cases hcounted with
  | inactive _ => exact inv
  | settled _ => exact inv
  | below counts _ confirmed _ => exact hnoted counts confirmed
  | reached counts _ _ confirmed _ => exact hnoted counts confirmed

/-- So does resolving a leftover, which adds to neither. -/
theorem Volumes.resolve {canonical : List (B256 × Nat)} {t : Transfer} (inv : Volumes db tx)
    (htokens : ∀ id, tx'.db.watchToken id = tx.db.watchToken id)
    (hconfirmed : tx'.out.confirmed = tx.out.confirmed)
    (h : resolveLeftover chain canonical tx t = .ok tx') : Volumes db tx' := by
  refine ⟨fun id => (htokens id).trans (inv.tokens id), fun token => ?_⟩
  rw [hconfirmed, ← inv.volume]
  have hstats := resolveLeftover_noted h
  have hkept : tx'.stats = tx.stats → (tx'.delta token).volume = (tx.delta token).volume :=
    fun heq => congrArg (fun stats => (SweepTx.delta { tx with stats } token).volume) heq
  split at hstats
  · exact hkept hstats
  · split at hstats
    · split at hstats
      · rw [delta_of_bump hstats]
        split <;> rfl
      · exact hkept hstats
    · exact hkept hstats

/-- The loop over the matches keeps them in step. -/
theorem Volumes.countAll {ms : List MatchedTransfer} (inv : Volumes db tx)
    (h : ms.foldlM (countConfirmed chain) tx = .ok tx') : Volumes db tx' :=
  foldlM_ok (fun _ tx => Volumes db tx) (fun _ _ _ _ hv hm => hv.count hm) inv h

/-- And so does the loop over the leftovers. -/
theorem Volumes.resolveAll {canonical : List (B256 × Nat)} {ts : List Transfer} (inv : Volumes db tx)
    (hts : tx.db.transfers.Lists (Leftover chain.chainId) ts)
    (h : ts.foldlM (resolveLeftover chain canonical) tx = .ok tx') : Volumes db tx' := by
  refine (foldlM_ok (fun rest tx => Volumes db tx ∧ tx.db.transfers.Lists (Leftover chain.chainId) rest)
    (fun t rest s s' hs hok => ?_) ⟨inv, hts⟩ h).1
  obtain ⟨hstep, hrest, hconfirmed, -⟩ := resolveLeftover_ok hs.2 hok
  refine ⟨hs.1.resolve (hstep.watchToken fun w => ?_) hconfirmed hok, hrest⟩
  exact resolveAct_ne_register canonical t w

end Volumes

/-- **The volumes of a sweep** are what it confirmed, token by token. -/
theorem sweepTx_volumes {cache : WatchCache} {discovered : List WatchKey} {toBlock : Nat}
    {logs : List Log} {tx : SweepTx} (h : sweepTx db chain cache discovered toBlock logs = .ok tx) :
    Volumes db tx := by
  obtain ⟨mid, hcount, hresolve⟩ := sweepTx_phases h
  exact ((Volumes.start db discovered).countAll hcount).resolveAll (lists_leftovers _ _ _) hresolve

/-- The same for a backfill. -/
theorem backfillTx_volumes {batch : List PendingBackfill} {logs : List Log} {tx : SweepTx}
    (h : backfillTx db chain batch logs = .ok tx) : Volumes db tx := by
  unfold backfillTx at h
  cases hc : (backfillMatches chain batch logs).foldlM (countConfirmed chain) { db } with
  | error e => rw [hc] at h; contradiction
  | ok mid =>
      rw [hc] at h
      cases h
      have inv := (Volumes.start db []).countAll hc
      obtain ⟨ws, htr⟩ := clearBackfills_trace mid.db (batch.map PendingBackfill.id)
      refine ⟨fun id => (Trace.watchToken htr (fun a ha w => ?_) id).trans (inv.tokens id), inv.volume⟩
      obtain ⟨u, -, rfl⟩ := List.mem_map.mp ha
      exact Act.noConfusion

/-- The deltas can be written if and only if the volumes of all tokens of
watches stay below `10 ^ 78`. -/
theorem flushStats_ok_iff {tx : SweepTx} (inv : Volumes db tx) (hstats : tx.db.stats = db.stats)
    (capped : db.Capped) :
    (∃ db', flushStats chain tx = .ok db') ↔
      ∀ u ∈ db.watches.rows, (db.rollup chain.chainId u.tokenAddress).confirmedVolume +
        db.paidIn u.tokenAddress tx.out.confirmed % 2 ^ 256 < 10 ^ 78 := by
  have hrollup : ∀ token, tx.db.rollup chain.chainId token = db.rollup chain.chainId token := by
    intro token
    rw [Db.rollup, hstats, Db.rollup]
  have hvolume : ∀ token, (tx.delta token).volume.toNat =
      db.paidIn token tx.out.confirmed % 2 ^ 256 := by
    intro token
    rw [inv.volume, BitVec.toNat_ofNat]
  have hentry : ∀ e ∈ tx.stats.rows, tx.delta e.1 = e.2 := by
    intro e he
    rw [SweepTx.delta, Table.get?_of_mem he]
    rfl
  unfold flushStats
  rw [applyAll_ok_iff (nodup_flushed tx)]
  simp only [List.mem_insertionSort, hrollup]
  change (∀ e ∈ tx.stats.rows, (db.rollup chain.chainId e.1).confirmedVolume + e.2.volume.toNat < _) ↔ _
  constructor
  · intro h u _
    rw [← hvolume]
    -- a token that was not noted keeps its volume
    cases hg : tx.stats.get? u.tokenAddress with
    | none =>
        have hzero : tx.delta u.tokenAddress = {} := by rw [SweepTx.delta, hg]; rfl
        rw [hzero]
        exact capped _ _
    | some e =>
        have hkey : e.1 = u.tokenAddress := Table.key_of_get? hg
        have hmem := Table.mem_of_get? hg
        rw [← hkey, hentry e hmem]
        exact h e hmem
  · intro h e he
    rw [← hentry e he, hvolume]
    by_cases hwatch : ∃ u ∈ db.watches.rows, u.tokenAddress = e.1
    · obtain ⟨u, hu, htoken⟩ := hwatch
      rw [← htoken]
      exact h u hu
    · -- nothing is counted for a token without a watch
      have hnone : db.paidIn e.1 tx.out.confirmed = 0 := by
        have hnil : (tx.out.confirmed.filter fun m => db.watchToken m.watch.id = some e.1) = [] := by
          refine List.filter_eq_nil_iff.mpr fun m _ hm => hwatch ?_
          obtain ⟨w, hw, htoken⟩ := Option.map_eq_some_iff.mp (of_decide_eq_true hm)
          exact ⟨w, Table.mem_of_get? hw, htoken⟩
        rw [Db.paidIn, hnil]
        rfl
      rw [hnone]
      exact capped _ _

/-! ## In terms of the state before -/

/-- What the watches of a token gain together. -/
def Db.volume (db : Db) (gain : Watch → Nat) (token : Address) : Nat :=
  ((db.watches.rows.filter fun w => w.tokenAddress = token).map gain).sum

/-- The volumes on record have room for what the watches gain, as a `uint256`. -/
def Db.VolumeFits (db : Db) (chainId : Nat) (gain : Watch → Nat) : Prop :=
  ∀ u ∈ db.watches.rows, (db.rollup chainId u.tokenAddress).confirmedVolume +
    db.volume gain u.tokenAddress % 2 ^ 256 < 10 ^ 78

instance (db : Db) (chainId : Nat) (gain : Watch → Nat) : Decidable (db.VolumeFits chainId gain) :=
  inferInstanceAs (Decidable (∀ u ∈ db.watches.rows, _))

/-- The volume depends on the gains of the watches there are. -/
theorem volume_congr {gain gain' : Watch → Nat} (h : ∀ w ∈ db.watches.rows, gain w = gain' w)
    (token : Address) : db.volume gain token = db.volume gain' token := by
  unfold Db.volume
  congr 1
  exact List.map_congr_left fun w hw => h w (List.mem_filter.mp hw).1

/-- So does whether it fits. -/
theorem volumeFits_congr {gain : Watch → Nat} (gain' : Watch → Nat)
    (h : ∀ w ∈ db.watches.rows, gain w = gain' w)
    (chainId : Nat) : db.VolumeFits chainId gain ↔ db.VolumeFits chainId gain' := by
  unfold Db.VolumeFits
  simp only [volume_congr h]

/-- What a watch takes of the matches. -/
def Db.gains (db : Db) (chainId : Nat) (ms : List MatchedTransfer) (w : Watch) : Nat :=
  total MatchedTransfer.units (w.take (db.share chainId w.id ms))

/-- **What the loop counts for a token** is what its watches take. -/
theorem paidIn_countAll {discovered : List WatchKey} {ms : List MatchedTransfer} {tx : SweepTx}
    (inv : Sound db) (distinct : (ms.map (·.logId chain.chainId)).Nodup)
    (h : ms.foldlM (countConfirmed chain) { db, out := { discovered } } = .ok tx) (token : Address) :
    db.paidIn token tx.out.confirmed = db.volume (db.gains chain.chainId ms) token := by
  have hnodup : ((db.watches.rows.filter fun w => w.tokenAddress = token).map Watch.id).Nodup :=
    db.watches.nodup.sublist (List.Sublist.map _ List.filter_sublist)
  have hgroups := sum_groups (fun m : MatchedTransfer => m.watch.id) MatchedTransfer.units
    tx.out.confirmed hnodup
  have hmember : ∀ m : MatchedTransfer, db.watchToken m.watch.id = some token ↔
      m.watch.id ∈ (db.watches.rows.filter fun w => w.tokenAddress = token).map Watch.id := by
    intro m
    rw [Db.watchToken, Option.map_eq_some_iff, List.mem_map]
    constructor
    · rintro ⟨w, hw, htoken⟩
      exact ⟨w, List.mem_filter.mpr ⟨Table.mem_of_get? hw, by simpa using htoken⟩, Table.key_of_get? hw⟩
    · rintro ⟨w, hw, hid⟩
      obtain ⟨hrow, htoken⟩ := List.mem_filter.mp hw
      exact ⟨w, by rw [← hid]; exact Table.get?_of_mem hrow, by simpa using htoken⟩
  unfold Db.paidIn Db.volume total
  simp only [hmember]
  rw [← hgroups, List.map_map]
  congr 1
  refine List.map_congr_left fun w hw => ?_
  obtain ⟨_, -, -, hconfirmed⟩ :=
    countAll_took inv distinct h (Table.get?_of_mem (List.mem_filter.mp hw).1)
  exact congrArg (total MatchedTransfer.units) hconfirmed

/-- **When the statistics of a counting transaction can be written**, in terms
of the state before it. -/
theorem flush_ok_iff {discovered : List WatchKey} {ms : List MatchedTransfer} {mid tx : SweepTx}
    (sound : Sound db) (capped : db.Capped) (distinct : (ms.map (·.logId chain.chainId)).Nodup)
    (h : ms.foldlM (countConfirmed chain) { db, out := { discovered } } = .ok mid)
    (inv : Volumes db tx) (hconfirmed : tx.out.confirmed = mid.out.confirmed)
    (hstats : tx.db.stats = db.stats) :
    (∃ db', flushStats chain tx = .ok db') ↔
      db.VolumeFits chain.chainId (db.gains chain.chainId ms) := by
  rw [flushStats_ok_iff inv hstats capped, hconfirmed]
  simp only [paidIn_countAll sound distinct h]
  rfl

/-- **The statistics of a sweep are flushed exactly if its volume fits.** -/
theorem flush_sweepTx_ok_iff {cache : WatchCache} {discovered : List WatchKey} {toBlock : Nat}
    {logs : List Log} {tx : SweepTx} (sound : Sound db) (capped : db.Capped)
    (distinct : ((sweepMatches chain cache logs).map (·.logId chain.chainId)).Nodup)
    (h : sweepTx db chain cache discovered toBlock logs = .ok tx) :
    (∃ db', flushStats chain tx = .ok db') ↔
      db.VolumeFits chain.chainId (db.gains chain.chainId (sweepMatches chain cache logs)) := by
  obtain ⟨mid, hcount, hresolve⟩ := sweepTx_phases h
  obtain ⟨-, hconfirmed, -⟩ := resolveAll_trace (lists_leftovers _ _ _) hresolve
  exact flush_ok_iff sound capped distinct hcount (sweepTx_volumes h) hconfirmed (sweepTx_stats h)

/-- The same for a backfill. -/
theorem flush_backfillTx_ok_iff {batch : List PendingBackfill} {logs : List Log} {tx : SweepTx}
    (sound : Sound db) (capped : db.Capped)
    (distinct : ((backfillMatches chain batch logs).map (·.logId chain.chainId)).Nodup)
    (h : backfillTx db chain batch logs = .ok tx) :
    (∃ db', flushStats chain tx = .ok db') ↔
      db.VolumeFits chain.chainId (db.gains chain.chainId (backfillMatches chain batch logs)) := by
  have hvolumes := backfillTx_volumes h
  have hstats := backfillTx_stats h
  unfold backfillTx at h
  cases hc : (backfillMatches chain batch logs).foldlM (countConfirmed chain) { db } with
  | error e => rw [hc] at h; contradiction
  | ok mid =>
      rw [hc] at h
      cases h
      exact flush_ok_iff sound capped distinct hc hvolumes rfl hstats

end GumIndexer
