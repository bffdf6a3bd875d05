import GumIndexer.Chain
import GumIndexer.Interleaving

/-!
# GumIndexer.Orphans

Is a transfer reported as orphaned really off the canonical chain?

A sweep resolves every pending transfer at or below its upper end, but knows
the canonical logs of its own blocks only, those above the old cursor.  A
pending canonical transfer at or below the cursor is therefore taken for
orphaned.  Sweeps and fast-forwards leave none behind (`Server.Ahead.step`), so
the only way to get one is an announcement that comes late, at or below the
cursor (`late_announcement_orphaned`) or below the block that an open sweep has
read up to.  In runs without late announcements of canonical transfers, orphaned
means not canonical (`orphaned_not_canonical`), whatever else is done between
the halves of a sweep.
-/

namespace GumIndexer

open Base

/-- What is heard about a canonical log is what the log says. -/
def Heard (chain : ChainSpec) (canon : Canon) (m : MatchedTransfer) : Prop :=
  ∀ l ∈ canon.logs, l.blockHash = some m.blockHash → l.logIndex = some m.logIndex →
    (payment? chain l).map (fun p => p.toWatch m.watch m.removed) = some m

/-- The node is honest about the chain: notifications of canonical logs are
genuine, and a sweep gets exactly the canonical logs of its range. -/
def Op.Honest (chain : ChainSpec) (canon : Canon) : Op → Prop
  | .recordPending chain' m => chain'.chainId = chain.chainId → chain' = chain ∧ Heard chain canon m
  | .applySweep chain' _ expectedCursor toBlock logs =>
      chain'.chainId = chain.chainId → chain' = chain ∧
        ∀ l, l ∈ logs ↔ l ∈ canon.getLogs (sweepFilter chain (expectedCursor + 1) toBlock)
  | _ => True

/-- An open transaction does not pass over a log of block `n`: it leaves the
cursor below that block, or it has counted the log or read its row. -/
def CursorTx.Heeds (log : LogId) (n : Nat) : CursorTx → Prop
  | .sweep o => o.toBlock < n ∨ (∃ m ∈ o.counted, m.logId o.chain.chainId = log) ∨
      ∃ t ∈ o.selected, t.key = log
  | .forward _ newCursor => newCursor < n

/-- A canonical transfer is announced above the cursor and not behind the back
of an open transaction, unless the announcement changes nothing: its row is
there already or its watch is retired. -/
def ServerStep.OnTime (chain : ChainSpec) (canon : Canon) (s : Server) : ServerStep → Prop
  | .op (.recordPending chain' m) =>
      chain'.chainId = chain.chainId → canon.Has m.blockHash m.logIndex m.blockNumber →
        ((∃ cur ∈ s.db.cursors.get? chain.chainId, cur.confirmedBlock < m.blockNumber) ∧
            ∀ tx ∈ s.txs chain.chainId, tx.Heeds (m.logId chain.chainId) m.blockNumber) ∨
          (∃ t, s.db.transfers.get? (m.logId chain.chainId) = some t) ∨ s.db.Inactive m.watch.id
  | _ => True

variable {chain : ChainSpec} {canon : Canon} {db db' : Db} {a : Act} {op : Op}

/-- The log is a canonical payment. -/
def Canon.Serves (canon : Canon) (chain : ChainSpec) (blockHash : B256) (logIndex blockNumber : Nat) :
    Prop :=
  ∃ l ∈ canon.logs, ∃ p, payment? chain l = some p ∧ p.blockHash = blockHash ∧
    p.logIndex = logIndex ∧ p.blockNumber = blockNumber

/-- An honest sweep that covers a canonical payment knows it. -/
theorem Canon.Serves.mem_canonicalOf {blockHash : B256} {logIndex blockNumber lo hi : Nat}
    {cache : WatchCache} {logs : List Log} (h : canon.Serves chain blockHash logIndex blockNumber)
    (hlo : lo ≤ blockNumber) (hhi : blockNumber ≤ hi)
    (honest : ∀ l, l ∈ logs ↔ l ∈ canon.getLogs (sweepFilter chain lo hi)) :
    (blockHash, logIndex) ∈ canonicalOf chain cache logs := by
  obtain ⟨l, hl, p, hp, rfl, rfl, rfl⟩ := h
  have hmem : l ∈ logs := by
    rw [honest, Canon.getLogs, List.mem_filter]
    exact ⟨hl, by simpa using sweepFilter_admits hp hlo hhi⟩
  obtain ⟨-, -, -, -, -, -, hhash, hindex, -⟩ := payment?_spec hp
  refine List.mem_append_right _ ?_
  rw [allCanonical, List.mem_filterMap]
  refine ⟨l, List.mem_filter.mpr ⟨hmem, by simpa using canon.kept l hl⟩, ?_⟩
  simp only [hhash, hindex]

/-- What is heard and canonical is served to whoever asks for its block. -/
theorem Heard.serves {m : MatchedTransfer} {n : Nat} (h : Heard chain canon m)
    (hhas : canon.Has m.blockHash m.logIndex n) :
    canon.Serves chain m.blockHash m.logIndex m.blockNumber := by
  obtain ⟨l, hl, hhash, hindex, -⟩ := hhas
  obtain ⟨p, hp, hm⟩ := Option.map_eq_some_iff.mp (h l hl hhash hindex)
  exact ⟨l, hl, p, hp, by rw [← hm]; rfl, by rw [← hm]; rfl, by rw [← hm]; rfl⟩

/-- What is heard names the block of the log. -/
theorem Heard.has {m : MatchedTransfer} {n : Nat} (h : Heard chain canon m)
    (hhas : canon.Has m.blockHash m.logIndex n) :
    canon.Has m.blockHash m.logIndex m.blockNumber := by
  obtain ⟨l, hl, p, hp, hhash, hindex, hnumber⟩ := h.serves hhas
  obtain ⟨-, -, -, -, -, hn, hh, hi, -⟩ := payment?_spec hp
  exact ⟨l, hl, by rw [hh, hhash], by rw [hi, hindex], by rw [hn, hnumber]⟩

/-! ## What is pending after the cursor moved -/

/-- **A sweep leaves nothing pending at or below its upper end.** -/
theorem sweepTx_resolved {cache : WatchCache} {discovered : List WatchKey} {toBlock : Nat}
    {logs : List Log} {tx : SweepTx} (h : sweepTx db chain cache discovered toBlock logs = .ok tx)
    {log : LogId} {t : Transfer} (ht : tx.db.transfers.get? log = some t)
    (hchain : t.chainId = chain.chainId) (hp : t.status = .pending) : toBlock < t.blockNumber := by
  obtain ⟨mid, -, hresolve⟩ := sweepTx_phases h
  -- what is still pending at or below the upper end is among the leftovers to come
  have hinv := foldlM_ok (fun rest (tx : SweepTx) =>
    tx.db.transfers.Lists (Leftover chain.chainId) rest ∧
      ∀ log t, tx.db.transfers.get? log = some t → Leftover chain.chainId t →
        t.blockNumber ≤ toBlock → t ∈ rest)
    (fun u rest s s' hs hok => ?_) ⟨lists_leftovers mid.db chain.chainId toBlock, ?_⟩ hresolve
  · by_contra hle
    have hmem := hinv.2 log t ht ⟨hchain, hp⟩ (by omega)
    cases hmem
  · obtain ⟨hstep, hrest, -⟩ := resolveLeftover_ok hs.1 hok
    refine ⟨hrest, fun log t ht hleft hblock => ?_⟩
    rw [hstep.transfers_resolve] at ht
    rcases row_replace ht with hold | rfl
    · rcases List.mem_cons.mp (hs.2 log t hold hleft hblock) with rfl | hmem
      · have hself := Table.get?_replace_self
          (a := t.resolved (canonicalOf chain cache logs)) (hs.1.found t List.mem_cons_self)
        rw [Transfer.key_resolved, Table.key_of_get? ht, ht] at hself
        exact absurd (Option.some.inj hself ▸ hleft.2) (t.resolved_not_pending _)
      · exact hmem
    · exact absurd hleft.2 (u.resolved_not_pending _)
  · intro log t ht hleft hblock
    exact mem_leftovers.mpr ⟨Table.mem_of_get? ht, hleft.1, hleft.2, hblock⟩

/-- A fast-forward waits for pending transfers. -/
theorem hasPending_of_get? {log : LogId} {t : Transfer} (ht : db.transfers.get? log = some t)
    (hp : t.status = .pending) : hasPending db t.chainId = true := by
  rw [hasPending, List.any_eq_true]
  exact ⟨t, Table.mem_of_get? ht, by simpa using hp⟩

/-- While something is pending on a chain, its cursor is not fast-forwarded. -/
theorem fastForward_pending {c c' k target : Nat} {log : LogId} {t : Transfer}
    (hat : db.CursorAt c k) (ht : db.transfers.get? log = some t) (hchain : t.chainId = c)
    (hp : t.status = .pending) : (exec db (.fastForwardCursor c' target)).CursorAt c k := by
  simp only [exec, fastForwardCursor]
  cases hcur : db.cursors.get? c' with
  | none => exact hat
  | some cur =>
      simp only [committed]
      by_cases hc : c' = c
      · have hstay : forwarded db c' cur.confirmedBlock target = cur.confirmedBlock := by
          unfold forwarded
          rw [hc, ← hchain, if_pos (hasPending_of_get? ht hp)]
        rw [if_neg (fun hne => hne hstay)]
        exact hat
      · split
        · exact Db.cursorAt_setCursor_of_ne hat hc _
        · exact hat

/-- A transfer that stays pending stays above the cursor. -/
theorem cursor_lt_pending {c k : Nat} {log : LogId} {t : Transfer} (hat : db.CursorAt c k)
    (hk : k < t.blockNumber) (hold : db.transfers.get? log = some t)
    (ht : (exec db op).transfers.get? log = some t) (hchain : t.chainId = c)
    (hp : t.status = .pending) : ∃ k', (exec db op).CursorAt c k' ∧ k' < t.blockNumber := by
  by_cases hcursor : op.cursorOf = some c
  · cases op with
    | applySweep chain cache expectedCursor toBlock logs =>
        obtain rfl : chain.chainId = c := Option.some.inj hcursor
        simp only [exec] at ht ⊢
        rcases applySweep_cases db chain cache expectedCursor toBlock logs with
          ⟨tx, db', -, htx, hflush, he⟩ | ⟨actual, -, he⟩ | he | ⟨e, -, he⟩
        · simp only [he, committed] at ht ⊢
          have hat' := sweepTx_cursorAt htx hflush hat
          obtain ⟨stats, rfl⟩ := flushStats_frame hflush
          exact ⟨toBlock, Db.cursorAt_setCursor hat' toBlock, sweepTx_resolved htx ht hchain hp⟩
        all_goals
          simp only [he, committed]
          exact ⟨k, hat, hk⟩
    | fastForwardCursor c' target => exact ⟨k, fastForward_pending hat hold hchain hp, hk⟩
    | createWatch id new =>
        have hno : ¬ (Op.createWatch id new).Allows db .moveCursor := fun h => h
        exact ⟨k, by rw [Db.CursorAt, exec_cursors hno]; exact hat, hk⟩
    | commitWatch seq id new =>
        have hno : ¬ (Op.commitWatch seq id new).Allows db .moveCursor := fun h => h
        exact ⟨k, by rw [Db.CursorAt, exec_cursors hno]; exact hat, hk⟩
    | _ => contradiction
  · exact ⟨k, exec_cursorAt_of_ne hcursor hat, hk⟩

/-- A sweep reads every pending transfer that it passes. -/
theorem OpenSweep.heeds_of_read {cache : WatchCache} {expectedCursor toBlock : Nat} {logs : List Log}
    {o : OpenSweep} {log : LogId} {t : Transfer}
    (h : OpenSweep.read db chain cache expectedCursor toBlock logs = some o)
    (ht : db.transfers.get? log = some t) (hchain : t.chainId = chain.chainId)
    (hp : t.status = .pending) : (CursorTx.sweep o).Heeds log t.blockNumber := by
  obtain ⟨-, rfl, -, -, -, rfl, -, mid, hmid, hcounted, hselected⟩ := read_eq_some h
  have htr := (confirmed_countAll hmid).2
  rw [← hcounted] at htr
  by_cases hlt : o.toBlock < t.blockNumber
  · exact .inl hlt
  · rcases count_rows htr log with ⟨-, hm, -⟩ | ⟨-, hsame⟩
    · exact .inr (.inl hm)
    · refine .inr (.inr ⟨t, ?_, Table.key_of_get? ht⟩)
      rw [hselected]
      exact mem_leftovers.mpr ⟨Table.mem_of_get? (hsame.trans ht), hchain, hp, by omega⟩

/-- What is pending after a commit was pending before it, and neither counted
nor read. -/
theorem OpenSweep.finish_pending {o : OpenSweep} {log : LogId} {t : Transfer}
    (h : o.finish db = some db') (ht : db'.transfers.get? log = some t) (hp : t.status = .pending) :
    (∀ m ∈ o.counted, m.logId o.chain.chainId ≠ log) ∧ (∀ u ∈ o.selected, u.key ≠ log) ∧
      db.transfers.get? log = some t := by
  cases finish_rows h log with
  | counted _ _ confirmed _ =>
      obtain ⟨u, hu, hstatus⟩ := confirmed
      rw [ht] at hu
      obtain rfl := Option.some.inj hu
      rw [hp] at hstatus
      contradiction
  | resolved _ _ row =>
      rw [ht] at row
      obtain ⟨u, -, rfl⟩ := Option.map_eq_some_iff.mp row.symm
      exact absurd hp (Transfer.resolved_not_pending _ _)
  | kept counted selected row => exact ⟨counted, selected, row ▸ ht⟩

/-- A commit does not pass over what it heeds. -/
theorem CursorTx.Heeds.finish {c : Nat} {tx : CursorTx} {log : LogId} {t : Transfer} {k : Nat}
    (heeds : tx.Heeds log t.blockNumber) (holds : tx.Holds c db) (hat : db.CursorAt c k)
    (hk : k < t.blockNumber) (ht : (tx.finish c db).transfers.get? log = some t)
    (hp : t.status = .pending) : ∃ k', (tx.finish c db).CursorAt c k' ∧ k' < t.blockNumber := by
  rcases holds.finish_self with hreach | heq
  · refine ⟨tx.reach, hreach, ?_⟩
    cases tx with
    | forward cursor newCursor => exact heeds
    | sweep o =>
        change ((o.finish db).getD db).transfers.get? log = some t at ht
        change o.toBlock < t.blockNumber
        cases hfinish : o.finish db with
        | none =>
            -- rolled back, so the cursor it moves to is the one it has
            have hdb : CursorTx.finish c db (.sweep o) = db := by rw [CursorTx.finish, hfinish]; rfl
            rw [hdb] at hreach
            obtain rfl : k = o.toBlock := hat.unique hreach
            exact hk
        | some d =>
            rw [hfinish, Option.getD_some] at ht
            obtain ⟨hcounted, hselected, -⟩ := OpenSweep.finish_pending hfinish ht hp
            rcases heeds with hlt | ⟨m, hm, hlog⟩ | ⟨u, hu, hkey⟩
            · exact hlt
            · exact absurd hlog (hcounted m hm)
            · exact absurd hkey (hselected u hu)
  · rw [heq]
    exact ⟨k, hat, hk⟩

/-- A pending row was pending before, or has just been announced. -/
theorem Server.pending_before {s : Server} {i : ServerStep} {log : LogId} {t : Transfer}
    (ht : (s.step i).db.transfers.get? log = some t) (hp : t.status = .pending) :
    s.db.transfers.get? log = some t ∨ ∃ chain m, i = .op (.recordPending chain m) ∧
      Writes s.db (.announce chain.chainId m) t := by
  have hyields := s.step_yields i
  generalize (s.step i).db = db at hyields ht
  cases hyields with
  | idle => exact .inl ht
  | @runs op _ =>
      by_cases hop : ∃ chain m, op = .recordPending chain m
      · obtain ⟨chain, m, rfl⟩ := hop
        rcases recordPending_cases s.db chain m with ⟨db', he, hstep⟩ | he | ⟨v, he⟩ | ⟨w, -, -, he⟩
        · simp only [exec, he, committed] at ht
          exact (hstep.writes ht).imp id fun hw => ⟨chain, m, rfl, hw⟩
        all_goals
          simp only [exec, he, committed] at ht
          exact .inl ht
      · exact .inl (pendingFrom_exec (fun c m h => hop ⟨c, m, h⟩) log t ht hp)
  | sweeps _ finish => exact .inl (OpenSweep.finish_pending finish ht hp).2.2
  | forwards _ => exact .inl ht

/-- The transfer is above the cursor, and no open transaction passes over it. -/
structure Server.Ahead (s : Server) (t : Transfer) : Prop where
  cursor : ∃ k, s.db.CursorAt t.chainId k ∧ k < t.blockNumber
  heeded : ∀ tx, s.txs t.chainId = some tx → tx.Heeds t.key t.blockNumber

/-- **A transfer that stays pending is not passed over.** -/
theorem Server.Ahead.step {s : Server} {i : ServerStep} {t : Transfer} (inv : s.Ahead t)
    (holds : s.Holds) (hold : s.db.transfers.get? t.key = some t)
    (ht : (s.step i).db.transfers.get? t.key = some t) (hp : t.status = .pending) :
    (s.step i).Ahead t := by
  obtain ⟨⟨k, hat, hk⟩, heeded⟩ := inv
  have hupdate : ∀ c tx', (c = t.chainId → ∀ tx, tx' = some tx → tx.Heeds t.key t.blockNumber) →
      ∀ tx, Function.update s.txs c tx' t.chainId = some tx → tx.Heeds t.key t.blockNumber := by
    intro c tx' hnew tx htx
    by_cases hc : c = t.chainId
    · subst hc
      rw [Function.update_self] at htx
      exact hnew rfl tx htx
    · rw [Function.update_of_ne (Ne.symm hc)] at htx
      exact heeded tx htx
  cases i with
  | op o =>
      rw [Server.step, runOp] at ht ⊢
      split
      · exact ⟨⟨k, hat, hk⟩, heeded⟩
      · next hfree =>
          rw [if_neg hfree] at ht
          exact ⟨cursor_lt_pending hat hk hold ht rfl hp, heeded⟩
  | select chain cache expectedCursor toBlock logs =>
      rw [Server.step, select]
      split
      · next o _ hread =>
          refine ⟨⟨k, hat, hk⟩, hupdate _ _ fun hc tx htx => ?_⟩
          obtain rfl := Option.some.inj htx
          exact OpenSweep.heeds_of_read hread hold hc.symm hp
      · exact ⟨⟨k, hat, hk⟩, heeded⟩
  | forward c target =>
      rw [Server.step, forward]
      split
      · next cur _ hcur =>
          refine ⟨⟨k, hat, hk⟩, hupdate _ _ fun hc tx htx => ?_⟩
          obtain rfl := Option.some.inj htx
          subst hc
          have hstay : forwarded s.db t.chainId cur.confirmedBlock target = cur.confirmedBlock := by
            rw [forwarded, if_pos (hasPending_of_get? hold hp)]
          have hcursor : cur = ⟨t.chainId, k⟩ := Option.some.inj (hcur.symm.trans hat)
          change forwarded s.db t.chainId cur.confirmedBlock target < t.blockNumber
          rw [hstay, hcursor]
          exact hk
      · exact ⟨⟨k, hat, hk⟩, heeded⟩
  | commit c =>
      rw [Server.step, commit] at ht ⊢
      split
      · next tx htx =>
          rw [htx] at ht
          refine ⟨?_, hupdate _ _ fun _ _ h => by contradiction⟩
          by_cases hc : c = t.chainId
          · subst hc
            exact (heeded tx htx).finish (holds _ tx htx) hat hk ht hp
          · exact ⟨k, (holds c tx htx).finish_of_ne hc hat, hk⟩
      · exact ⟨⟨k, hat, hk⟩, heeded⟩
  | abort c => exact ⟨⟨k, hat, hk⟩, hupdate _ _ fun _ _ h => by contradiction⟩

/-! ## Orphaned rows and events -/

/-- What was orphaned, row or event, is not canonical. -/
structure Blameless (chain : ChainSpec) (canon : Canon) (db : Db) : Prop where
  rows : ∀ log t, db.transfers.get? log = some t → t.chainId = chain.chainId →
    t.status = .orphaned → ¬ canon.Has t.blockHash t.logIndex t.blockNumber
  events : ∀ e ∈ db.outbox.rows, e.eventType = .paymentOrphaned →
    e.payload.watch.chainId = chain.chainId →
      ∀ v ∈ e.payload.transfer, ¬ canon.Has v.blockHash v.logIndex v.blockNumber

/-- A post of another type reports nothing as orphaned. -/
theorem Post.not_orphan_event {w w' : Watch} {type : EventType} {view : Option TransferView}
    {transfers : Table Transfer Transfer.key} {e : OutboxRow}
    (h : Post chain db w w' type view transfers db') (hne : type ≠ .paymentOrphaned)
    (he : e ∈ db'.outbox.rows) (ho : e.eventType = .paymentOrphaned) : e ∈ db.outbox.rows := by
  rcases h.new_event he with he | rfl
  · exact he
  · exact absurd ho hne

/-- An event that reports a transfer as orphaned was there before, or the
step orphans that transfer. -/
theorem Step.orphan_event {e : OutboxRow} (h : Step db a db') (he : e ∈ db'.outbox.rows)
    (ho : e.eventType = .paymentOrphaned) :
    e ∈ db.outbox.rows ∨ ∃ t, a = .orphan t ∧ e.payload.watch.chainId = t.chainId ∧
      ∀ v ∈ e.payload.transfer,
        v.blockHash = t.blockHash ∧ v.logIndex = t.logIndex ∧ v.blockNumber = t.blockNumber := by
  cases h with
  | register _ _ _ _ _ => exact .inl he
  | cancel _ _ => exact .inl he
  | expire _ post => exact .inl (post.not_orphan_event (by decide) he ho)
  | announce _ _ _ post => exact .inl (post.not_orphan_event (by decide) he ho)
  | count counts _ =>
      obtain ⟨transfers, -, post⟩ := counts.step
      exact .inl (post.not_orphan_event (by decide) he ho)
  | complete counts _ post =>
      obtain ⟨transfers, -, post₁⟩ := counts.step
      exact .inl (post₁.not_orphan_event (by decide) (post.not_orphan_event (by decide) he ho) ho)
  | ignore _ _ => exact .inl he
  | orphanRetired _ _ _ => exact .inl he
  | orphan _ _ home _ _ _ post =>
      rcases post.new_event he with he | rfl
      · exact .inl he
      · refine .inr ⟨_, rfl, home.symm, fun v hv => ?_⟩
        cases hv
        exact ⟨rfl, rfl, rfl⟩
  | clearBackfill _ => exact .inl he
  | moveCursor _ _ outbox _ => rw [outbox] at he; exact .inl he
  | other _ _ outbox _ _ => rw [outbox] at he; exact .inl he

/-- A step that orphans nothing canonical keeps it so. -/
theorem Blameless.step (h : Step db a db')
    (hact : ∀ t, a = .orphan t → t.chainId = chain.chainId →
      ¬ canon.Has t.blockHash t.logIndex t.blockNumber)
    (inv : Blameless chain canon db) : Blameless chain canon db' where
  rows log t ht hchain ho := by
    rcases h.writes ht with hold | hw
    · exact inv.rows log t hold hchain ho
    · cases hw with
      | @orphan u _ _ => exact hact u rfl hchain
      | _ => contradiction
  events e he ho hchain v hv := by
    rcases h.orphan_event he ho with hold | ⟨t, ha, hhome, hview⟩
    · exact inv.events e hold ho hchain v hv
    · obtain ⟨hhash, hindex, hnumber⟩ := hview v hv
      rw [hhash, hindex, hnumber]
      exact hact t ha (hhome.symm.trans hchain)

/-- Only a pending row is orphaned. -/
theorem Step.orphan_pending {t : Transfer} (h : Step db (.orphan t) db') :
    db.transfers.get? t.key = some t ∧ t.status = .pending := by
  cases h with
  | orphanRetired found pending _ => exact ⟨found, pending⟩
  | orphan found pending _ _ _ _ _ => exact ⟨found, pending⟩

/-! ## The invariant -/

/-- Pending canonical transfers are above the cursor, where the next sweep
asks for them; nothing canonical was orphaned, and no open sweep is about to
orphan anything canonical. -/
structure Timely (chain : ChainSpec) (canon : Canon) (s : Server) : Prop where
  pending : ∀ log t, s.db.transfers.get? log = some t → t.chainId = chain.chainId →
    t.status = .pending → ∀ n, canon.Has t.blockHash t.logIndex n →
      canon.Serves chain t.blockHash t.logIndex t.blockNumber ∧ s.Ahead t
  blameless : Blameless chain canon s.db
  spares : ∀ c o, s.txs c = some (.sweep o) → ∀ t ∈ o.selected, t.chainId = chain.chainId →
    (t.blockHash, t.logIndex) ∉ o.canonical → ∀ n, ¬ canon.Has t.blockHash t.logIndex n

namespace Timely

variable {s : Server} {i : ServerStep}

/-- An empty server is on time. -/
theorem empty : Timely chain canon {} where
  pending log t ht := by simp [Db.empty] at ht
  blameless := ⟨fun log t ht => by simp [Db.empty] at ht, fun e he => by simp [Db.empty] at he⟩
  spares _ _ ho := by contradiction

/-- An operation orphans nothing canonical. -/
theorem orphan {t : Transfer} (inv : Timely chain canon s) (honest : op.Honest chain canon)
    (hallow : op.Allows s.db (.orphan t)) (found : s.db.transfers.get? t.key = some t)
    (pending : t.status = .pending) (hchain : t.chainId = chain.chainId) :
    ¬ canon.Has t.blockHash t.logIndex t.blockNumber := by
  intro hhas
  obtain ⟨hserves, ⟨k, hat, hk⟩, -⟩ := inv.pending t.key t found hchain pending _ hhas
  cases op <;> try contradiction
  obtain ⟨hcur, hhome, hblock, hout⟩ := hallow
  obtain ⟨rfl, hlogs⟩ := honest (hhome.symm.trans hchain)
  rw [hchain] at hat
  obtain rfl := hat.unique hcur
  exact hout (hserves.mem_canonicalOf hk hblock hlogs)

/-- An honest operation orphans nothing canonical, and reports nothing so. -/
theorem blameless_exec (inv : Timely chain canon s) (honest : op.Honest chain canon) :
    Blameless chain canon (exec s.db op) := by
  obtain ⟨acts, htr, -, hallow⟩ := exec_trace s.db op
  by_cases hop : ∃ chain m, op = .recordPending chain m
  · obtain ⟨chain', m, rfl⟩ := hop
    refine htr.invariant_mem (Blameless chain canon) (fun s a s' ha hstep hs => ?_) inv.blameless
    refine hs.step hstep fun t hat => ?_
    have hall := hallow a ha
    rw [hat] at hall
    exact hall.elim
  · have hop' : ∀ chain m, op ≠ .recordPending chain m := fun c m h => hop ⟨c, m, h⟩
    refine (htr.invariant_mem (fun d => Blameless chain canon d ∧ PendingFrom s.db d)
      (fun d a d' ha hstep hs => ⟨hs.1.step hstep fun t hat => ?_, hs.2.step hstep (hallow a ha) hop'⟩)
      ⟨inv.blameless, fun _ _ ht _ => ht⟩).1
    subst hat
    obtain ⟨found, pending⟩ := hstep.orphan_pending
    exact inv.orphan honest (hallow _ ha) (hs.2 _ t found pending) pending

/-- Nor does the commit of a sweep that read before. -/
theorem blameless_finish {c : Nat} {o : OpenSweep} (inv : Timely chain canon s)
    (ho : s.txs c = some (.sweep o)) (h : o.finish s.db = some db) : Blameless chain canon db where
  rows log t ht hchain horphaned := by
    cases OpenSweep.finish_rows h log with
    | counted _ _ confirmed _ =>
        obtain ⟨u, hu, hstatus⟩ := confirmed
        rw [ht] at hu
        obtain rfl := Option.some.inj hu
        rw [horphaned] at hstatus
        contradiction
    | @resolved u mem key row =>
        rw [ht] at row
        obtain ⟨v, hv, rfl⟩ := Option.map_eq_some_iff.mp row.symm
        -- the row has the block and the index of the row that was read
        have hkey : v.key = u.key := (Table.key_of_get? hv).trans key.symm
        have hhash : v.blockHash = u.blockHash := congrArg LogId.blockHash hkey
        have hindex : v.logIndex = u.logIndex := congrArg LogId.logIndex hkey
        have hhome : v.chainId = u.chainId := congrArg LogId.chainId hkey
        have hout : (u.blockHash, u.logIndex) ∉ o.canonical := fun hin => by
          have hignored : (u.resolved o.canonical).status = .ignored := by
            rw [Transfer.resolved, if_pos hin]
            rfl
          rw [hignored] at horphaned
          contradiction
        change ¬ canon.Has v.blockHash v.logIndex v.blockNumber
        rw [hhash, hindex]
        exact inv.spares c o ho u mem (hhome.symm.trans hchain) hout _
    | kept _ _ row => exact inv.blameless.rows log t (row ▸ ht) hchain horphaned
  events e he horphaned hchain v hv := by
    obtain ⟨mid, tx, d, hmid, htx, hflush, rfl⟩ := OpenSweep.finish_phases h
    obtain ⟨stats, rfl⟩ := flushStats_frame hflush
    rcases resolveAll_events htx e he with hold | ⟨t, ht, hout, d, watch, amount, rfl⟩
    · -- counting reports no orphans
      have hbefore : Blameless chain canon mid.db :=
        (OpenSweep.recount_trace hmid).2.2.invariant_mem (Blameless chain canon)
          (fun d a d' ha hstep hd => hd.step hstep fun t hat => by
            obtain ⟨m, -, rfl⟩ := List.mem_map.mp ha
            contradiction) inv.blameless
      exact hbefore.events e hold horphaned hchain v hv
    · cases hv
      exact inv.spares c o ho t ht ((o.leftover t ht).1.trans hchain) hout _

/-- A sweep that reads is not about to orphan anything canonical. -/
theorem spares_read {chain' : ChainSpec} {cache : WatchCache} {expectedCursor toBlock : Nat}
    {logs : List Log} {o : OpenSweep} (inv : Timely chain canon s)
    (honest : Op.Honest chain canon (.applySweep chain' cache expectedCursor toBlock logs))
    (h : OpenSweep.read s.db chain' cache expectedCursor toBlock logs = some o) :
    ∀ t ∈ o.selected, t.chainId = chain.chainId → (t.blockHash, t.logIndex) ∉ o.canonical →
      ∀ n, ¬ canon.Has t.blockHash t.logIndex n := by
  intro t ht hchain hout n hhas
  obtain ⟨hat, rfl, -, -, -, rfl, rfl, mid, hmid, -, hselected⟩ := OpenSweep.read_eq_some h
  have hleft := o.leftover t ht
  obtain ⟨rfl, hlogs⟩ := honest (hleft.1.symm.trans hchain)
  -- the row was pending before the counting
  have hrow : s.db.transfers.get? t.key = some t := by
    rw [hselected] at ht
    have hget := Table.get?_of_mem (mem_leftovers.mp ht).1
    rcases count_rows (confirmed_countAll hmid).2 t.key with ⟨⟨u, hu, hstatus⟩, -⟩ | ⟨-, hsame⟩
    · rw [hget] at hu
      obtain rfl := Option.some.inj hu
      rw [hleft.2] at hstatus
      contradiction
    · exact hsame.symm.trans hget
  obtain ⟨hserves, ⟨k, hk, hlt⟩, -⟩ := inv.pending t.key t hrow hchain hleft.2 n hhas
  rw [hchain] at hk
  obtain rfl := hk.unique hat
  exact hout (hserves.mem_canonicalOf hlt (o.reached t ht) hlogs)

/-- An announcement on time is ahead. -/
theorem announced {chain' : ChainSpec} {m : MatchedTransfer} {t : Transfer} {n : Nat}
    (onTime : (ServerStep.op (.recordPending chain' m)).OnTime chain canon s)
    (honest : Op.Honest chain canon (.recordPending chain' m))
    (hw : Writes s.db (.announce chain'.chainId m) t) (hchain : t.chainId = chain.chainId)
    (hhas : canon.Has t.blockHash t.logIndex n) :
    canon.Serves chain t.blockHash t.logIndex t.blockNumber ∧
      (∃ k, s.db.CursorAt t.chainId k ∧ k < t.blockNumber) ∧
      ∀ tx, s.txs t.chainId = some tx → tx.Heeds t.key t.blockNumber := by
  cases hw with
  | announce fresh found active =>
      obtain ⟨rfl, heard⟩ := honest hchain
      refine ⟨heard.serves hhas, ?_⟩
      rcases onTime rfl (heard.has hhas) with ⟨⟨⟨c, k⟩, hcur, hlt⟩, heeded⟩ | ⟨u, hu⟩ | hin
      · obtain rfl : c = chain'.chainId := Table.key_of_get? hcur
        exact ⟨⟨k, hcur, hlt⟩, heeded⟩
      · rw [fresh] at hu
        contradiction
      · exact absurd active (hin _ found)

/-- **Every honest step that is on time keeps the server on time.** -/
theorem step (inv : Timely chain canon s) (holds : s.Holds) (honest : ∀ op ∈ i.op?, op.Honest chain canon)
    (onTime : i.OnTime chain canon s) : Timely chain canon (s.step i) where
  pending log t ht hchain hp n hhas := by
    obtain rfl : t.key = log := Table.key_of_get? ht
    rcases Server.pending_before ht hp with hold | ⟨chain', m, rfl, hw⟩
    · obtain ⟨hserves, hahead⟩ := inv.pending _ t hold hchain hp n hhas
      exact ⟨hserves, hahead.step holds hold ht hp⟩
    · obtain ⟨hserves, ⟨k, hat, hk⟩, heeded⟩ := announced onTime (honest _ rfl) hw hchain hhas
      have hat' : (GumIndexer.exec s.db (.recordPending chain' m)).CursorAt t.chainId k :=
        exec_cursorAt_of_ne (fun heq => by contradiction) hat
      refine ⟨hserves, ⟨k, ?_, hk⟩, fun tx htx => heeded tx ?_⟩
      · rw [Server.step, Server.runOp]
        split
        · exact hat
        · exact hat'
      · rw [Server.step, Server.runOp] at htx
        split at htx <;> exact htx
  blameless := by
    have hyields := s.step_yields i
    generalize (s.step i).db = db at hyields ⊢
    cases hyields with
    | idle => exact inv.blameless
    | runs _ => exact inv.blameless_exec (honest _ rfl)
    | sweeps tx finish => exact inv.blameless_finish tx finish
    | forwards _ => exact ⟨inv.blameless.rows, inv.blameless.events⟩
  spares c o ho := by
    refine Server.opened_step (P := fun o => ∀ t ∈ o.selected, t.chainId = chain.chainId →
      (t.blockHash, t.logIndex) ∉ o.canonical → ∀ n, ¬ canon.Has t.blockHash t.logIndex n)
      inv.spares (fun chain' cache expectedCursor toBlock logs heq o' hread => ?_) ho
    exact inv.spares_read (honest _ (by rw [heq]; rfl)) hread

end Timely

/-- **Orphaned means not canonical**, in every run with an honest node in
which no canonical transfer is first announced at or below the cursor, or while
a sweep is open that has read past it: neither a row set to `orphaned` nor a
`payment.orphaned` event is about a log of the canonical chain. -/
theorem orphaned_not_canonical (chain : ChainSpec) (canon : Canon) (steps : List ServerStep)
    (honest : ∀ i ∈ steps, ∀ op ∈ i.op?, op.Honest chain canon)
    (onTime : Along Server.step (fun s i => i.OnTime chain canon s) {} steps) :
    (∀ t ∈ (run Server.step {} steps).db.transfers.rows, t.chainId = chain.chainId →
        t.status = .orphaned → ¬ canon.Has t.blockHash t.logIndex t.blockNumber) ∧
      ∀ e ∈ (run Server.step {} steps).db.outbox.rows, e.eventType = .paymentOrphaned →
        e.payload.watch.chainId = chain.chainId →
          ∀ v ∈ e.payload.transfer, ¬ canon.Has v.blockHash v.logIndex v.blockNumber := by
  have inv := invariant_along (fun s : Server => s.Holds ∧ Timely chain canon s)
    (fun s i hi hs hok => ⟨hs.1.step i, hs.2.step hs.1 (honest i hi) hok⟩)
    ⟨Server.holds_run [], .empty⟩ onTime
  exact ⟨fun t ht => inv.2.blameless.rows t.key t (Table.get?_of_mem ht), inv.2.blameless.events⟩

/-! ## A late notification -/

/-- A watch with ten blocks of lookback is registered once the cursor is at
`cursor`, hears of a payment in block 103 and is swept up to block 106. -/
def heardThenSwept (cursor : Nat) (blockHash : B256) : List ServerStep :=
  [.op (.ensureCursor baseChain.chainId cursor),
    .op (.createWatch 1 { watchOrder with headEstimate := 105, lookbackBlocks := 10 }),
    .op (.recordPending baseChain (heardOf blockHash)),
    .select baseChain .new cursor 106
      (lonePayment.getLogs (sweepFilter baseChain (cursor + 1) 106)),
    .commit baseChain.chainId]

theorem heardThenSwept_honest (cursor : Nat) (blockHash : B256) :
    ∀ i ∈ heardThenSwept cursor blockHash, ∀ op ∈ i.op?, op.Honest baseChain lonePayment := by
  have heard : Heard baseChain lonePayment (heardOf blockHash) := by
    intro l hl hhash _
    obtain rfl := List.mem_singleton.mp hl
    obtain rfl : BitVec.ofNat 256 103 = blockHash := Option.some.inj hhash
    decide +kernel
  intro i hi op hop
  simp only [heardThenSwept, List.mem_cons, List.not_mem_nil, or_false] at hi
  rcases hi with rfl | rfl | rfl | rfl | rfl
  · obtain rfl := Option.some.inj hop
    trivial
  · obtain rfl := Option.some.inj hop
    trivial
  · obtain rfl := Option.some.inj hop
    exact fun _ => ⟨rfl, heard⟩
  · obtain rfl := Option.some.inj hop
    exact fun _ => ⟨rfl, fun l => Iff.rfl⟩
  · contradiction

/-- A payment of an abandoned block 103 is orphaned, and rightly so. -/
theorem orphaned_not_canonical_fork :
    ∃ t ∈ (run Server.step {} (heardThenSwept 100 9)).db.transfers.rows, t.status = .orphaned ∧
      ¬ lonePayment.Has t.blockHash t.logIndex t.blockNumber := by
  have hrow : ((run Server.step {} (heardThenSwept 100 9)).db.transfers.get?
      ⟨baseChain.chainId, 9, 0⟩).map (fun t => (t.chainId, t.status)) =
        some (baseChain.chainId, .orphaned) := by decide +kernel
  obtain ⟨t, ht, heq⟩ := Option.map_eq_some_iff.mp hrow
  simp only [Prod.mk.injEq] at heq
  have hmem := Table.mem_of_get? ht
  refine ⟨t, hmem, heq.2, (orphaned_not_canonical baseChain lonePayment (heardThenSwept 100 9)
    (heardThenSwept_honest 100 9) ⟨trivial, trivial, fun _ hhas => ?_, trivial, trivial, trivial⟩).1 t
    hmem heq.1 heq.2⟩
  exact absurd hhas (by decide)

/-- The cursor had passed block 103 when the watch was registered.  Its
backfill is still to come when the canonical payment is announced, and the
next sweep takes the payment for orphaned. -/
theorem late_announcement_orphaned :
    ∃ (chain : ChainSpec) (canon : Canon) (steps : List ServerStep),
      (∀ i ∈ steps, ∀ op ∈ i.op?, op.Honest chain canon) ∧
      (∃ t ∈ (run Server.step {} steps).db.transfers.rows, t.chainId = chain.chainId ∧
        t.status = .orphaned ∧ canon.Has t.blockHash t.logIndex t.blockNumber) ∧
      ∃ e ∈ (run Server.step {} steps).db.outbox.rows, e.eventType = .paymentOrphaned ∧
        e.payload.watch.chainId = chain.chainId ∧
          ∃ v ∈ e.payload.transfer, canon.Has v.blockHash v.logIndex v.blockNumber :=
  ⟨baseChain, lonePayment, heardThenSwept 105 103, heardThenSwept_honest 105 103, by decide +kernel,
    by decide +kernel⟩

end GumIndexer
