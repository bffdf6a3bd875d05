import GumIndexer.Scan

/-!
# GumIndexer.Expiry

Expiry goes by the clock of the database, counting by the depth of the chain.

A payment is `Punctual` if its block is older than the expiry of the watch and
the payments before it leave the threshold open.  Every turn of the sweeper
retires the overdue watches before it looks at the chain, so after an outage a
punctual payment can be behind the expiry of its watch.  `Op.Patient` says when
it is not: no watch is retired while the cursor is below one of its punctual
payments.
-/

namespace GumIndexer

open Base

variable {db db' : Db} {chain : ChainSpec} {canon : Canon} {a : Act} {op : Op} {w : Watch} {id : Uuid}

/-! ## Who retires a watch -/

/-- Neither cancelled nor expired. -/
def Watch.Open (w : Watch) : Prop := w.status = .active ∨ w.status = .completed

/-- The watch under this id, if there is one, is open. -/
def Db.OpenAt (db : Db) (id : Uuid) : Prop := ∀ w, db.watches.get? id = some w → w.Open

/-- A watch stays open if its replacement is. -/
theorem Db.OpenAt.replace {u u' : Watch} (inv : db.OpenAt id) (found : db.watches.get? u.id = some u)
    (hid : u'.id = u.id) (hu : u.id = id → u.Open → u'.Open) :
    ∀ w, (db.watches.replace u').get? id = some w → w.Open := by
  intro w hw
  rcases watch_replace found hid hw with hold | ⟨hold, rfl⟩
  · exact inv w hold
  · exact hu (Table.key_of_get? hold) (inv u hold)

/-- And so over a post. -/
theorem Db.OpenAt.post {u u' : Watch} {type : EventType} {view : Option TransferView}
    {transfers : Table Transfer Transfer.key} (inv : db.OpenAt id)
    (post : Post chain db u u' type view transfers db') (hu : u.id = id → u.Open → u'.Open) :
    db'.OpenAt id := by
  rw [OpenAt, post.watches]
  exact inv.replace post.found post.sameId hu

/-- **Only a cancellation or an expiry of the watch closes it.** -/
theorem Db.OpenAt.step (h : Step db a db') (inv : db.OpenAt id)
    (hcancel : ∀ u, a = .cancel u → u.id ≠ id) (hexpire : ∀ u, a = .expire u → u.id ≠ id) :
    db'.OpenAt id := by
  cases h with
  | register _ _ _ _ insert =>
      intro w hw
      rw [Table.get?_insertNew insert] at hw
      split at hw
      · cases hw
        exact .inl rfl
      · exact inv w hw
  | cancel found _ => exact inv.replace found rfl fun hid => absurd hid (hcancel _ rfl)
  | expire _ post => exact inv.post post fun hid => absurd hid (hexpire _ rfl)
  | announce _ _ _ post => exact inv.post post fun _ hopen => hopen
  | count counts _ =>
      obtain ⟨transfers, -, post⟩ := counts.step
      exact inv.post post fun _ hopen => hopen
  | complete counts _ post =>
      obtain ⟨transfers, -, post₁⟩ := counts.step
      have inv₁ := inv.post post₁ fun _ hopen => hopen
      exact inv₁.post post fun _ _ => .inr rfl
  | ignore _ _ => exact inv
  | orphanRetired _ _ _ => exact inv
  | orphan _ _ _ _ _ _ post => exact inv.post post fun _ hopen => hopen
  | clearBackfill found => exact inv.replace found rfl fun _ hopen => hopen
  | moveCursor watches _ _ _ =>
      rw [OpenAt, watches]
      exact inv
  | other watches _ _ _ _ =>
      rw [OpenAt, watches]
      exact inv

/-- The steps that retire a watch, and the operations that make them. -/
def Act.RetiresBy (db : Db) (op : Op) : Act → Prop
  | .cancel u => op = .cancelWatch u.id
  | .expire u => ∃ chain limit locked, op = .expireWatches chain limit locked ∧
      u ∈ overdueWatches db chain limit locked
  | _ => True

/-- **Who closes a watch unpaid**: a cancellation of it, or an expiry that finds
it overdue. -/
theorem exec_retires (db : Db) (op : Op) :
    ∃ acts, Trace Step db acts (exec db op) ∧ ∀ a ∈ acts, a.RetiresBy db op := by
  obtain ⟨acts, htr, -, hallow⟩ := exec_trace db op
  cases op with
  | cancelWatch id =>
      cases hg : db.watches.get? id with
      | none => exact ⟨[], by simp only [exec, cancelWatch, hg]; exact .nil _, by simp⟩
      | some u =>
          obtain rfl := Table.key_of_get? hg
          by_cases active : u.status = .active
          · refine ⟨[.cancel u], ?_, by simp [Act.RetiresBy]⟩
            simp only [exec, cancelWatch, hg, if_pos active]
            exact .single (.cancel hg active)
          · exact ⟨[], by simp only [exec, cancelWatch, hg, if_neg active]; exact .nil _, by simp⟩
  | expireWatches chain limit locked =>
      cases h : (overdueWatches db chain limit locked).foldlM (expireOne chain) ([], db) with
      | error e =>
          refine ⟨[], ?_, by simp⟩
          simp only [exec, expireWatches, h, committed]
          exact .nil _
      | ok r =>
          refine ⟨(overdueWatches db chain limit locked).map .expire, ?_, fun a ha => ?_⟩
          · simp only [exec, expireWatches, h, committed]
            exact expireAll_trace (lists_overdueWatches db chain limit locked) h
          · obtain ⟨u, hu, rfl⟩ := List.mem_map.mp ha
            exact ⟨chain, limit, locked, rfl, hu⟩
  | _ =>
      refine ⟨acts, htr, fun a ha => ?_⟩
      have hallowed := hallow a ha
      cases a <;> trivial

/-- A watch that is neither cancelled nor found overdue stays open. -/
theorem Db.OpenAt.exec (inv : db.OpenAt id) (hcancel : op ≠ .cancelWatch id)
    (hexpire : ∀ chain limit locked, op = .expireWatches chain limit locked →
      ∀ u ∈ overdueWatches db chain limit locked, u.id ≠ id) : (exec db op).OpenAt id := by
  obtain ⟨acts, htr, hretires⟩ := exec_retires db op
  refine htr.invariant_mem (Db.OpenAt · id) (fun d a d' ha hstep hd => hd.step hstep ?_ ?_) inv
  · rintro u rfl rfl
    exact hcancel (hretires _ ha)
  · rintro u rfl
    obtain ⟨chain, limit, locked, hop, hu⟩ := hretires _ ha
    exact hexpire chain limit locked hop u hu

/-- What is expired is of the chain and past its time. -/
theorem mem_overdueWatches {chain' : ChainSpec} {limit : Nat} {locked : Uuid → Bool}
    (h : w ∈ overdueWatches db chain' limit locked) :
    w.chainId = chain'.chainId ∧ w.expiresAt.any (· ≤ db.now) = true := by
  unfold overdueWatches at h
  have hrow := List.mem_filter.mp ((List.mem_insertionSort _).mp (List.mem_of_mem_take h))
  simp only [decide_eq_true_eq] at hrow
  exact ⟨hrow.2.1, hrow.2.2.2.1⟩

/-! ## Punctual payments -/

/-- A payment to the watch, in a block that is older than its expiry, made
while the payments before it were below the threshold. -/
structure Payment.Punctual (p : Payment) (chain : ChainSpec) (canon : Canon) (time : Nat → Nat)
    (w : Watch) : Prop where
  listed : ∃ pre post, paymentsTo chain canon.logs w w.startBlock p.blockNumber = pre ++ p :: post ∧
    total Payment.units pre < w.threshold
  early : ∀ e ∈ w.expiresAt, time p.blockNumber < e

/-- No watch is expired while one of its punctual payments is above the
cursor. -/
def Op.Patient (chain : ChainSpec) (canon : Canon) (time : Nat → Nat) (db : Db) : Op → Prop
  | .expireWatches chain' limit locked => chain'.chainId = chain.chainId →
      ∀ w ∈ overdueWatches db chain' limit locked, ∀ p : Payment, p.Punctual chain canon time w →
        db.Passed chain.chainId p.blockNumber
  | _ => True

variable {time : Nat → Nat} {p : Payment}

/-- It depends on the columns of the watch only. -/
theorem Payment.Punctual.of_same {w' : Watch} (h : p.Punctual chain canon time w') (hsame : w.Same w') :
    p.Punctual chain canon time w where
  listed := by
    have hlisted := h.listed
    rw [hsame.startBlock, hsame.threshold, paymentsTo_of_same hsame] at hlisted
    exact hlisted
  early := by
    have hearly := h.early
    rw [hsame.expiresAt] at hearly
    exact hearly

/-- A punctual payment is at or after the start block. -/
theorem Payment.Punctual.startBlock_le (h : p.Punctual chain canon time w) :
    w.startBlock ≤ p.blockNumber := by
  obtain ⟨pre, post, heq, -⟩ := h.listed
  have hmem : p ∈ paymentsTo chain canon.logs w w.startBlock p.blockNumber := by simp [heq]
  exact (mem_paymentsTo.mp hmem).2.2.1

/-- The payments before a punctual one, cut at a block below it. -/
theorem Payment.Punctual.cut {k : Nat} (h : p.Punctual chain canon time w) (hk : k < p.blockNumber) :
    ∃ mid post, paymentsTo chain canon.logs w (max w.startBlock (k + 1)) p.blockNumber =
        mid ++ p :: post ∧
      total Payment.units (paymentsTo chain canon.logs w w.startBlock k) +
        total Payment.units mid < w.threshold := by
  obtain ⟨pre, post, heq, hlt⟩ := h.listed
  rw [paymentsTo_split w.startBlock hk.le] at heq
  rcases List.append_eq_append_iff.mp heq with ⟨mid, rfl, hrest⟩ | ⟨ys, hleft, hright⟩
  · rw [total_append] at hlt
    exact ⟨mid, post, hrest, hlt⟩
  · cases ys with
    | nil =>
        rw [List.append_nil] at hleft
        rw [hleft]
        exact ⟨[], post, by simpa using hright.symm, by simpa using hlt⟩
    | cons q ys =>
        -- the payment itself would be at or below the cut
        obtain ⟨rfl, -⟩ := List.cons.inj hright
        have hmem : p ∈ paymentsTo chain canon.logs w w.startBlock k := by simp [hleft]
        have hle := (mem_paymentsTo.mp hmem).2.2.2
        omega

section Runs

variable {ops : List Op} {height : Nat → B256 → Nat}

/-- **A watch is open until the cursor has passed its punctual payments.** -/
theorem open_until_passed (hcancel : .cancelWatch id ∉ ops) (forward : ∀ op ∈ ops, op.Forward)
    (patient : Along exec (fun db op => op.Patient chain canon time db) Db.empty ops) :
    ∀ w, (run exec Db.empty ops).watches.get? id = some w → w.chainId = chain.chainId →
      ∀ p : Payment, p.Punctual chain canon time w →
        ¬ (run exec Db.empty ops).Passed chain.chainId p.blockNumber → w.Open := by
  refine invariant_along (fun db => ∀ w, db.watches.get? id = some w → w.chainId = chain.chainId →
    ∀ p : Payment, p.Punctual chain canon time w → ¬ db.Passed chain.chainId p.blockNumber → w.Open)
    (fun db op hop inv hpatient w' hw' home' p hp hpassed => ?_) (by simp [Db.empty]) patient
  have habove : ¬ db.Passed chain.chainId p.blockNumber := fun h => hpassed (h.exec (forward op hop))
  cases hw : db.watches.get? id with
  | none =>
      obtain ⟨new, cur, -, -, rfl, -⟩ := exec_new_watch hw hw'
      exact .inl rfl
  | some w =>
      obtain rfl := Table.key_of_get? hw
      obtain ⟨v, hv, hlater⟩ := (Db.Retains.of_get? hw).run [op]
      obtain rfl : w' = v := Option.some.inj (hw'.symm.trans hv)
      have home : w.chainId = chain.chainId := hlater.same.chainId.symm.trans home'
      have hpunctual := hp.of_same hlater.same
      have hopen : db.OpenAt w.id := by
        intro u hu
        obtain rfl : w = u := Option.some.inj (hw.symm.trans hu)
        exact inv w hw home p hpunctual habove
      refine hopen.exec (fun heq => hcancel (heq ▸ hop)) ?_ w' hw'
      -- an expiry of the watch would have waited for the payment
      rintro chain' limit locked rfl u hu hid
      obtain rfl : u = w := by
        have hfound := (lists_overdueWatches db chain' limit locked).found u hu
        exact Option.some.inj (hfound.symm.trans (hid ▸ hw))
      exact habove (hpatient ((mem_overdueWatches hu).1.symm.trans home) u hu p hpunctual)

/-- What is counted toward a watch is at most what was paid up to the cursor. -/
theorem confirmedAmount_le {k : Nat} (rightful : (run exec Db.empty ops).Rightful chain canon)
    (hk : (run exec Db.empty ops).CursorAt chain.chainId k)
    (hw : (run exec Db.empty ops).watches.get? w.id = some w) (home : w.chainId = chain.chainId) :
    w.confirmedAmount ≤ total Payment.units (paymentsTo chain canon.logs w w.startBlock k) := by
  have accounts := accounts_run ops
  rw [accounts.totals w.id w hw]
  have hnodup : ((run exec Db.empty ops).credits.filter fun c => c.watchId = w.id).Nodup :=
    (List.Nodup.of_map _ accounts.once).filter _
  calc creditTotal (run exec Db.empty ops).credits w.id
      ≤ total Credit.amount ((paymentsTo chain canon.logs w w.startBlock k).map
          (·.credit chain.chainId w.id)) := total_le_of_subset hnodup fun c hc => ?_
    _ = total Payment.units (paymentsTo chain canon.logs w w.startBlock k) := total_credit _ _ _
  obtain ⟨hmem, hid⟩ := List.mem_filter.mp hc
  obtain ⟨q, hq, hto, hstart, ⟨k', hk', hle⟩, rfl⟩ :=
    rightful c hmem w (by rw [of_decide_eq_true hid]; exact hw) home
  obtain rfl : k' = k := hk'.unique hk
  exact List.mem_map_of_mem (mem_paymentsTo.mpr ⟨hq, hto, hstart, hle⟩)

/-- While a punctual payment is above the cursor, its watch is active, and
what was counted leaves room for it. -/
theorem active_until_passed {k : Nat} (planned : Planned ops) (forward : ∀ op ∈ ops, op.Forward)
    (informed : Along exec (fun db op => op.Informed chain canon db) Db.empty ops)
    (patient : Along exec (fun db op => op.Patient chain canon time db) Db.empty ops)
    (hk : (run exec Db.empty ops).CursorAt chain.chainId k)
    (hw : (run exec Db.empty ops).watches.get? w.id = some w) (home : w.chainId = chain.chainId)
    (hcancel : .cancelWatch w.id ∉ ops) (hp : p.Punctual chain canon time w)
    (habove : k < p.blockNumber) :
    w.status = .active ∧ ∃ mid post,
      paymentsTo chain canon.logs w (max w.startBlock (k + 1)) p.blockNumber = mid ++ p :: post ∧
        w.confirmedAmount + total Payment.units mid < w.threshold := by
  have hle := confirmedAmount_le (rightful_run planned forward informed) hk hw home
  obtain ⟨mid, post, heq, hlt⟩ := hp.cut habove
  refine ⟨?_, mid, post, heq, by omega⟩
  have hpassed : ¬ (run exec Db.empty ops).Passed chain.chainId p.blockNumber := by
    rintro ⟨k', hk', hb⟩
    obtain rfl := hk.unique hk'
    omega
  refine (open_until_passed hcancel forward patient w hw home p hp hpassed).resolve_right fun hdone => ?_
  have hreached := ((retirements_run ops).closed w.id w hw).completed.mp hdone
  omega

/-- A move starts at the cursor, and is that of an applied sweep or of a
fast-forward. -/
theorem movesOf_cases {m : Move} {c : Nat} (hm : m ∈ movesOf c db op) :
    db.CursorAt c m.lo ∧ (m.scanned = false ∨ ∃ chain' cache logs out db',
      op = .applySweep chain' cache m.lo m.hi logs ∧ chain'.chainId = c ∧
        (applySweep db chain' cache m.lo m.hi logs).2 = .ok (.applied out, db')) := by
  unfold movesOf at hm
  split at hm
  · next chain' cache expectedCursor toBlock logs =>
      split at hm
      · next out db' hok =>
          split at hm
          · next hid =>
              rw [List.mem_singleton.mp hm, ← hid]
              refine ⟨?_, .inr ⟨chain', cache, logs, out, db', rfl, rfl, hok⟩⟩
              rcases applySweep_cases db chain' cache expectedCursor toBlock logs with
                ⟨tx, db₁, hcur, -⟩ | ⟨actual, -, he⟩ | he | ⟨e, -, he⟩
              · exact hcur
              all_goals
                rw [he] at hok
                cases hok
          · cases hm
      · cases hm
  · next id target =>
      split at hm
      · next cur cursor _ hcur _ =>
          split at hm
          · next hid =>
              rw [List.mem_singleton.mp hm, ← hid.1]
              refine ⟨?_, .inl rfl⟩
              obtain ⟨c', k⟩ := cur
              obtain rfl : c' = id := Table.key_of_get? hcur
              exact hcur
          · cases hm
      · cases hm
  · cases hm

/-- Watches start above the genesis block. -/
theorem startBlock_pos_run (hw : (run exec Db.empty ops).watches.get? w.id = some w) :
    1 ≤ w.startBlock := by
  obtain ⟨pre, op, post, new, seq, cur, row, rfl, -, hrow, -, hreg⟩ := exists_registration hw
  have hid : row.id = w.id := Table.key_of_get? hreg
  rw [run_append, run_cons] at hw
  rw [← hid] at hreg hw
  obtain ⟨v, hv, hlater⟩ := (Db.Retains.of_get? hreg).run post
  obtain rfl : w = v := Option.some.inj (hw.symm.trans hv)
  rw [hlater.same.startBlock, hrow]
  exact startBlock_pos _ _ _

/-- **No payment is lost to expiry if the expiries are patient.**  In every
run in which they are, whatever moves the cursor over the block of a punctual
payment to a watch that was never cancelled counts the payment toward it. -/
theorem punctual_counted (ops : List Op) (chain : ChainSpec) (canon : Canon) (time : Nat → Nat)
    (height : Nat → B256 → Nat) (planned : Planned ops) (ranged : ∀ op ∈ ops, op.Ranged height)
    (informed : Along exec (fun db op => op.Informed chain canon db) Db.empty ops)
    (patient : Along exec (fun db op => op.Patient chain canon time db) Db.empty ops) :
    ∀ pre op post, ops = pre ++ op :: post → ∀ w ∈ (run exec Db.empty pre).watches.rows,
      w.chainId = chain.chainId → .cancelWatch w.id ∉ ops →
        ∀ p : Payment, p.Punctual chain canon time w →
          ∀ m ∈ movesOf chain.chainId (run exec Db.empty pre) op, m.Covers p.blockNumber →
            p.credit chain.chainId w.id ∈ creditsOf (run exec Db.empty pre) op := by
  rintro pre op post rfl w hmem home hcancel p hp m hm ⟨hlo, hhi⟩
  have hw := Table.get?_of_mem hmem
  rw [along_append] at informed patient
  have hpre : ∀ o ∈ pre, o.Ranged height := fun o ho => ranged o (List.mem_append_left _ ho)
  have hplanned : Planned pre := planned.of_append
  have hnot : .cancelWatch w.id ∉ pre := fun h => hcancel (List.mem_append_left _ h)
  obtain ⟨hat, hcases⟩ := movesOf_cases hm
  obtain ⟨active, mid, rest, heq, hlt⟩ := active_until_passed hplanned (fun o ho => (hpre o ho).forward)
    informed.1 patient.1 hat hw home hnot hp hlo
  rcases hcases with hskipped | ⟨chain', cache, logs, out, db', rfl, hid, hok⟩
  · -- a fast-forward stays below the start block of an active watch
    have hskip := skip_lt_startBlock hmem active (startBlock_pos_run hw) (home.symm ▸ hm) hskipped
    have hstart := hp.startBlock_le
    omega
  · obtain ⟨rfl, -, -⟩ := informed.2.1.2 hid
    have hcredits := (scan_credits hplanned hpre (ranged _ (by simp)) informed.2.1 hok hw home).1
    simp only [creditsOf, hok]
    refine List.mem_of_mem_filter (p := fun c => c.watchId = w.id) ?_
    rw [hcredits, Watch.gets, if_pos active]
    refine List.mem_map_of_mem ?_
    rw [paymentsTo_split _ hhi, heq, List.append_assoc, List.cons_append]
    exact (mem_fill_or_le _ _ mid p _).resolve_right (Nat.not_le_of_lt hlt)

end Runs

/-! ## An outage -/

/-- A watch that expires at the time 50. -/
def expiringWatch : List Op :=
  [.ensureCursor baseChain.chainId 100, .createWatch 1 { watchOrder with expiresAt := some 50 }]

/-- The row of the watch. -/
def expiringRow : Watch := { watchOrder with expiresAt := some 50 }.row 1 1 100 0

/-- The payment to it, in block 103. -/
def paidAt103 : Payment where
  token := usdc
  src := 7
  dst := 9
  amount := 40
  blockNumber := 103
  blockHash := 103
  txHash := BitVec.ofNat 256 (2 ^ 64 * 103)
  logIndex := 0

/-- The sweep over that block. -/
def sweepOf103 : Op := .applySweep baseChain .new 100 106 lonePayment.logs

/-- The block is of the time 40. -/
theorem punctual_paidAt103 : paidAt103.Punctual baseChain lonePayment (fun _ => 40) expiringRow where
  listed := ⟨[], [], by decide +kernel, by decide⟩
  early e he := by
    cases he
    decide

theorem informed_sweepOf103 (hrows : ∀ w ∈ db.watches.rows, 0 < w.seq) :
    sweepOf103.Informed baseChain lonePayment db :=
  ⟨fun key ref h => by contradiction, fun _ => ⟨rfl, by decide +kernel,
    fun w hw _ _ _ _ _ => .inr (hrows w (Table.mem_of_get? hw))⟩⟩

theorem ranged_sweepOf103 : sweepOf103.Ranged fun _ hash => hash.toNat := by
  refine ⟨by decide, fun l hl n hn => ?_⟩
  rw [List.mem_singleton.mp hl] at hn ⊢
  cases hn
  exact ⟨by decide, fun hash hh => by cases hh; decide⟩

/-- Swept before the watch expires, the payment is counted. -/
theorem punctual_counted_in_time :
    paidAt103.credit baseChain.chainId 1 ∈ creditsOf (run exec Db.empty expiringWatch) sweepOf103 := by
  have hranged : ∀ op ∈ expiringWatch ++ [sweepOf103, .tick 60, .expireWatches baseChain 500 fun _ => false],
      op.Ranged fun _ hash => hash.toNat := by
    intro op hop
    simp only [expiringWatch, List.cons_append, List.nil_append, List.mem_cons, List.not_mem_nil,
      or_false] at hop
    rcases hop with rfl | rfl | rfl | rfl | rfl
    · trivial
    · trivial
    · exact ranged_sweepOf103
    · trivial
    · trivial
  have hblocks : ∀ q ∈ paymentsOf baseChain lonePayment.logs, q.blockNumber ≤ 106 := by decide +kernel
  refine punctual_counted _ baseChain lonePayment (fun _ => 40) _
    (planned_of_no_backfill (by simp [expiringWatch, sweepOf103])) hranged
    ⟨trivial, trivial, informed_sweepOf103 (by decide +kernel), trivial, trivial, trivial⟩
    ⟨trivial, trivial, trivial, trivial, fun _ w hw p hp => ?_, trivial⟩
    expiringWatch sweepOf103 _ rfl expiringRow (by decide +kernel) rfl (by simp [expiringWatch, sweepOf103])
    paidAt103 punctual_paidAt103 ⟨true, 100, 106⟩ (by decide +kernel) (by decide)
  -- every payment is in a block the sweep has passed
  obtain ⟨pre, post, heq, -⟩ := hp.listed
  have hmem : p ∈ paymentsTo baseChain lonePayment.logs w w.startBlock p.blockNumber := by simp [heq]
  refine ⟨106, ?_, hblocks p (mem_paymentsTo.mp hmem).1⟩
  unfold Db.CursorAt
  decide +kernel

/-- The sweeper comes back at the time 60, expires the watch, and then sweeps
for another one. -/
def outage : List Op :=
  expiringWatch ++ [.tick 60, .createWatch 2 { watchOrder with paymentAddress := 10 },
    .expireWatches baseChain 500 fun _ => false]

/-- After the outage the sweep passes the block of the payment and does not
count it. -/
theorem punctual_lost_outage :
    Planned (outage ++ [sweepOf103]) ∧
      (∀ op ∈ outage ++ [sweepOf103], op.Ranged fun _ hash => hash.toNat) ∧
      Along exec (fun db op => op.Informed baseChain lonePayment db) Db.empty (outage ++ [sweepOf103]) ∧
      ∃ w ∈ (run exec Db.empty outage).watches.rows, w.chainId = baseChain.chainId ∧
        .cancelWatch w.id ∉ outage ++ [sweepOf103] ∧
        paidAt103.Punctual baseChain lonePayment (fun _ => 40) w ∧
        ∃ m ∈ movesOf baseChain.chainId (run exec Db.empty outage) sweepOf103,
          m.Covers paidAt103.blockNumber ∧
          paidAt103.credit baseChain.chainId w.id ∉ creditsOf (run exec Db.empty outage) sweepOf103 := by
  refine ⟨planned_of_no_backfill (by simp [outage, expiringWatch, sweepOf103]), fun op hop => ?_,
    ⟨trivial, trivial, trivial, trivial, trivial, informed_sweepOf103 (by decide +kernel), trivial⟩,
    expiringRow.retire .expired 60, by decide +kernel, rfl, by simp [outage, expiringWatch, sweepOf103],
    punctual_paidAt103.of_same ⟨rfl, rfl, rfl, rfl, rfl, rfl, rfl, rfl, rfl⟩, ⟨true, 100, 106⟩,
    by decide +kernel, by decide, by decide +kernel⟩
  simp only [outage, expiringWatch, List.cons_append, List.nil_append, List.mem_cons, List.not_mem_nil,
    or_false] at hop
  rcases hop with rfl | rfl | rfl | rfl | rfl | rfl
  · trivial
  · trivial
  · trivial
  · trivial
  · trivial
  · exact ranged_sweepOf103

end GumIndexer
