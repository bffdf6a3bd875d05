import GumIndexer.Tally

/-!
# GumIndexer.Late

Is it all the same when a watch is registered?

`create_watch` gives a watch that is registered late a `backfill_to`, and
`apply_backfill` counts later what the watch has missed.  `Pursuit` is a watch
on a target of its own and what the sweeps do after its registration.  In time
(`Prompt`) the payments are counted in the order of the chain.  Late
(`Belated`) the blocks swept while the watch waits come first, then those of
the backfill, and then the rest.

The threshold makes counting depend on the order: nothing is counted once it is
reached.  `late_registration_iff` is the exact condition under which both
registrations come to the same end, and `backfill_after_completion` a payment
that is counted in time and never late.
-/

namespace GumIndexer

open Base

variable {chain : ChainSpec} {canon : Canon} {db : Db} {op : Op}

/-! ## A watch and the sweeps after its registration -/

/-- The run that registers `row` after `pre` and goes on with `post`. -/
def pursuit (pre : List Op) (new : NewWatch) (row : Watch) (post : List Op) : List Op :=
  pre ++ .createWatch row.id new :: post

section Pursuit

variable {pre post rest : List Op} {new : NewWatch} {row : Watch}

theorem pursuit_append :
    pursuit pre new row (post ++ rest) = pursuit pre new row post ++ rest := by
  simp [pursuit]

theorem run_pursuit_nil :
    run exec Db.empty (pursuit pre new row []) =
      exec (run exec Db.empty pre) (.createWatch row.id new) := by
  rw [pursuit, run_append, run_cons, run_nil]

theorem run_pursuit :
    run exec Db.empty (pursuit pre new row post) =
      run exec (run exec Db.empty (pursuit pre new row [])) post := by
  rw [← run_append, ← pursuit_append, List.nil_append]

theorem run_pursuit_concat :
    run exec Db.empty (pursuit pre new row (post ++ [op])) =
      exec (run exec Db.empty (pursuit pre new row post)) op := by
  rw [pursuit_append, run_append, run_cons, run_nil]

theorem isPrefix_pursuit : pursuit pre new row [] <+: pursuit pre new row post :=
  ⟨post, by rw [← pursuit_append, List.nil_append]⟩

end Pursuit

/-- A watch is registered after `pre`, on a target that has no other watch, and
`post` is what sweeps do then. -/
structure Pursuit (chain : ChainSpec) (canon : Canon) (height : Nat → B256 → Nat) (pre : List Op)
    (new : NewWatch) (row : Watch) (post : List Op) : Prop where
  planned : Planned (pursuit pre new row post)
  ranged : ∀ op ∈ pursuit pre new row post, op.Ranged height
  informed : Along exec (fun db op => op.Informed chain canon db) Db.empty
    (pursuit pre new row post)
  matched : Along exec (fun db op => op.Matched chain canon db) Db.empty (pursuit pre new row post)
  fresh : (run exec Db.empty pre).watches.get? row.id = none
  created : (run exec Db.empty (pursuit pre new row [])).watches.get? row.id = some row
  home : row.chainId = chain.chainId
  lasting : Along exec (fun db _ => row.Lasts db) (run exec Db.empty (pursuit pre new row [])) post
  alone : ∀ u, (run exec Db.empty (pursuit pre new row post)).watches.get? u.id = some u →
    u.Shares row → u.id = row.id
  sweeps : ∀ op ∈ post, op.OfSweep chain
  told : ∀ op ∈ post, op.Told chain canon

namespace Pursuit

variable {height : Nat → B256 → Nat} {pre post rest : List Op} {new : NewWatch} {row : Watch}
  {base : List Payment} {k₀ k : Nat}

/-- No watch has ever shared the target. -/
theorem alone_earlier (P : Pursuit chain canon height pre new row post) {earlier : List Op}
    {u : Watch} (hbefore : earlier <+: pursuit pre new row post)
    (hu : (run exec Db.empty earlier).watches.get? u.id = some u) (hshares : u.Shares row) :
    u.id = row.id := by
  obtain ⟨later, hlater⟩ := hbefore
  obtain ⟨v, hv, hsame⟩ := later_run hu later
  rw [← run_append, hlater, ← hsame.same.id] at hv
  exact hsame.same.id.symm.trans (P.alone v hv ⟨hsame.same.chainId.trans hshares.chainId,
    hsame.same.tokenAddress.trans hshares.tokenAddress,
    hsame.same.paymentAddress.trans hshares.paymentAddress⟩)

theorem of_append (P : Pursuit chain canon height pre new row (post ++ rest)) :
    Pursuit chain canon height pre new row post := by
  have alone : ∀ u, (run exec Db.empty (pursuit pre new row post)).watches.get? u.id = some u →
      u.Shares row → u.id = row.id := fun u hu hshares =>
    P.alone_earlier ⟨rest, pursuit_append.symm⟩ hu hshares
  obtain ⟨planned, ranged, informed, matched, fresh, created, home, lasting, -, sweeps, told⟩ := P
  rw [pursuit_append] at planned ranged informed matched
  rw [along_append] at informed matched lasting
  exact ⟨planned.of_append, fun op hop => ranged op (List.mem_append_left _ hop), informed.1,
    matched.1, fresh, created, home, lasting.1, alone,
    fun op hop => sweeps op (List.mem_append_left _ hop),
    fun op hop => told op (List.mem_append_left _ hop)⟩

theorem registered (P : Pursuit chain canon height pre new row post) :
    ∃ seq cursor, (run exec Db.empty pre).CursorAt chain.chainId cursor ∧
      row = new.row row.id seq cursor (run exec Db.empty pre).now := by
  have hcreated := P.created
  rw [run_pursuit_nil] at hcreated
  obtain ⟨new', seq, cursor, hat, hrow, registers⟩ := exec_new_watch P.fresh hcreated
  obtain ⟨-, rfl⟩ := registers.creates
  have hchain : new.chainId = chain.chainId := by
    rw [← P.home, hrow]
    rfl
  rw [hchain] at hat
  exact ⟨seq, cursor, hat, hrow⟩

theorem threshold_pos (P : Pursuit chain canon height pre new row post) : 0 < row.threshold := by
  obtain ⟨seq, cursor, -, hrow⟩ := P.registered
  have hshort := (sound_run (pursuit pre new row [])).short row.id row P.created (by rw [hrow]; rfl)
  exact Nat.zero_lt_of_lt hshort

theorem startBlock_pos (P : Pursuit chain canon height pre new row post) : 1 ≤ row.startBlock :=
  startBlock_pos_run P.created

/-- The watch stays. -/
theorem kept (P : Pursuit chain canon height pre new row post) :
    ∃ u, (run exec Db.empty (pursuit pre new row post)).watches.get? row.id = some u ∧
      row.Later u := by
  rw [run_pursuit]
  exact later_run P.created post

/-- The registration itself. -/
theorem tallied_start (P : Pursuit chain canon height pre new row post) {cursor : Nat}
    (hat : (run exec Db.empty pre).CursorAt chain.chainId cursor) :
    (run exec Db.empty (pursuit pre new row [])).Tallied chain canon row [] cursor cursor where
  retains := .of_get? P.created
  openAt u hu := by
    obtain rfl : row = u := Option.some.inj (P.created.symm.trans hu)
    obtain ⟨seq, cursor, -, hrow⟩ := P.registered
    exact .inl (by rw [hrow]; rfl)
  cursor := by
    rw [run_pursuit_nil, Db.CursorAt,
      exec_cursors fun h : Op.Allows _ (.createWatch _ _) .moveCursor => h]
    exact hat
  above := Nat.le_refl _
  credits := by
    rw [tally_self, fill_nil, List.map_nil, run_pursuit_nil, credits_exec]
    refine List.filter_eq_nil_iff.mpr fun c hc hid => ?_
    rcases List.mem_append.mp hc with hc | hc
    · obtain ⟨u, hu⟩ := (accounts_run pre).known c hc
      rw [of_decide_eq_true hid, P.fresh] at hu
      contradiction
    · cases hc

/-- A watch that existed earlier is the one that was registered. -/
theorem later_of_earlier (P : Pursuit chain canon height pre new row post) {earlier : List Op}
    {u : Watch} (hbefore : earlier <+: pursuit pre new row post)
    (hu : (run exec Db.empty earlier).watches.get? row.id = some u) : row.Later u := by
  rcases List.prefix_or_prefix_of_prefix hbefore isPrefix_pursuit with hpre | ⟨rest, rfl⟩
  · rcases List.prefix_concat_iff.mp hpre with rfl | ⟨rest, rfl⟩
    · obtain rfl : row = u := Option.some.inj (P.created.symm.trans hu)
      exact .refl row
    · -- before the registration the id was free
      obtain ⟨v, hv, -⟩ := later_run hu rest
      rw [← run_append, P.fresh] at hv
      contradiction
  · obtain ⟨v, hv, hlater⟩ := later_run P.created rest
    rw [← run_append, hu] at hv
    exact Option.some.inj hv ▸ hlater

section Step

variable {cache : WatchCache} {batch : List PendingBackfill} {logs : List Log}
  {b : PendingBackfill}

/-- The batch of a backfill was listed by an earlier state of the store. -/
theorem batch_eq (P : Pursuit chain canon height pre new row
      (post ++ [.applyBackfill chain cache batch logs])) :
    ∃ earlier later limit, pursuit pre new row post = earlier ++ later ∧
      batch = pendingBackfills (run exec Db.empty earlier) chain.chainId limit := by
  obtain ⟨earlier, limit, ⟨later, hlater⟩, hbatch⟩ :=
    P.planned (pursuit pre new row post) chain cache batch logs [] pursuit_append
  exact ⟨earlier, later, limit, hlater.symm, hbatch⟩

/-- An entry of the watch is as it was registered. -/
theorem entry (P : Pursuit chain canon height pre new row
      (post ++ [.applyBackfill chain cache batch logs])) (hb : b ∈ batch) (hid : b.id = row.id) :
    row.backfillTo = some b.backfillTo ∧ b.Of row ∧ b.startBlock = row.startBlock := by
  obtain ⟨earlier, later, limit, hops, rfl⟩ := P.batch_eq
  obtain ⟨u, hu, -, hto, hbu⟩ := mem_pendingBackfills hb
  have hur : u.id = row.id := by
    rw [← hid, hbu]
    rfl
  have hlater := P.of_append.later_of_earlier ⟨later, hops.symm⟩ (hur ▸ hu)
  refine ⟨hlater.backfillTo _ hto, ⟨?_, ?_⟩, ?_⟩
  · rw [hbu, ← hlater.same.tokenAddress]
    rfl
  · rw [hbu, ← hlater.same.paymentAddress]
    rfl
  · rw [hbu, ← hlater.same.startBlock]
    rfl

/-- No other watch of the batch has its target. -/
theorem latest (P : Pursuit chain canon height pre new row
      (post ++ [.applyBackfill chain cache batch logs])) : row.Latest batch := by
  obtain ⟨earlier, later, limit, hops, rfl⟩ := P.batch_eq
  intro b hb htoken hpayment
  obtain ⟨u, hu, home, -, hbu⟩ := mem_pendingBackfills hb
  rw [hbu] at htoken hpayment ⊢
  have hbefore : earlier <+: pursuit pre new row post := ⟨later, hops.symm⟩
  have hur := P.of_append.alone_earlier hbefore hu ⟨home.trans P.home.symm, htoken, hpayment⟩
  exact Nat.le_of_eq (P.of_append.later_of_earlier hbefore (hur ▸ hu)).same.seq

/-- A backfill is told what was paid from the start block on. -/
theorem countable_eq (P : Pursuit chain canon height pre new row
      (post ++ [.applyBackfill chain cache batch logs])) (hb : b ∈ batch) (hid : b.id = row.id)
    (db : Db) :
    countable db chain logs row b.backfillTo =
      (paymentsTo chain canon.logs row row.startBlock b.backfillTo).filter
        fun p => db.Countable (p.logId chain.chainId) := by
  obtain ⟨-, hof, hstart⟩ := P.entry hb hid
  obtain ⟨lo, hi, hspan, fetched⟩ := P.told _ (List.mem_append_right _ List.mem_cons_self)
  have hb' := hspan b hb
  rw [countable, fetched.paymentsTo_eq hb hof hb'.2, ← hstart, Nat.max_eq_left hb'.1]

theorem not_listed (P : Pursuit chain canon height pre new row
      (post ++ [.applyBackfill chain cache batch logs]))
    (h : row.id ∉ batch.map PendingBackfill.id) :
    (creditsOf db (.applyBackfill chain cache batch logs)).filter (fun c => c.watchId = row.id) =
      [] := by
  obtain ⟨earlier, later, limit, -, rfl⟩ := P.batch_eq
  refine creditsOf_unlisted fun m hm hid => h ?_
  obtain ⟨b, hb, hmb, -⟩ := backfillMatches_within hm
  exact List.mem_map.mpr ⟨b, hb, hmb.symm.trans hid⟩

/-- What a backfill that lists the watch counts toward it. -/
theorem backfill_credits (P : Pursuit chain canon height pre new row
      (post ++ [.applyBackfill chain cache batch logs]))
    (h : (run exec Db.empty (pursuit pre new row post)).Tallied chain canon row
      base k₀ k) (hb : b ∈ batch) (hid : b.id = row.id) {out : SweepOutcome} {db' : Db}
    (hok : (applyBackfill (run exec Db.empty (pursuit pre new row post)) chain cache
      batch logs).2 = .ok (out, db')) :
    (creditsOf (run exec Db.empty (pursuit pre new row post))
        (.applyBackfill chain cache batch logs)).filter (fun c => c.watchId = row.id) =
      (fill Payment.units row.threshold (total Payment.units (row.tally chain canon base k₀ k))
        ((paymentsTo chain canon.logs row row.startBlock b.backfillTo).filter fun p =>
          (run exec Db.empty (pursuit pre new row post)).Countable
            (p.logId chain.chainId))).map (·.credit chain.chainId row.id) := by
  obtain ⟨lo, hi, -, fetched⟩ := P.told _ (List.mem_append_right _ List.mem_cons_self)
  rw [← P.countable_eq hb hid]
  have latest := P.latest
  obtain ⟨earlier, later, limit, hops, rfl⟩ := P.batch_eq
  rw [hops, run_append] at h hok ⊢
  exact h.listed fetched.once hb hid latest hok

end Step

theorem lasts (P : Pursuit chain canon height pre new row (post ++ [op])) :
    row.Lasts (run exec Db.empty (pursuit pre new row post)) := by
  rw [run_pursuit]
  exact ((along_append _ _ _).mp P.lasting).2.1

/-- **A step of a sweep goes on with the tally**, a backfill that counts for
the watch apart. -/
theorem step (P : Pursuit chain canon height pre new row (post ++ [op]))
    (h : (run exec Db.empty (pursuit pre new row post)).Tallied chain canon row base k₀ k)
    (quiet : ∀ cache batch logs, op = .applyBackfill chain cache batch logs →
      (creditsOf (run exec Db.empty (pursuit pre new row post)) op).filter
        (fun c => c.watchId = row.id) = []) :
    ∃ k', (run exec Db.empty (pursuit pre new row (post ++ [op]))).Tallied chain
      canon row base k₀ k' := by
  have hop := P.sweeps op (List.mem_append_right _ List.mem_cons_self)
  have hlasts := P.lasts
  have hpos := P.startBlock_pos
  obtain ⟨planned, ranged, informed, -, -, -, home, -, -, -, -⟩ := P
  rw [pursuit_append] at planned ranged informed
  rw [along_append] at informed
  rw [run_pursuit_concat]
  cases op with
  | expireWatches chain' limit locked =>
      exact ⟨k, h.still hop hlasts
        (exec_cursors fun h : Op.Allows _ (.expireWatches _ _ _) .moveCursor => h) rfl⟩
  | fastForwardCursor c target =>
      obtain rfl : c = chain.chainId := hop
      exact h.forward home hlasts hpos
  | applySweep chain' cache cursor toBlock logs =>
      obtain rfl : chain' = chain := hop
      exact h.sweep planned.of_append (fun op hop => ranged op (List.mem_append_left _ hop))
        (ranged _ (List.mem_append_right _ List.mem_cons_self)) informed.2.1 home hlasts
  | applyBackfill chain' cache batch logs =>
      obtain rfl : chain' = chain := hop
      exact ⟨k, h.still rfl hlasts (backfill_cursors _ _ _ _ _) (quiet cache batch logs rfl)⟩
  | tick elapsed => exact ⟨k, h.still trivial hlasts rfl rfl⟩
  | _ => exact hop.elim

/-- **A watch that awaits no backfill** gets the payments above the cursor it
was registered at. -/
theorem timely (P : Pursuit chain canon height pre new row post) (hnone : row.backfillTo = none)
    {cursor : Nat} (hat : (run exec Db.empty pre).CursorAt chain.chainId cursor) :
    ∃ k, (run exec Db.empty (pursuit pre new row post)).Tallied chain canon row [] cursor k := by
  induction post using List.reverseRecOn with
  | nil => exact ⟨cursor, P.tallied_start hat⟩
  | append_singleton post op ih =>
      obtain ⟨k, h⟩ := ih P.of_append
      refine P.step h ?_
      rintro cache batch logs rfl
      refine P.not_listed fun hmem => ?_
      obtain ⟨b, hb, hid⟩ := List.mem_map.mp hmem
      rw [(P.entry hb hid).1] at hnone
      contradiction

/-! ## A watch that awaits a backfill -/

/-- Before the registration no payment to the target was recorded. -/
theorem unrecorded_start (P : Pursuit chain canon height pre new row post) {p : Payment}
    (hp : p ∈ paymentsOf chain canon.logs) (hto : p.To row) :
    (run exec Db.empty (pursuit pre new row [])).transfers.get? (p.logId chain.chainId) = none := by
  refine Option.eq_none_iff_forall_ne_some.mpr fun t ht => ?_
  rw [run_pursuit_nil] at ht
  have planned := P.planned
  have informed := P.informed
  have matched := P.matched
  rw [pursuit] at planned informed matched
  rw [along_append] at informed matched
  rcases exec_row_cases ht with ⟨t₀, ht₀, -⟩ | ⟨c, m, hallows, -⟩
  · obtain ⟨u, hu, home, hu'⟩ := aimed_run planned.of_append informed.1 matched.1 p hp t₀ ht₀
    have hid : u.id = t₀.watchId := Table.key_of_get? hu
    rw [← hid] at hu
    rw [P.alone_earlier (List.prefix_append _ _) hu ⟨home.trans P.home.symm, hu'.1.symm.trans hto.1,
      hu'.2.symm.trans hto.2⟩, P.fresh] at hu
    contradiction
  · exact hallows.elim (fun h => h.elim) (fun h => h.elim)

/-- A payment to the target is recorded when it is counted toward the watch. -/
theorem recorded (P : Pursuit chain canon height pre new row (post ++ [op])) {p : Payment}
    (hp : p ∈ paymentsOf chain canon.logs) (hto : p.To row)
    (hnone : (run exec Db.empty (pursuit pre new row post)).transfers.get?
      (p.logId chain.chainId) = none) {t : Transfer}
    (ht : (exec (run exec Db.empty (pursuit pre new row post)) op).transfers.get?
      (p.logId chain.chainId) = some t) :
    ∃ m, op.Allows (run exec Db.empty (pursuit pre new row post))
      (.count chain.chainId m) ∧ m.watch.id = row.id ∧ m.blockNumber = p.blockNumber := by
  rcases exec_row_cases ht with ⟨t₀, ht₀, -⟩ | ⟨c, m, hallows, hlog, -⟩
  · rw [hnone] at ht₀
    contradiction
  · obtain rfl : chain.chainId = c := congrArg LogId.chainId hlog
    rcases hallows with hannounce | hcount
    · -- sweeps announce nothing
      have hop := P.sweeps op (List.mem_append_right _ List.mem_cons_self)
      cases op with
      | recordPending _ _ => exact hop.elim
      | _ => exact hannounce.elim
    · have planned := P.planned
      have informed := P.informed
      rw [pursuit_append] at planned informed
      rw [along_append] at informed
      obtain ⟨hblock, u, hu, home, hu'⟩ := hcount.aimed planned informed.2.1 hp hlog
      have hid : u.id = m.watch.id := Table.key_of_get? hu
      rw [← hid] at hu
      exact ⟨m, hcount, hid ▸ P.alone_earlier ⟨_, pursuit_append.symm⟩ hu
        ⟨home.trans P.home.symm, hu'.1.symm.trans hto.1, hu'.2.symm.trans hto.2⟩, hblock⟩

/-- A backfill fails, or the watches of its batch no longer await one. -/
theorem backfill_cases {cache : WatchCache} {batch : List PendingBackfill} {logs : List Log}
    (P : Pursuit chain canon height pre new row (post ++ [.applyBackfill chain cache batch logs]))
    {u u' : Watch}
    (hu : (run exec Db.empty (pursuit pre new row post)).watches.get? row.id = some u)
    (hu' : (exec (run exec Db.empty (pursuit pre new row post))
      (.applyBackfill chain cache batch logs)).watches.get? row.id = some u') :
    (u' = u ∧ ∃ e, (applyBackfill (run exec Db.empty (pursuit pre new row post)) chain cache batch
        logs).2 = .error e) ∨
      u'.backfillTo = (if row.id ∈ batch.map PendingBackfill.id then none else u.backfillTo) ∧
        ∃ out db', (applyBackfill (run exec Db.empty (pursuit pre new row post)) chain cache batch
          logs).2 = .ok (out, db') := by
  cases hok : (applyBackfill (run exec Db.empty (pursuit pre new row post)) chain cache batch
    logs).2 with
  | error e =>
      simp only [exec, hok, committed] at hu'
      exact .inl ⟨Option.some.inj (hu'.symm.trans hu), e, rfl⟩
  | ok r =>
      obtain ⟨out, db'⟩ := r
      obtain ⟨lo, hi, -, fetched⟩ := P.told _ (List.mem_append_right _ List.mem_cons_self)
      have hid : u.id = row.id := Table.key_of_get? hu
      obtain ⟨-, w', hw', hto⟩ := backfill_watch (sound_run _) fetched.once
        (by rw [hid]; exact hu) hok
      simp only [exec, hok, committed] at hu'
      rw [hid] at hw' hto
      obtain rfl : w' = u' := Option.some.inj (hw'.symm.trans hu')
      exact .inr ⟨hto, out, db', rfl⟩

/-- A backfill that leaves the watch waiting has failed or is not for it. -/
theorem backfill_waits {cache : WatchCache} {batch : List PendingBackfill} {logs : List Log}
    (P : Pursuit chain canon height pre new row (post ++ [.applyBackfill chain cache batch logs]))
    {u : Watch} (hu : (exec (run exec Db.empty (pursuit pre new row post))
      (.applyBackfill chain cache batch logs)).watches.get? row.id = some u)
    (waits : u.backfillTo.isSome) :
    row.id ∉ batch.map PendingBackfill.id ∨
      ∃ e, (applyBackfill (run exec Db.empty (pursuit pre new row post)) chain cache batch
        logs).2 = .error e := by
  obtain ⟨u₀, hu₀, -⟩ := P.of_append.kept
  rcases P.backfill_cases hu₀ hu with ⟨-, herror⟩ | ⟨hto, -⟩
  · exact .inr herror
  · refine .inl fun hlisted => ?_
    rw [if_pos hlisted] at hto
    rw [hto] at waits
    contradiction

/-- What is at or below the cursor stays unrecorded while the watch waits. -/
theorem unrecorded_step (P : Pursuit chain canon height pre new row (post ++ [op]))
    (hcursor : (run exec Db.empty (pursuit pre new row post)).CursorAt chain.chainId k) {u : Watch}
    (hu : (exec (run exec Db.empty (pursuit pre new row post)) op).watches.get?
      row.id = some u) (waits : u.backfillTo.isSome) {p : Payment}
    (hp : p ∈ paymentsOf chain canon.logs) (hto : p.To row) (hle : p.blockNumber ≤ k)
    (hnone : (run exec Db.empty (pursuit pre new row post)).transfers.get?
      (p.logId chain.chainId) = none) :
    (exec (run exec Db.empty (pursuit pre new row post)) op).transfers.get?
      (p.logId chain.chainId) = none := by
  refine Option.eq_none_iff_forall_ne_some.mpr fun t ht => ?_
  obtain ⟨m, hallows, hid, hblock⟩ := P.recorded hp hto hnone ht
  have hop := P.sweeps op (List.mem_append_right _ List.mem_cons_self)
  have hranged := P.ranged op (pursuit_append ▸ List.mem_append_right _ List.mem_cons_self)
  cases op with
  | applySweep chain' cache expected toBlock logs =>
      obtain rfl : chain' = chain := hop
      rcases applySweep_cases (run exec Db.empty (pursuit pre new row post)) chain'
        cache expected toBlock logs with ⟨tx, -, hcur, -⟩ | ⟨actual, -, he⟩ | he | ⟨e, -, he⟩
      · -- the blocks of a sweep are above the cursor
        obtain rfl : expected = k := Db.CursorAt.unique hcur hcursor
        obtain ⟨l, hl, -, hmatch⟩ := mem_matchedOf_log.mp (mem_sweepMatches.mp hallows.2)
        have habove := (hranged.2 l hl _ (matchLog_place hmatch).1).1.1
        omega
      all_goals
        simp only [exec, he, committed] at ht
        rw [hnone] at ht
        contradiction
  | applyBackfill chain' cache batch logs =>
      obtain rfl : chain' = chain := hop
      rcases P.backfill_waits hu waits with hnot | ⟨e, he⟩
      · obtain ⟨earlier, later, limit, -, rfl⟩ := P.batch_eq
        obtain ⟨b, hb, hmb, -⟩ := backfillMatches_within hallows.2
        exact hnot (List.mem_map.mpr ⟨b, hb, hmb.symm.trans hid⟩)
      · simp only [exec, he, committed] at ht
        rw [hnone] at ht
        contradiction
  | _ => exact hallows.elim

/-- **While the watch waits for its backfill**, the payments above the cursor
are counted, and those the backfill is for are not touched. -/
theorem waiting (P : Pursuit chain canon height pre new row post) {cursor : Nat}
    (hat : (run exec Db.empty pre).CursorAt chain.chainId cursor) {u : Watch}
    (hu : (run exec Db.empty (pursuit pre new row post)).watches.get? row.id =
      some u) (waits : u.backfillTo.isSome) :
    (∃ k, (run exec Db.empty (pursuit pre new row post)).Tallied chain canon row [] cursor k) ∧
      ∀ p ∈ paymentsTo chain canon.logs row row.startBlock cursor,
        (run exec Db.empty (pursuit pre new row post)).transfers.get?
          (p.logId chain.chainId) = none := by
  induction post using List.reverseRecOn generalizing u with
  | nil =>
      refine ⟨⟨cursor, P.tallied_start hat⟩, fun p hp => ?_⟩
      obtain ⟨hp, hto, -⟩ := mem_paymentsTo.mp hp
      exact P.unrecorded_start hp hto
  | append_singleton post op ih =>
      rw [run_pursuit_concat] at hu
      -- it was waiting before
      obtain ⟨u₀, hu₀, -⟩ := P.of_append.kept
      obtain ⟨v, hv, hlater⟩ := later_run hu₀ [op]
      obtain rfl : v = u := Option.some.inj (hv.symm.trans hu)
      obtain ⟨upTo, hupTo⟩ := Option.isSome_iff_exists.mp waits
      obtain ⟨⟨k, h⟩, hnone⟩ := ih P.of_append hu₀ (by rw [hlater.backfillTo upTo hupTo]; rfl)
      refine ⟨P.step h ?_, fun p hp => ?_⟩
      · rintro cache batch logs rfl
        rcases P.backfill_waits hu waits with hnot | ⟨e, he⟩
        · exact P.not_listed hnot
        · simp only [creditsOf, he, List.filter_nil]
      · have hunrecorded := hnone p hp
        obtain ⟨hp, hto, -, hle⟩ := mem_paymentsTo.mp hp
        rw [run_pursuit_concat]
        exact P.unrecorded_step h.cursor hu waits hp hto (hle.trans h.above) hunrecorded

/-! ## The backfill -/

section Applied

variable {cache : WatchCache} {batch : List PendingBackfill} {logs : List Log} {cursor : Nat}

/-- A backfill is for the blocks up to the cursor of the registration. -/
theorem backfillTo_eq (P : Pursuit chain canon height pre new row post)
    (hat : (run exec Db.empty pre).CursorAt chain.chainId cursor) :
    row.backfillTo = if row.startBlock ≤ cursor then some cursor else none := by
  obtain ⟨seq, cursor', hat', hrow⟩ := P.registered
  obtain rfl : cursor' = cursor := Db.CursorAt.unique hat' hat
  rw [hrow]
  rfl

theorem entry_backfillTo (P : Pursuit chain canon height pre new row
      (post ++ [.applyBackfill chain cache batch logs]))
    (hat : (run exec Db.empty pre).CursorAt chain.chainId cursor) {b : PendingBackfill}
    (hb : b ∈ batch) (hid : b.id = row.id) : b.backfillTo = cursor := by
  have hto := (P.entry hb hid).1
  rw [P.backfillTo_eq hat] at hto
  split at hto
  · exact (Option.some.inj hto).symm
  · contradiction

/-- **The backfill is counted after what was swept while the watch waited.** -/
theorem applied (P : Pursuit chain canon height pre new row
      (post ++ [.applyBackfill chain cache batch logs]))
    (hat : (run exec Db.empty pre).CursorAt chain.chainId cursor) {u u' : Watch}
    (hu : (run exec Db.empty (pursuit pre new row post)).watches.get? row.id =
      some u) (waits : u.backfillTo.isSome)
    (hu' : (run exec Db.empty (pursuit pre new row
      (post ++ [.applyBackfill chain cache batch logs]))).watches.get? row.id = some u')
    (hdone : u'.backfillTo = none)
    (hk : (run exec Db.empty (pursuit pre new row post)).CursorAt chain.chainId k) :
    (run exec Db.empty (pursuit pre new row
      (post ++ [.applyBackfill chain cache batch logs]))).Tallied chain canon row
        (paymentsTo chain canon.logs row (max row.startBlock (cursor + 1)) k ++
          paymentsTo chain canon.logs row row.startBlock cursor) k k := by
  obtain ⟨⟨k', h⟩, hnone⟩ := P.of_append.waiting hat hu waits
  obtain rfl : k' = k := Db.CursorAt.unique h.cursor hk
  rw [run_pursuit_concat] at hu' ⊢
  rcases P.backfill_cases hu hu' with ⟨rfl, -⟩ | ⟨hto, out, db', hok⟩
  · rw [hdone] at waits
    contradiction
  · -- the watch is done, so it was in the batch
    have hlisted : row.id ∈ batch.map PendingBackfill.id := by
      by_contra hnot
      rw [if_neg hnot, hdone] at hto
      rw [← hto] at waits
      contradiction
    obtain ⟨b, hb, hbid⟩ := List.mem_map.mp hlisted
    have hcountable : (paymentsTo chain canon.logs row row.startBlock cursor).filter (fun p =>
        (run exec Db.empty (pursuit pre new row post)).Countable (p.logId chain.chainId)) =
          paymentsTo chain canon.logs row row.startBlock cursor := by
      refine List.filter_eq_self.mpr fun p hp => decide_eq_true fun t ht => ?_
      rw [hnone p hp] at ht
      contradiction
    have hcredits := P.backfill_credits h hb hbid hok
    rw [P.entry_backfillTo hat hb hbid, hcountable] at hcredits
    refine h.add rfl P.lasts ?_ (Nat.le_refl k') hcredits ?_
    · rw [Db.CursorAt, backfill_cursors]
      exact hk
    · rw [tally_self, fill_append, Nat.zero_add]
      rfl

/-- **A second backfill of the watch counts nothing.** -/
theorem again (P : Pursuit chain canon height pre new row
      (post ++ [.applyBackfill chain cache batch logs]))
    (hat : (run exec Db.empty pre).CursorAt chain.chainId cursor)
    (h : (run exec Db.empty (pursuit pre new row post)).Tallied chain canon row
      base k₀ k) (hbase : paymentsTo chain canon.logs row row.startBlock cursor ⊆ base) :
    (creditsOf (run exec Db.empty (pursuit pre new row post))
      (.applyBackfill chain cache batch logs)).filter (fun c => c.watchId = row.id) = [] := by
  by_cases hlisted : row.id ∈ batch.map PendingBackfill.id
  · cases hok : (applyBackfill (run exec Db.empty (pursuit pre new row post)) chain
      cache batch logs).2 with
    | error e => simp only [creditsOf, hok, List.filter_nil]
    | ok r =>
        obtain ⟨out, db'⟩ := r
        obtain ⟨b, hb, hbid⟩ := List.mem_map.mp hlisted
        rw [P.backfill_credits h hb hbid hok, P.entry_backfillTo hat hb hbid]
        rcases tally_cases row chain canon base k₀ k with hall | hfull
        · -- everything the backfill is for has been counted
          have hcounted : ∀ p ∈ paymentsTo chain canon.logs row row.startBlock cursor,
              ¬ (run exec Db.empty (pursuit pre new row post)).Countable
                (p.logId chain.chainId) := by
            intro p hp hc
            refine hc.not_confirmed (((accounts_run _).confirmed _).mp ?_)
            have hmem : p ∈ row.tally chain canon base k₀ k := by
              rw [hall]
              exact List.mem_append_left _ (hbase hp)
            exact List.mem_map.mpr ⟨_, h.mem_credits hmem, rfl⟩
          rw [List.filter_eq_nil_iff.mpr fun p hp hc => hcounted p hp (of_decide_eq_true hc)]
          rfl
        · rw [fill_of_le hfull]
          rfl
  · exact P.not_listed hlisted

/-- **A watch that awaits a backfill** gets the payments of the blocks that were
swept while it waited, then those of the backfill, and then the others. -/
theorem late (P : Pursuit chain canon height pre new row
      (post ++ [.applyBackfill chain cache batch logs] ++ rest))
    (hat : (run exec Db.empty pre).CursorAt chain.chainId cursor) {u u' : Watch}
    (hu : (run exec Db.empty (pursuit pre new row post)).watches.get? row.id =
      some u) (waits : u.backfillTo.isSome)
    (hu' : (run exec Db.empty (pursuit pre new row
      (post ++ [.applyBackfill chain cache batch logs]))).watches.get? row.id = some u')
    (hdone : u'.backfillTo = none)
    (hk : (run exec Db.empty (pursuit pre new row post)).CursorAt chain.chainId k) :
    ∃ k', (run exec Db.empty (pursuit pre new row
      (post ++ [.applyBackfill chain cache batch logs] ++ rest))).Tallied chain canon row
        (paymentsTo chain canon.logs row (max row.startBlock (cursor + 1)) k ++
          paymentsTo chain canon.logs row row.startBlock cursor) k k' := by
  induction rest using List.reverseRecOn with
  | nil =>
      rw [List.append_nil] at P ⊢
      exact ⟨k, P.applied hat hu waits hu' hdone hk⟩
  | append_singleton rest op ih =>
      rw [← List.append_assoc (post ++ _)] at P ⊢
      obtain ⟨k', h⟩ := ih P.of_append
      refine P.step h ?_
      rintro cache batch logs rfl
      exact P.again hat h (List.subset_append_right _ _)

end Applied

end Pursuit

/-! ## In time and late -/

/-- The log was counted toward the watch. -/
def Db.CountedFor (db : Db) (id : Uuid) (log : LogId) : Prop :=
  ∃ c ∈ db.credits, c.watchId = id ∧ c.log = log

/-- The watch `id` of one store and the watch `id'` of another have come to the
same end. -/
structure SameOutcome (db : Db) (id : Uuid) (db' : Db) (id' : Uuid) : Prop where
  status : (db.watches.get? id).map Watch.status = (db'.watches.get? id').map Watch.status
  confirmedAmount : (db.watches.get? id).map Watch.confirmedAmount =
    (db'.watches.get? id').map Watch.confirmedAmount
  counted : ∀ log, db.CountedFor id log ↔ db'.CountedFor id' log

section Outcome

variable {row row' : Watch} {base base' : List Payment} {k₀ k k₀' k' : Nat} {ops ops' : List Op}

theorem Db.Tallied.countedFor_iff {log : LogId} (h : db.Tallied chain canon row base k₀ k) :
    db.CountedFor row.id log ↔
      ∃ p ∈ row.tally chain canon base k₀ k, p.logId chain.chainId = log := by
  constructor
  · rintro ⟨c, hc, hid, hlog⟩
    have hmem : c ∈ db.credits.filter fun c => c.watchId = row.id :=
      List.mem_filter.mpr ⟨hc, decide_eq_true hid⟩
    rw [h.credits] at hmem
    obtain ⟨p, hp, rfl⟩ := List.mem_map.mp hmem
    exact ⟨p, hp, hlog⟩
  · rintro ⟨p, hp, hlog⟩
    exact ⟨_, h.mem_credits hp, rfl, hlog⟩

theorem Db.Tallied.nodup (h : db.Tallied chain canon row base k₀ k) (accounts : Accounts db) :
    (row.tally chain canon base k₀ k).Nodup := by
  have hnodup : ((db.credits.filter fun c => c.watchId = row.id).map Credit.log).Nodup :=
    accounts.once.sublist (List.filter_sublist.map _)
  rw [h.credits, List.map_map] at hnodup
  exact hnodup.of_map

/-- The tally decides how far the watch is. -/
theorem Db.Tallied.status (h : (run exec Db.empty ops).Tallied chain canon row base k₀ k) :
    ((run exec Db.empty ops).watches.get? row.id).map Watch.status =
      some (if row.threshold ≤ total Payment.units (row.tally chain canon base k₀ k) then .completed
        else .active) := by
  obtain ⟨u, hu, hlater⟩ := h.retains
  have hdone := ((retirements_run ops).closed row.id u hu).completed
  rw [h.amount (accounts_run ops) hu, hlater.same.threshold] at hdone
  rw [hu, Option.map_some]
  split
  · next hreached => rw [hdone.mpr hreached]
  · next hshort =>
      rw [(h.openAt u hu).resolve_right fun hcompleted => hshort (hdone.mp hcompleted)]

theorem Db.Tallied.confirmedAmount (h : (run exec Db.empty ops).Tallied chain canon row base k₀ k) :
    ((run exec Db.empty ops).watches.get? row.id).map Watch.confirmedAmount =
      some (total Payment.units (row.tally chain canon base k₀ k)) := by
  obtain ⟨u, hu, -⟩ := h.retains
  rw [hu, Option.map_some, h.amount (accounts_run ops) hu]

theorem mem_paymentsOf_of_mem_tally {p : Payment} (hbase : base ⊆ paymentsOf chain canon.logs)
    (hp : p ∈ row.tally chain canon base k₀ k) : p ∈ paymentsOf chain canon.logs := by
  rcases List.mem_append.mp ((isPrefix_fill _ _ _).subset hp) with hp | hp
  · exact hbase hp
  · exact (mem_paymentsTo.mp hp).1

/-- **Watches with the same threshold end the same when they have counted the
same payments.** -/
theorem sameOutcome_iff (h : (run exec Db.empty ops).Tallied chain canon row base k₀ k)
    (h' : (run exec Db.empty ops').Tallied chain canon row' base' k₀' k')
    (hthreshold : row'.threshold = row.threshold) (hbase : base ⊆ paymentsOf chain canon.logs)
    (hbase' : base' ⊆ paymentsOf chain canon.logs) :
    SameOutcome (run exec Db.empty ops) row.id (run exec Db.empty ops') row'.id ↔
      ∀ p, p ∈ row.tally chain canon base k₀ k ↔ p ∈ row'.tally chain canon base' k₀' k' := by
  constructor
  · intro same p
    have hcounted := same.counted (p.logId chain.chainId)
    rw [h.countedFor_iff, h'.countedFor_iff] at hcounted
    constructor
    · intro hp
      obtain ⟨q, hq, hlog⟩ := hcounted.mp ⟨p, hp, rfl⟩
      rwa [← canon.payment_inj (mem_paymentsOf_of_mem_tally hbase' hq)
        (mem_paymentsOf_of_mem_tally hbase hp) hlog]
    · intro hp
      obtain ⟨q, hq, hlog⟩ := hcounted.mpr ⟨p, hp, rfl⟩
      rwa [← canon.payment_inj (mem_paymentsOf_of_mem_tally hbase hq)
        (mem_paymentsOf_of_mem_tally hbase' hp) hlog]
  · intro hmem
    have hperm := (List.perm_ext_iff_of_nodup (h.nodup (accounts_run ops))
      (h'.nodup (accounts_run ops'))).mpr hmem
    have htotal : total Payment.units (row.tally chain canon base k₀ k) =
        total Payment.units (row'.tally chain canon base' k₀' k') := (hperm.map _).sum_eq
    refine ⟨?_, ?_, fun log => ?_⟩
    · rw [h.status, h'.status, htotal, hthreshold]
    · rw [h.confirmedAmount, h'.confirmedAmount, htotal]
    · rw [h.countedFor_iff, h'.countedFor_iff]
      exact exists_congr fun p => and_congr_left' (hmem p)

end Outcome

/-- The watch is registered before any block from its start block on is swept,
and then swept up to `target`. -/
structure Prompt (chain : ChainSpec) (canon : Canon) (height : Nat → B256 → Nat) (pre : List Op)
    (new : NewWatch) (row : Watch) (post : List Op) (target : Nat) : Prop extends
    Pursuit chain canon height pre new row post where
  ahead : ∃ cursor, (run exec Db.empty pre).CursorAt chain.chainId cursor ∧ cursor < row.startBlock
  reaches : (run exec Db.empty (pursuit pre new row post)).CursorAt chain.chainId target

/-- The watch is registered when the cursor is at `cursor`, with a lookback that
reaches below it. It waits until the backfill `fetch` is applied at `reached`,
and is swept up to `target`. -/
structure Belated (chain : ChainSpec) (canon : Canon) (height : Nat → B256 → Nat) (pre : List Op)
    (new : NewWatch) (row : Watch) (mid : List Op) (fetch : Op) (rest : List Op)
    (cursor reached target : Nat) : Prop extends
    Pursuit chain canon height pre new row (mid ++ [fetch] ++ rest) where
  behind : (run exec Db.empty pre).CursorAt chain.chainId cursor ∧ row.startBlock ≤ cursor
  backfill : ∃ cache batch logs, fetch = .applyBackfill chain cache batch logs
  waits : ∃ u, (run exec Db.empty (pursuit pre new row mid)).watches.get? row.id =
    some u ∧ u.backfillTo = some cursor
  served : ∃ u, (run exec Db.empty (pursuit pre new row (mid ++ [fetch]))).watches.get?
    row.id = some u ∧ u.backfillTo = none
  reached : (run exec Db.empty (pursuit pre new row mid)).CursorAt chain.chainId reached
  reaches : (run exec Db.empty (pursuit pre new row (mid ++ [fetch] ++ rest))).CursorAt
    chain.chainId target

section Runs

variable {height height' : Nat → B256 → Nat} {pre pre' post mid rest : List Op} {fetch : Op}
  {new new' : NewWatch} {row row' : Watch} {cursor reached target : Nat}

/-- In time, payments are counted in the order of the chain. -/
theorem Prompt.tallied (h : Prompt chain canon height pre new row post target) :
    ∃ k₀, (run exec Db.empty (pursuit pre new row post)).Tallied chain canon row [] k₀ target ∧
      row.tally chain canon [] k₀ target = fill Payment.units row.threshold 0
        (paymentsTo chain canon.logs row row.startBlock target) := by
  obtain ⟨k₀, hat, hlt⟩ := h.ahead
  have hnone : row.backfillTo = none := by rw [h.backfillTo_eq hat, if_neg (by omega)]
  obtain ⟨k, htallied⟩ := h.timely hnone hat
  obtain rfl : k = target := Db.CursorAt.unique htallied.cursor h.reaches
  refine ⟨k₀, htallied, ?_⟩
  rw [Watch.tally, List.nil_append, Nat.max_eq_left (by omega)]

/-- Late, those of the backfill come after those swept in the meantime. -/
theorem Belated.tallied
    (h : Belated chain canon height pre new row mid fetch rest cursor reached target) :
    cursor ≤ reached ∧
      (run exec Db.empty (pursuit pre new row (mid ++ [fetch] ++ rest))).Tallied chain
        canon row (paymentsTo chain canon.logs row (max row.startBlock (cursor + 1)) reached ++
          paymentsTo chain canon.logs row row.startBlock cursor) reached target := by
  obtain ⟨hat, -⟩ := h.behind
  obtain ⟨u, hu, hwaits⟩ := h.waits
  obtain ⟨u', hu', hdone⟩ := h.served
  have hsome : u.backfillTo.isSome := by rw [hwaits]; rfl
  have hpursuit := h.toPursuit
  have hreaches := h.reaches
  obtain ⟨cache, batch, logs, rfl⟩ := h.backfill
  obtain ⟨⟨k, hmid⟩, -⟩ := hpursuit.of_append.of_append.waiting hat hu hsome
  obtain rfl : k = reached := Db.CursorAt.unique hmid.cursor h.reached
  obtain ⟨k', htallied⟩ := hpursuit.late hat hu hsome hu' hdone hmid.cursor
  obtain rfl : k' = target := Db.CursorAt.unique htallied.cursor hreaches
  exact ⟨hmid.above, htallied⟩

theorem nodup_paymentsTo (chain : ChainSpec) (canon : Canon) (row : Watch) (lo hi : Nat) :
    (paymentsTo chain canon.logs row lo hi).Nodup :=
  (List.perm_insertionSort Payment.Before _).nodup_iff.mpr
    ((nodup_paymentsOf canon.once).of_map.filter _)

/-- **A watch that is registered late ends as one registered in time exactly
when** nothing was paid in the blocks of its backfill, or nothing in those swept
before the backfill was applied, or neither order of the two reaches the
threshold before its last payment. -/
theorem late_registration_iff (prompt : Prompt chain canon height pre new row post target)
    (belated : Belated chain canon height' pre' new' row' mid fetch rest cursor reached target)
    (hshares : row'.Shares row) (hthreshold : row'.threshold = row.threshold)
    (hstart : row'.startBlock = row.startBlock) :
    SameOutcome (run exec Db.empty (pursuit pre new row post)) row.id
        (run exec Db.empty (pursuit pre' new' row' (mid ++ [fetch] ++ rest)))
        row'.id ↔
      paymentsTo chain canon.logs row row.startBlock cursor = [] ∨
      paymentsTo chain canon.logs row (cursor + 1) reached = [] ∨
      total Payment.units (paymentsTo chain canon.logs row row.startBlock cursor ++
          (paymentsTo chain canon.logs row (cursor + 1) reached).dropLast) < row.threshold ∧
        total Payment.units (paymentsTo chain canon.logs row (cursor + 1) reached ++
          (paymentsTo chain canon.logs row row.startBlock cursor).dropLast) < row.threshold := by
  obtain ⟨k₀, hprompt, hinTime⟩ := prompt.tallied
  obtain ⟨hle, hbelated⟩ := belated.tallied
  have hle' := hbelated.above
  have hbehind := belated.behind.2
  have htarget : ∀ lo hi, paymentsTo chain canon.logs row' lo hi =
      paymentsTo chain canon.logs row lo hi :=
    paymentsTo_of_target hshares.tokenAddress hshares.paymentAddress
  rw [sameOutcome_iff hprompt hbelated hthreshold (List.nil_subset _) ?hbase, hinTime, Watch.tally]
  case hbase =>
    intro p hp
    rcases List.mem_append.mp hp with hp | hp <;> exact (mem_paymentsTo.mp hp).1
  -- the payments in the order of the chain
  have hsplit : paymentsTo chain canon.logs row row.startBlock target =
      paymentsTo chain canon.logs row row.startBlock cursor ++
        paymentsTo chain canon.logs row (cursor + 1) reached ++
          paymentsTo chain canon.logs row (reached + 1) target := by
    rw [paymentsTo_split row.startBlock (hle.trans hle'), Nat.max_eq_right (by omega),
      paymentsTo_split (cursor + 1) hle', Nat.max_eq_right (by omega), List.append_assoc]
  have hnodup := nodup_paymentsTo chain canon row row.startBlock target
  rw [hsplit] at hnodup ⊢
  simp only [htarget, hthreshold, hstart]
  rw [Nat.max_eq_right (by omega), Nat.max_eq_right (by omega),
    filled_swap_iff prompt.threshold_pos hnodup, Nat.zero_add, Nat.zero_add]

end Runs

/-! ## Two payments to one watch -/

section Example

variable (a b : Nat)

/-- A chain with two payments to address 9: `a` base units in block 103 and `b`
in block 108. -/
def earlyAndLate : Canon where
  logs := [transferLog 7 9 a 103 0, transferLog 7 9 b 108 0]
  kept l hl := by
    simp only [List.mem_cons, List.not_mem_nil, or_false] at hl
    rcases hl with rfl | rfl <;> rfl
  once := by
    change [(some (BitVec.ofNat 256 103), some 0), (some (BitVec.ofNat 256 108), some 0)].Nodup
    decide
  encoded l hl := by
    simp only [List.mem_cons, List.not_mem_nil, or_false] at hl
    rcases hl with rfl | rfl <;> exact encoded_transferLog _ _ _ _ _

/-- The sweep of the blocks above `cursor`, up to 110. -/
def sweepTo110 (cursor : Nat) : Op :=
  .applySweep baseChain .new cursor 110
    ((earlyAndLate a b).getLogs (sweepFilter baseChain (cursor + 1) 110))

/-- The watch registered in time, with the start block 101. -/
def promptRow : Watch := watchOrder.row 1 1 100 0

/-- The order of a watch registered when the cursor is at 105. -/
def belatedOrder : NewWatch := { watchOrder with headEstimate := 105, lookbackBlocks := 4 }

/-- The same watch registered late. -/
def belatedRow : Watch := belatedOrder.row 1 1 105 0

/-- The backfill of the watch registered late. -/
def belatedFetch : Op :=
  .applyBackfill baseChain .new [belatedRow.pendingBackfill 105]
    ((earlyAndLate a b).getLogs (backfillFilter baseChain [belatedRow.pendingBackfill 105] 101 105))

def beforeBelated : List Op :=
  [.ensureCursor baseChain.chainId 100, .fastForwardCursor baseChain.chainId 105]

/-- The run of the watch registered in time. -/
def promptRun : List Op :=
  pursuit [.ensureCursor baseChain.chainId 100] watchOrder promptRow [sweepTo110 a b 100]

/-- The run of the watch registered late. -/
def belatedRun : List Op :=
  pursuit beforeBelated belatedOrder belatedRow ([sweepTo110 a b 105] ++ [belatedFetch a b] ++ [])

theorem ranged_of_getLogs {l : Log} {f : Filter} (hl : l ∈ (earlyAndLate a b).getLogs f) {n : Nat}
    (hn : n ∈ l.blockNumber) :
    (f.fromBlock ≤ n ∧ n ≤ f.toBlock) ∧ ∀ h ∈ l.blockHash, n = h.toNat := by
  obtain ⟨hmem, hadmits⟩ := List.mem_filter.mp hl
  obtain ⟨-, -, -, m, hm, hlo, hhi⟩ := of_decide_eq_true hadmits
  obtain rfl : m = n := Option.some.inj (hm.symm.trans hn)
  refine ⟨⟨hlo, hhi⟩, ?_⟩
  simp only [earlyAndLate, List.mem_cons, List.not_mem_nil, or_false] at hmem
  rcases hmem with rfl | rfl
  · cases hn
    exact fun h hh => by cases hh; decide
  · cases hn
    exact fun h hh => by cases hh; decide

theorem ranged_sweepTo110 {cursor : Nat} (hcursor : cursor < 110) :
    (sweepTo110 a b cursor).Ranged fun _ hash => hash.toNat :=
  ⟨hcursor, fun _ hl _ hn => ranged_of_getLogs a b hl hn⟩

theorem informed_sweepTo110 (cursor : Nat) (hrows : ∀ w ∈ db.watches.rows, 0 < w.seq) :
    (sweepTo110 a b cursor).Informed baseChain (earlyAndLate a b) db :=
  ⟨fun key ref h => by contradiction, fun _ => ⟨rfl, rfl,
    fun w hw _ _ _ _ _ => .inr (hrows w (Table.mem_of_get? hw))⟩⟩

theorem prompt_promptRow
    (hids : ∀ u ∈ (run exec Db.empty (promptRun a b)).watches.rows, u.id = 1)
    (hreaches : (run exec Db.empty (promptRun a b)).CursorAt baseChain.chainId 110) :
    Prompt baseChain (earlyAndLate a b) (fun _ hash => hash.toNat)
      [.ensureCursor baseChain.chainId 100] watchOrder promptRow [sweepTo110 a b 100] 110 where
  planned := planned_of_no_backfill (by simp [pursuit, sweepTo110])
  ranged op hop := by
    simp only [pursuit, List.cons_append, List.nil_append, List.mem_cons, List.not_mem_nil,
      or_false] at hop
    rcases hop with rfl | rfl | rfl
    · trivial
    · trivial
    · exact ranged_sweepTo110 a b (by decide)
  informed := ⟨trivial, trivial, informed_sweepTo110 a b 100 (by decide +kernel), trivial⟩
  matched := ⟨trivial, trivial, trivial, trivial⟩
  fresh := by decide +kernel
  created := by decide +kernel
  home := rfl
  lasting := ⟨fun d hd => absurd hd (Option.not_mem_none d), trivial⟩
  alone u hu _ := hids u (Table.mem_of_get? hu)
  sweeps op hop := by
    rw [List.mem_singleton.mp hop]
    rfl
  told op hop := by
    rw [List.mem_singleton.mp hop]
    trivial
  ahead := ⟨100, by unfold Db.CursorAt; decide +kernel, by decide⟩
  reaches := hreaches

theorem belated_belatedRow
    (hids : ∀ u ∈ (run exec Db.empty (belatedRun a b)).watches.rows, u.id = 1)
    (hwaits : ((run exec Db.empty (pursuit beforeBelated belatedOrder belatedRow
      [sweepTo110 a b 105])).watches.get? 1).map Watch.backfillTo = some (some 105))
    (hserved : ((run exec Db.empty (belatedRun a b)).watches.get? 1).map Watch.backfillTo =
      some none)
    (hreached : (run exec Db.empty (pursuit beforeBelated belatedOrder belatedRow
      [sweepTo110 a b 105])).CursorAt baseChain.chainId 110) :
    Belated baseChain (earlyAndLate a b) (fun _ hash => hash.toNat) beforeBelated belatedOrder
      belatedRow [sweepTo110 a b 105] (belatedFetch a b) [] 105 110 110 where
  planned := by
    have hbatch : [belatedRow.pendingBackfill 105] = pendingBackfills (run exec Db.empty
        (pursuit beforeBelated belatedOrder belatedRow [])) baseChain.chainId 500 := by
      decide +kernel
    rw [List.append_nil, pursuit_append, belatedFetch, hbatch]
    exact Planned.concat (planned_of_no_backfill (by simp [pursuit, beforeBelated, sweepTo110]))
      isPrefix_pursuit _ _ _ _
  ranged op hop := by
    simp only [pursuit, beforeBelated, List.cons_append, List.nil_append, List.mem_cons,
      List.not_mem_nil, or_false] at hop
    rcases hop with rfl | rfl | rfl | rfl | rfl
    · trivial
    · trivial
    · trivial
    · exact ranged_sweepTo110 a b (by decide)
    · exact fun l hl n hn => (ranged_of_getLogs a b hl hn).2
  informed := ⟨trivial, trivial, trivial, informed_sweepTo110 a b 105 (by decide +kernel),
    fun _ => ⟨rfl, fun _ hl => List.mem_of_mem_filter hl⟩, trivial⟩
  matched := ⟨trivial, trivial, trivial, trivial, trivial, trivial⟩
  fresh := by decide +kernel
  created := by decide +kernel
  home := rfl
  lasting := ⟨fun d hd => absurd hd (Option.not_mem_none d),
    fun d hd => absurd hd (Option.not_mem_none d), trivial⟩
  alone u hu _ := hids u (Table.mem_of_get? hu)
  sweeps op hop := by
    simp only [List.cons_append, List.nil_append, List.mem_cons, List.not_mem_nil, or_false] at hop
    rcases hop with rfl | rfl <;> rfl
  told op hop := by
    simp only [List.cons_append, List.nil_append, List.mem_cons, List.not_mem_nil, or_false] at hop
    rcases hop with rfl | rfl
    · trivial
    · refine ⟨101, 105, fun b hb => ?_, ?_⟩
      · rw [List.mem_singleton.mp hb]
        decide
      · rw [← List.append_nil ((earlyAndLate a b).getLogs _)]
        exact .span (by decide) (by decide) (.done (by decide))
  behind := ⟨by unfold Db.CursorAt; decide +kernel, by decide⟩
  backfill := ⟨_, _, _, rfl⟩
  waits := Option.map_eq_some_iff.mp hwaits
  served := Option.map_eq_some_iff.mp hserved
  reached := hreached
  reaches := by
    rw [List.append_nil, run_pursuit_concat, Db.CursorAt, belatedFetch, backfill_cursors]
    exact hreached

end Example

/-- Payments of 60 and 30 base units come to the same in time and late. -/
theorem late_registration_ninety :
    SameOutcome (run exec Db.empty (promptRun 60 30)) promptRow.id
        (run exec Db.empty (belatedRun 60 30)) belatedRow.id ∧
      ((run exec Db.empty (promptRun 60 30)).watches.get? promptRow.id).map Watch.confirmedAmount =
        some 90 := by
  have hprompt := prompt_promptRow 60 30 (by decide +kernel) (by unfold Db.CursorAt; decide +kernel)
  have hbelated := belated_belatedRow 60 30 (by decide +kernel) (by decide +kernel)
    (by decide +kernel) (by unfold Db.CursorAt; decide +kernel)
  exact ⟨(late_registration_iff hprompt hbelated ⟨rfl, rfl, rfl⟩ rfl (by decide)).mpr
    (.inr (.inr (by decide +kernel))), by decide +kernel⟩

/-- Of payments of 60 and 100 base units, both are counted in time.  Late, the
second one completes the watch while the first one awaits the backfill, and the
first one is never counted. -/
theorem backfill_after_completion :
    Prompt baseChain (earlyAndLate 60 100) (fun _ hash => hash.toNat)
        [.ensureCursor baseChain.chainId 100] watchOrder promptRow [sweepTo110 60 100 100] 110 ∧
      Belated baseChain (earlyAndLate 60 100) (fun _ hash => hash.toNat) beforeBelated belatedOrder
        belatedRow [sweepTo110 60 100 105] (belatedFetch 60 100) [] 105 110 110 ∧
      belatedRow.Shares promptRow ∧ belatedRow.threshold = promptRow.threshold ∧
      belatedRow.startBlock = promptRow.startBlock ∧
      ((run exec Db.empty (promptRun 60 100)).watches.get? promptRow.id).map Watch.confirmedAmount =
        some 160 ∧
      ((run exec Db.empty (belatedRun 60 100)).watches.get? belatedRow.id).map
        Watch.confirmedAmount = some 100 ∧
      ¬ SameOutcome (run exec Db.empty (promptRun 60 100)) promptRow.id
        (run exec Db.empty (belatedRun 60 100)) belatedRow.id := by
  refine ⟨prompt_promptRow 60 100 (by decide +kernel) (by unfold Db.CursorAt; decide +kernel),
    belated_belatedRow 60 100 (by decide +kernel) (by decide +kernel) (by decide +kernel)
      (by unfold Db.CursorAt; decide +kernel), ⟨rfl, rfl, rfl⟩, rfl, by decide, by decide +kernel,
    by decide +kernel, fun same => ?_⟩
  exact absurd same.confirmedAmount (by decide +kernel)

end GumIndexer
