import GumIndexer.Backfill
import GumIndexer.Coverage
import GumIndexer.Sweeper

/-!
# GumIndexer.Depth

Is everything that is counted at confirmation depth?

A sweep that reads head `h` scans the blocks up to `h - confirmations`, so what
its own path counts lies at depth.  The backfills it runs afterwards reach up
to the cursor that registration recorded, wherever that was: `bootstrap` puts
the first cursor at the head itself, and the node that answers a later sweep
may lag behind the cursor (`shallow_backfill_counted`).  What is counted is at
depth in every run whose sweeps find the pending backfills at depth
(`counted_at_depth`).

The runs are of any number of instances on one database.
-/

namespace GumIndexer

open Base

/-- Instances of the indexer on one chain, sharing a database. -/
structure Fleet where
  db : Db
  rts : Nat → ChainRuntime

namespace Fleet

variable (chain : ChainSpec)

/-- A migrated database and processes that just started. -/
def new : Fleet where
  db := .empty
  rts _ := .new chain 0

/-- An event at one of the instances. -/
def step (f : Fleet) (e : Nat × Event) : Fleet where
  db := ((f.rts e.1).step chain f.db e.2).1
  rts := Function.update f.rts e.1 ((f.rts e.1).step chain f.db e.2).2

/-- The transfers an event counts: the head its sweep read, and the block. -/
def counted (f : Fleet) (e : Nat × Event) : List (Nat × Nat) :=
  match e.2, (f.rts e.1).sweeper.phase with
  | .proceed _, .scanned head cursor toBlock logs =>
      match (applySweep f.db chain (f.rts e.1).cache cursor toBlock logs).2 with
      | .ok (.applied out, _) => out.confirmed.map fun m => (head, m.blockNumber)
      | _ => []
  | .proceed _, .fetched head batch logs =>
      match (applyBackfill f.db chain (f.rts e.1).cache batch logs).2 with
      | .ok (out, _) => out.confirmed.map fun m => (head, m.blockNumber)
      | _ => []
  | _, _ => []

/-- The provider returns logs that the request asked for. -/
def Served (f : Fleet) (e : Nat × Event) : Prop :=
  ∀ filter ∈ (f.rts e.1).sweeper.request? chain, ∀ l ∈ e.2.answer, filter.Admits l

instance (f : Fleet) (e : Nat × Event) : Decidable (f.Served chain e) :=
  inferInstanceAs (Decidable (∀ filter ∈ (f.rts e.1).sweeper.request? chain, _))

end Fleet

/-- Every backfill that is pending on the chain ends at or below `t`. -/
def Db.BackfillsUpTo (db : Db) (chainId t : Nat) : Prop :=
  ∀ w ∈ db.watches.rows, w.chainId = chainId → ∀ b ∈ w.backfillTo, b ≤ t

instance (db : Db) (chainId t : Nat) : Decidable (db.BackfillsUpTo chainId t) :=
  inferInstanceAs (Decidable (∀ w ∈ db.watches.rows, w.chainId = chainId → ∀ b ∈ w.backfillTo, b ≤ t))

/-- A sweep that reads its head finds all pending backfills at depth, and a
watch that gets a backfill while a sweep is under way gets one at the depth of
that sweep. -/
def AtDepth (chain : ChainSpec) (f : Fleet) (e : Nat × Event) : Prop :=
  match e.2 with
  | .head (.ok head) => (f.rts e.1).sweeper.phase = .probing →
      f.db.BackfillsUpTo chain.chainId (chain.target head)
  | .create _ new => new.chainId = chain.chainId → ∀ cursor, f.db.CursorAt chain.chainId cursor →
      startBlock cursor new.headEstimate new.lookbackBlocks ≤ cursor →
        ∀ i, ∀ head ∈ (f.rts i).sweeper.phase.head?, cursor ≤ chain.target head
  | _ => True

variable {chain : ChainSpec} {db db' : Db} {t : Nat}

/-! ## Pending backfills -/

/-- A step keeps the bound if what it registers is within it. -/
theorem Db.BackfillsUpTo.step {c : Nat} {a : Act} (h : Step db a db')
    (hreg : ∀ w, a = .register w → w.chainId = c → ∀ b ∈ w.backfillTo, b ≤ t)
    (inv : db.BackfillsUpTo c t) : db'.BackfillsUpTo c t := by
  intro w' hw' hchain b hb
  rcases h.watch_update (Table.get?_of_mem hw') with hold | ha | ⟨w, hw, hupdate⟩
  · exact inv w' (Table.mem_of_get? hold) hchain b hb
  · exact hreg w' ha hchain b hb
  · have hlater := hupdate.later
    exact inv w (Table.mem_of_get? hw) (hlater.same.chainId.symm.trans hchain) b
      (hlater.backfillTo b hb)

/-- An operation keeps it if the cursor a watch is registered at is within it.
-/
theorem Db.BackfillsUpTo.exec {c : Nat} {op : Op} (inv : db.BackfillsUpTo c t)
    (hop : ∀ id new, op.Creates id new → new.chainId = c → ∀ cursor, db.CursorAt c cursor →
      startBlock cursor new.headEstimate new.lookbackBlocks ≤ cursor → cursor ≤ t) :
    (exec db op).BackfillsUpTo c t := by
  by_cases hcreate : ∃ id new, op.Creates id new
  · obtain ⟨id, new, hcreates⟩ := hcreate
    rcases exec_creates hcreates db with heq | ⟨seq, out, hreg⟩
    · rw [heq]
      exact inv
    · rcases hreg.cases with ⟨⟨c', k⟩, hcur, -, hstep⟩ | ⟨-, n, heq⟩
      · refine inv.step hstep fun w hw hchain b hb => ?_
        injection hw with hw
        subst hw
        obtain rfl : c' = new.chainId := Table.key_of_get? hcur
        obtain rfl : new.chainId = c := hchain
        have hb' : (if startBlock k new.headEstimate new.lookbackBlocks ≤ k then some k else none) =
            some b := hb
        split at hb'
        · next hle => exact Option.some.inj hb' ▸ hop id new hcreates rfl k hcur hle
        · contradiction
      · rw [heq]
        exact inv
  · obtain ⟨acts, htr, -, hallow⟩ := exec_trace db op
    refine htr.invariant_mem (Db.BackfillsUpTo · c t) (fun d a d' ha hstep hd => ?_) inv
    refine hd.step hstep fun w hw => ?_
    have hall := hallow a ha
    rw [hw] at hall
    exact absurd hall.of_register hcreate

/-- The batch reads no block beyond the bound. -/
theorem mem_batch_le {c limit : Nat} {b : PendingBackfill} (inv : db.BackfillsUpTo c t)
    (hb : b ∈ pendingBackfills db c limit) : b.backfillTo ≤ t := by
  obtain ⟨w, hw, hchain, hto, -⟩ := mem_pendingBackfills hb
  exact inv w (Table.mem_of_get? hw) hchain b.backfillTo hto

/-! ## What a suspended sweep holds -/

/-- What the phase holds is within the depth of the sweep. -/
def Phase.Within (chain : ChainSpec) : Phase → Prop
  | .scanned head cursor toBlock logs => toBlock ≤ chain.target head ∧
      ∀ l ∈ logs, (sweepFilter chain (cursor + 1) toBlock).Admits l
  | .fetching head batch _ _ _ => ∀ b ∈ batch, b.backfillTo ≤ chain.target head
  | .fetched head batch _ => ∀ b ∈ batch, b.backfillTo ≤ chain.target head
  | _ => True

/-- A scan starts within the target of its head. -/
theorem within_scanFrom (head cursor : Nat) : (chain.scanFrom head cursor).Within chain := by
  unfold ChainSpec.scanFrom
  split <;> trivial

/-- A fetch is within it if its batch is. -/
theorem within_fetchFrom {head toBlock next : Nat} {batch : List PendingBackfill} {logs : List Log}
    (h : ∀ b ∈ batch, b.backfillTo ≤ chain.target head) :
    (Phase.fetchFrom head batch toBlock next logs).Within chain := by
  unfold Phase.fetchFrom
  split <;> exact h

/-- So is the phase a batch starts. -/
theorem within_ofBatch {head : Nat} {batch : List PendingBackfill}
    (h : ∀ b ∈ batch, b.backfillTo ≤ chain.target head) :
    (Phase.ofBatch head batch).Within chain := by
  unfold Phase.ofBatch
  split
  · exact within_fetchFrom h
  · trivial

theorem head?_scanFrom (head cursor : Nat) : (chain.scanFrom head cursor).head? = some head := by
  unfold ChainSpec.scanFrom
  split <;> rfl

theorem head?_fetchFrom (head toBlock next : Nat) (batch : List PendingBackfill) (logs : List Log) :
    (Phase.fetchFrom head batch toBlock next logs).head? = some head := by
  unfold Phase.fetchFrom
  split <;> rfl

/-- A running sweep keeps its head. -/
theorem Resumes.head? {rt : ChainRuntime} {e : Event} {phase : Phase} {head : Nat}
    (h : Resumes chain db rt e phase) (hhead : phase.head? = some head) :
    rt.sweeper.phase.head? = some head ∨
      (rt.sweeper.phase = .probing ∧ e = .head (.ok head)) := by
  cases h with
  | stays _ => exact .inl hhead
  | stops => contradiction
  | starts => contradiction
  | head hphase => exact .inr ⟨hphase, by rw [Option.some.inj hhead]⟩
  | forwarded hphase _ => rw [head?_scanFrom] at hhead; exact .inl (by rw [hphase]; exact hhead)
  | scanned hphase => exact .inl (by rw [hphase]; exact hhead)
  | ahead hphase => exact .inl (by rw [hphase]; exact hhead)
  | swept hphase _ => rw [head?_scanFrom] at hhead; exact .inl (by rw [hphase]; exact hhead)
  | batch hphase =>
      unfold Phase.ofBatch at hhead
      split at hhead
      · rw [head?_fetchFrom] at hhead
        exact .inl (by rw [hphase]; exact hhead)
      · contradiction
  | fetched hphase => rw [head?_fetchFrom] at hhead; exact .inl (by rw [hphase]; exact hhead)
  | backfilled hphase _ => exact .inl (by rw [hphase]; exact hhead)

/-- What the sweeper holds stays within its depth. -/
theorem Resumes.within {rt : ChainRuntime} {e : Event} {phase : Phase}
    (h : Resumes chain db rt e phase) (hphase : rt.sweeper.phase.Within chain)
    (hdb : ∀ head ∈ rt.sweeper.phase.head?, db.BackfillsUpTo chain.chainId (chain.target head))
    (served : ∀ filter ∈ rt.sweeper.request? chain, ∀ l ∈ e.answer, filter.Admits l) :
    phase.Within chain := by
  cases h with
  | stays _ => exact hphase
  | stops => trivial
  | starts => trivial
  | head _ => trivial
  | forwarded _ _ => exact within_scanFrom _ _
  | @scanned head cursor clock logs hscan =>
      refine ⟨Nat.min_le_right _ _, served _ ?_⟩
      simp [Sweeper.request?, hscan]
  | ahead _ => trivial
  | swept _ _ => exact within_scanFrom _ _
  | @batch head clock hbatch =>
      exact within_ofBatch fun b hb => mem_batch_le (hdb head (by rw [hbatch]; rfl)) hb
  | fetched hfetch =>
      rw [hfetch] at hphase
      exact within_fetchFrom hphase
  | backfilled _ _ => trivial

/-! ## What is counted -/

/-- What a sweep confirms is among its matches. -/
theorem applySweep_confirmed {cache : WatchCache} {cursor toBlock : Nat} {logs : List Log}
    {out : SweepOutcome} {m : MatchedTransfer}
    (h : (applySweep db chain cache cursor toBlock logs).2 = .ok (.applied out, db'))
    (hm : m ∈ out.confirmed) :
    m ∈ sweepMatches chain (deltaLoad db chain cache).1 logs := by
  obtain ⟨tx, db₁, -, htx, -, rfl, -⟩ := applySweep_applied h
  obtain ⟨mid, cs, hcs, hout, -⟩ := sweepTx_trace htx
  rw [hout] at hm
  exact hcs.mem hm

/-- A sweep counts transfers of the blocks it asked for. -/
theorem sweepMatches_le {cache : WatchCache} {lo hi : Nat} {logs : List Log} {m : MatchedTransfer}
    (hm : m ∈ sweepMatches chain cache logs) (hlogs : ∀ l ∈ logs, (sweepFilter chain lo hi).Admits l) :
    m.blockNumber ≤ hi := by
  obtain ⟨p, hp, ref, -, -, rfl⟩ := mem_matchedOf.mp (mem_sweepMatches.mp hm)
  obtain ⟨l, hl, -, hpay⟩ := mem_paymentsOf.mp hp
  obtain ⟨-, -, -, -, -, hnumber, -⟩ := payment?_spec hpay
  obtain ⟨-, -, -, n, hn, -, hle⟩ := hlogs l hl
  obtain rfl : p.blockNumber = n := Option.some.inj (hnumber.symm.trans hn)
  exact hle

/-! ## The invariant -/

/-- Every running sweep holds what lies within its depth, and finds only
backfills that do. -/
structure Fleet.Deep (chain : ChainSpec) (f : Fleet) : Prop where
  phases : ∀ i, (f.rts i).sweeper.phase.Within chain
  pending : ∀ i, ∀ head ∈ (f.rts i).sweeper.phase.head?,
    f.db.BackfillsUpTo chain.chainId (chain.target head)

/-- A new fleet has scanned nothing. -/
theorem Fleet.Deep.new : Fleet.Deep chain (.new chain) where
  phases _ := trivial
  pending _ _ h := by cases h

/-- **What is counted is deep enough** for the head its sweeper has seen. -/
theorem Fleet.Deep.counted_le {f : Fleet} {e : Nat × Event} (inv : f.Deep chain) {x : Nat × Nat}
    (hx : x ∈ f.counted chain e) : x.2 ≤ chain.target x.1 := by
  have hphase := inv.phases e.1
  unfold counted at hx
  split at hx
  · next hscan =>
      split at hx
      · next hok =>
          obtain ⟨m, hm, rfl⟩ := List.mem_map.mp hx
          rw [hscan] at hphase
          exact (sweepMatches_le (applySweep_confirmed hok hm) hphase.2).trans hphase.1
      · cases hx
  · next hfetch =>
      split at hx
      · next hok =>
          obtain ⟨m, hm, rfl⟩ := List.mem_map.mp hx
          rw [hfetch] at hphase
          obtain ⟨tx, htx, hconfirmed⟩ := applyBackfill_confirmed hok
          obtain ⟨cs, hcs, hout, -⟩ := countAll_trace htx
          rw [hconfirmed, hout] at hm
          exact backfillMatches_le (hcs.mem hm) hphase
      · cases hx
  · cases hx

/-- A transaction of an instance keeps the backfills at the depth of every
running sweep. -/
theorem Fleet.Deep.backfills {f : Fleet} {e : Nat × Event} {i head : Nat} (inv : f.Deep chain)
    (depth : AtDepth chain f e) (hhead : (f.rts i).sweeper.phase.head? = some head) :
    (f.step chain e).db.BackfillsUpTo chain.chainId (chain.target head) := by
  have hpending := inv.pending i head hhead
  have hcommits : Commits chain f.db (f.rts e.1) e.2 (f.step chain e).db := step_commits e.2
  cases hcommits with
  | nothing same => rw [same]; exact hpending
  | transaction runs eq =>
      rw [eq]
      refine hpending.exec fun id new hop _ cursor hat hle => ?_
      obtain ⟨n, e⟩ := e
      cases runs with
      | create _ home =>
          obtain ⟨rfl, rfl⟩ := hop
          exact depth home cursor hat hle i head hhead
      | _ => exact hop.elim

/-- A step of a served fleet keeps it so. -/
theorem Fleet.Deep.step {f : Fleet} {e : Nat × Event} (inv : f.Deep chain)
    (served : f.Served chain e) (depth : AtDepth chain f e) : (f.step chain e).Deep chain where
  phases i := by
    by_cases hi : i = e.1
    · subst hi
      simp only [Fleet.step, Function.update_self]
      exact (step_resumes e.2).within (inv.phases e.1) (inv.pending e.1) served
    · simp only [Fleet.step, Function.update_of_ne hi]
      exact inv.phases i
  pending i head hhead := by
    by_cases hi : i = e.1
    · subst hi
      simp only [Fleet.step, Function.update_self] at hhead
      rcases (step_resumes e.2).head? hhead with hold | ⟨hphase, hread⟩
      · exact inv.backfills depth hold
      · -- the head was just read
        obtain ⟨n, e⟩ := e
        obtain rfl : e = .head (.ok head) := hread
        exact depth hphase
    · simp only [Fleet.step, Function.update_of_ne hi] at hhead
      exact inv.backfills depth hhead

/-- **Only confirmed depth counts**, in every run of any number of instances in
which no sweep finds a pending backfill above its own depth: a transfer that is
counted lies at or below the depth of the head that its sweep read. -/
theorem counted_at_depth (chain : ChainSpec) (events : List (Nat × Event))
    (served : Along (Fleet.step chain) (Fleet.Served chain) (.new chain) events)
    (depth : Along (Fleet.step chain) (AtDepth chain) (.new chain) events) :
    ∀ x ∈ collect (Fleet.counted chain) (Fleet.step chain) (.new chain) events,
      x.2 ≤ x.1 - chain.confirmations := by
  intro x hcounted
  obtain ⟨pre, e, post, rfl, hx⟩ := mem_collect hcounted
  have inv : (run (Fleet.step chain) (.new chain) pre).Deep chain := by
    have hboth : Along (Fleet.step chain) (fun f e => f.Served chain e ∧ AtDepth chain f e)
        (.new chain) pre :=
      along_and ((along_append _ _ _).mp served).1 ((along_append _ _ _).mp depth).1
    exact invariant_along (Fleet.Deep chain) (fun f e _ hf hok => hf.step hok.1 hok.2) .new hboth
  exact inv.counted_le hx

/-- A chain is bootstrapped at head 105, a watch is registered with ten blocks
of lookback, and the first sweep, which reads `head`, runs its backfill. -/
def firstBackfill (head : Nat) : List (Nat × Event) :=
  [(0, .bootstrap 105), (0, .create 1 lateOrder), (0, .sweep fun _ => false), (0, .head (.ok head)),
    (0, .proceed 0), (0, .proceed 0), (0, .logs 0 (.ok [transferLog 7 9 40 103 0])), (0, .proceed 0)]

theorem counted_at_depth_late :
    (108, 103) ∈ collect (Fleet.counted baseChain) (Fleet.step baseChain) (.new baseChain)
        (firstBackfill 108) ∧
      103 ≤ 108 - baseChain.confirmations := by
  have hcounted : (108, 103) ∈ collect (Fleet.counted baseChain) (Fleet.step baseChain) (.new baseChain)
      (firstBackfill 108) := by decide +kernel
  refine ⟨hcounted, counted_at_depth baseChain (firstBackfill 108)
    (by decide +kernel)
    ⟨trivial, ?_, trivial, fun _ => by decide +kernel, trivial, trivial, trivial, trivial, trivial⟩
    _ hcounted⟩
  -- no sweep is under way when the watch is registered
  intro _ _ _ _ i head hhead
  have hidle : (((Fleet.new baseChain).step baseChain (0, .bootstrap 105)).rts i).sweeper.phase = .idle := by
    by_cases hi : i = 0
    · subst hi
      rfl
    · simp only [Fleet.step, Function.update_of_ne hi]
      rfl
  rw [hidle] at hhead
  cases hhead

/-- The sweep reads the head the cursor was put at, so that it has nothing to
scan, and counts a transfer two blocks deep where three are required. -/
theorem shallow_backfill_counted :
    ∃ (chain : ChainSpec) (events : List (Nat × Event)),
      Along (Fleet.step chain) (Fleet.Served chain) (.new chain) events ∧
      ∃ x ∈ collect (Fleet.counted chain) (Fleet.step chain) (.new chain) events,
        ¬ x.2 ≤ x.1 - chain.confirmations :=
  ⟨baseChain, firstBackfill 105, by decide +kernel, (105, 103), by decide +kernel, by decide⟩

end GumIndexer
