import GumIndexer.Cluster

/-!
# GumIndexer.Succession

Watches on one target follow each other, and so should their cache entries.

Every writer of a cache reads the database at one time and writes the entry at
another, the delta load of a sweep too; `WatchCache::remove` checks whose entry
it takes out, `WatchCache::insert` does not check whose it replaces.  So an
entry that was read before its watch was cancelled, and that is put into the
cache after the entry of the next watch on the target, replaces it.  The
numbers do not decide either: they are drawn before the commit, so the next
watch on a target may have the smaller one.

`caches_in_order` says that these two are all there is to it: if registrations
on one target commit in the order of their numbers, and whatever is put into a
cache is of a watch that is still active, then no cache ever goes back, and
none loses an active watch.
-/

namespace GumIndexer

open Base

variable {db : Db} {chain : ChainSpec}

/-! ## The order of the numbers -/

/-- The active watch on a target has the largest number there. -/
def Db.InOrder (db : Db) (chain : ChainSpec) : Prop :=
  ∀ u w, db.watches.get? u.id = some u → db.watches.get? w.id = some w →
    w.chainId = chain.chainId → u.Shares w → w.status = .active → u.seq ≤ w.seq

/-- A registration commits with a number above those of the earlier watches on
its target, and what is put into a cache is of a watch that is still active. -/
def ClusterStep.Fresh (c : Cluster) : ClusterStep → Prop
  | .commit i _ new => ∀ seq ∈ c.drawn[i]?, ∀ w ∈ c.db.watches.rows, w.chainId = new.chainId →
      w.tokenAddress = new.tokenAddress → w.paymentAddress = new.paymentAddress → w.seq < seq
  | .insert i => ∀ e ∈ c.held[i]?, c.db.Active e.ref.id
  | .fill => ∀ l ∈ c.loading, ∀ rows ∈ l.rows, ∀ e ∈ rows.head?, c.db.Active e.2.id
  | _ => True

instance (c : Cluster) (i : ClusterStep) : Decidable (i.Fresh c) :=
  match i with
  | .commit i _ new => inferInstanceAs (Decidable (∀ seq ∈ c.drawn[i]?, ∀ w ∈ c.db.watches.rows,
      w.chainId = new.chainId → w.tokenAddress = new.tokenAddress →
        w.paymentAddress = new.paymentAddress → w.seq < seq))
  | .insert i => inferInstanceAs (Decidable (∀ e ∈ c.held[i]?, c.db.Active e.ref.id))
  | .fill => inferInstanceAs (Decidable
      (∀ l ∈ c.loading, ∀ rows ∈ l.rows, ∀ e ∈ rows.head?, c.db.Active e.2.id))
  | .draw | .rollBack _ | .load _ _ | .hydrate _ | .raise _ | .lose _ | .remove _ _ | .restart _
  | .bind _ _ | .query | .finish _ _ | .abandon | .fastForward _ | .store _ => isTrue trivial

namespace Cluster

variable {c : Cluster}

/-- Whatever a fresh step puts into a cache is of an active watch. -/
theorem active_of_fresh {i : ClusterStep} {node : Nat} {key : WatchKey} {ref : WatchRef}
    (fresh : i.Fresh c) (put : c.Puts node key ref i) : c.db.Active ref.id := by
  cases put with
  | insert held => exact fresh _ held
  | fill loading => exact fresh _ loading _ rfl _ rfl

/-- **Commits in order keep the active watch the newest.** -/
theorem inOrder_step {i : ClusterStep} (sound : Sound c.db) (fresh : i.Fresh c)
    (inv : c.db.InOrder chain) : (c.step chain i).db.InOrder chain := by
  intro u w hu hw home hshares active
  cases hu₀ : c.db.watches.get? u.id with
  | none =>
      -- a new watch is active, so it is the one
      obtain ⟨-, -, -, -, huactive, -⟩ :=
        drawn_of_new_watch hu₀ hu (hshares.chainId.trans home)
      rw [(sound_step i sound).active_unique hu hw huactive active hshares]
  | some u₀ =>
      obtain ⟨hu₀, hulater⟩ := same_watch hu₀ hu
      have hsame := hulater.same
      cases hw₀ : c.db.watches.get? w.id with
      | none =>
          obtain ⟨j, new, rfl, hj, -, hchain, htoken, hpayment⟩ := drawn_of_new_watch hw₀ hw home
          have hlt := fresh w.seq hj u₀ (Table.mem_of_get? hu₀)
            (hsame.chainId.symm.trans (hshares.chainId.trans hchain))
            (hsame.tokenAddress.symm.trans (hshares.tokenAddress.trans htoken))
            (hsame.paymentAddress.symm.trans (hshares.paymentAddress.trans hpayment))
          rw [hsame.seq]
          exact Nat.le_of_lt hlt
      | some w₀ =>
          obtain ⟨hw₀, hwlater⟩ := same_watch hw₀ hw
          have hsame' := hwlater.same
          rw [hsame.seq, hsame'.seq]
          exact inv u₀ w₀ hu₀ hw₀ (hsame'.chainId.symm.trans home)
            ⟨hsame.chainId.symm.trans (hshares.chainId.trans hsame'.chainId),
              hsame.tokenAddress.symm.trans (hshares.tokenAddress.trans hsame'.tokenAddress),
              hsame.paymentAddress.symm.trans (hshares.paymentAddress.trans hsame'.paymentAddress)⟩
            (hwlater.active active)

/-! ## Succession -/

/-- What holds in every run whose steps are fresh. -/
structure Orderly (chain : ChainSpec) (c : Cluster) : Prop where
  sound : Sound c.db
  genuine : c.Genuine chain
  inOrder : c.db.InOrder chain

theorem Orderly.step {i : ClusterStep} (inv : c.Orderly chain) (fresh : i.Fresh c) :
    (c.step chain i).Orderly chain where
  sound := sound_step i inv.sound
  genuine := inv.genuine.step i
  inOrder := inOrder_step inv.sound fresh inv.inOrder

/-- Every state of a fresh run is orderly. -/
theorem orderly_run {steps : List ClusterStep}
    (fresh : Along (Cluster.step chain) (fun c i => i.Fresh c) {} steps) :
    (run (Cluster.step chain) {} steps).Orderly chain :=
  invariant_along (Orderly chain) (fun _ _ _ inv hi => inv.step hi)
    ⟨.empty, genuine_run [], fun _ _ hu => by contradiction⟩ fresh

/-- A step does not go back under any key. -/
def Ordered (chain : ChainSpec) (c : Cluster) (i : ClusterStep) : Prop :=
  ∀ node key ref ref', (c.caches node).get key = some ref →
    ((c.step chain i).caches node).get key = some ref' → ref.seq ≤ ref'.seq

/-- **A fresh step does not go back**: what it puts under a key is of the active
watch of the target, which has the largest number there. -/
theorem ordered_of_fresh {i : ClusterStep} (inv : c.Orderly chain) (fresh : i.Fresh c) :
    c.Ordered chain i := by
  intro node key ref ref' hget hget'
  have hrefreshes := refreshes_step chain c i node key
  rw [hget'] at hrefreshes
  generalize hafter : some ref' = after at hrefreshes
  cases hrefreshes with
  | keeps =>
      rw [hget] at hafter
      cases hafter
      exact Nat.le_refl _
  | puts put =>
      cases hafter
      obtain ⟨u, hu, huhome, huentry⟩ := inv.genuine.caches node key ref hget
      obtain ⟨w, hw, home, active, hentry⟩ :=
        (inv.genuine.puts put).active_watch (active_of_fresh fresh put)
      rw [slimEntry_ref huentry, slimEntry_ref hentry]
      exact inv.inOrder u w hu hw home
        (slimEntry_shares (huhome.trans home.symm) huentry hentry) active
  | evicts _ _ => cases hafter
  | restarts _ => cases hafter

/-- What is put over a cached watch is of the same watch, or of its successor. -/
theorem retired_or_same {i : ClusterStep} {node : Nat} {key : WatchKey} {id : Uuid} {ref : WatchRef}
    (inv : c.Orderly chain) (fresh : i.Fresh c) (hnames : (c.caches node).Names key id)
    (put : c.Puts node key ref i) : c.db.Retired id ∨ ref.id = id := by
  obtain ⟨ref₀, hget, rfl⟩ := Option.map_eq_some_iff.mp hnames
  obtain ⟨u, hu, huhome, huentry⟩ := inv.genuine.caches node key ref₀ hget
  obtain ⟨w, hw, home, active, hentry⟩ :=
    (inv.genuine.puts put).active_watch (active_of_fresh fresh put)
  rw [slimEntry_ref huentry, slimEntry_ref hentry]
  by_cases huactive : u.status = .active
  · exact .inr (congrArg Watch.id
      (inv.sound.entry_unique hu hw huhome home huactive active huentry hentry).symm)
  · exact .inl ⟨u, hu, huactive⟩

/-- **A watch that is cached stays cached until it is retired.** -/
theorem names_run {steps : List ClusterStep} {node : Nat} {key : WatchKey} {id : Uuid}
    (inv : c.Orderly chain) (hrestart : .restart node ∉ steps)
    (fresh : Along (Cluster.step chain) (fun c i => i.Fresh c) c steps)
    (hnames : (c.caches node).Names key id) :
    (run (Cluster.step chain) c steps).db.Retired id ∨
      ((run (Cluster.step chain) c steps).caches node).Names key id := by
  refine (invariant_along (fun c : Cluster => c.Orderly chain ∧
    (c.db.Retired id ∨ (c.caches node).Names key id)) ?_ ⟨inv, .inr hnames⟩ fresh).2
  rintro c i hi ⟨inv, hkept⟩ hfresh
  refine ⟨inv.step hfresh, ?_⟩
  rcases hkept with hretired | hnames
  · exact .inl (retired_step i hretired)
  · refine names_step chain (fun heq => hrestart (heq ▸ hi)) (fun ref put => ?_) hnames
    exact (retired_or_same inv hfresh hnames put).imp_left (retired_step i)

/-- A removal leaves the entries of other watches alone. -/
theorem get_step_remove {node : Nat} {id : Uuid} {key : WatchKey} {ref : WatchRef}
    (hget : (c.caches node).get key = some ref) (hid : ref.id ≠ id) :
    ((c.step chain (.remove node id)).caches node).get key = some ref := by
  have hcaches := step_caches chain c (.remove node id) node
  generalize (c.step chain (.remove node id)).caches node = cache at hcaches ⊢
  cases hcaches with
  | keeps => exact hget
  | puts put => cases put
  | raises => exact hget
  | removes _ => exact WatchCache.get_remove_of_ne _ _ _ _ hget hid

end Cluster

/-- **Succession.**  In a run whose registrations on one target commit in the
order of their numbers, and in which what is put into a cache is of a watch
that is still active, no cache goes back to an older watch, a cached watch
stays cached until it is retired, and a removal takes out no other watch's
entry. -/
theorem caches_in_order (steps : List ClusterStep)
    (fresh : Along (Cluster.step chain) (fun c i => i.Fresh c) {} steps) :
    (∀ pre i post, steps = pre ++ i :: post → (run (Cluster.step chain) {} pre).Ordered chain i) ∧
    (∀ pre mid post node key id, steps = pre ++ mid ++ post → .restart node ∉ mid →
      ((run (Cluster.step chain) {} pre).caches node).Names key id →
      (run (Cluster.step chain) {} (pre ++ mid)).db.Retired id ∨
        ((run (Cluster.step chain) {} (pre ++ mid)).caches node).Names key id) ∧
    ∀ pre node id post, steps = pre ++ .remove node id :: post → ∀ key ref,
      ((run (Cluster.step chain) {} pre).caches node).get key = some ref → ref.id ≠ id →
      ((run (Cluster.step chain) {} (pre ++ [.remove node id])).caches node).get key = some ref := by
  refine ⟨fun pre i post heq => ?_, ?_, ?_⟩
  · have hfresh := along_iff_forall.mp fresh pre i post heq
    rw [heq, along_append] at fresh
    exact Cluster.ordered_of_fresh (Cluster.orderly_run fresh.1) hfresh
  · rintro pre mid post node key id rfl hrestart hnames
    rw [along_append, along_append] at fresh
    rw [run_append]
    exact Cluster.names_run (Cluster.orderly_run fresh.1.1) hrestart fresh.1.2 hnames
  · intro pre node id post _ key ref hget hid
    rw [run_append]
    exact Cluster.get_step_remove hget hid

/-- A watch is cached, cancelled and registered anew on the same target, and the
sweep of the instance loads the new one. -/
def registeredAnew : List ClusterStep :=
  [.store (.ensureCursor baseChain.chainId 100), .draw, .commit 0 1 watchOrder, .load 0 1, .insert 0,
    .store (.cancelWatch 1), .draw, .commit 0 2 watchOrder, .bind 0 100, .query, .fill]

/-- The new watch takes the place of the old one. -/
theorem caches_in_order_anew :
    (run (Cluster.step baseChain) {} (registeredAnew.take 10)).Ordered baseChain .fill ∧
      ((run (Cluster.step baseChain) {} (registeredAnew.take 10)).caches 0).get ⟨0, 9⟩ =
        some ⟨1, 1, 101⟩ ∧
      ((run (Cluster.step baseChain) {} registeredAnew).caches 0).get ⟨0, 9⟩ = some ⟨2, 2, 101⟩ := by
  exact ⟨(caches_in_order registeredAnew (by decide +kernel)).1 (registeredAnew.take 10) .fill [] rfl,
    by decide +kernel, by decide +kernel⟩

/-- A watch is read for its `NOTIFY`, cancelled and registered anew on the same
target; the new one is cached, then the entry of the old one arrives. -/
def staleInsert : List ClusterStep :=
  [.store (.ensureCursor baseChain.chainId 100), .draw, .commit 0 1 watchOrder, .load 0 1,
    .store (.cancelWatch 1), .draw, .commit 0 2 watchOrder, .load 0 2, .insert 1]

/-- The cancelled watch replaces the active one. -/
theorem stale_insert_replaces :
    ((run (Cluster.step baseChain) {} staleInsert).caches 0).get ⟨0, 9⟩ = some ⟨2, 2, 101⟩ ∧
      ((run (Cluster.step baseChain) {} (staleInsert ++ [.insert 0])).caches 0).get ⟨0, 9⟩ =
        some ⟨1, 1, 101⟩ ∧
      (run (Cluster.step baseChain) {} (staleInsert ++ [.insert 0])).db.statusOf 2 =
        some .active := by
  decide +kernel

end GumIndexer
