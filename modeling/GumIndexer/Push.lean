import GumIndexer.Chunking
import Mathlib.Data.List.Dedup

/-!
# GumIndexer.Push

The push path: which recipients a WSS session listens for.

A targeted session subscribes to the recipients of the cache in buckets.  It
reads the cache only when it builds its buckets from scratch; between two
builds it learns of a new recipient by an `Added` message on the change
channel, gathers such recipients in `pending_new` and subscribes them together.
The cache is written by four parties -- registrations, hydration, sweeps and
backfills -- and the message is sent apart from the insert, so a `Runtime`
has the messages that a thread is about to send, and the keys that a sweep in
progress has discovered.

The session is one task, but it waits for the provider.  It drains the channel
(`connect`), takes a snapshot of the cache and subscribes it (`build`,
`housekeeping`), takes a message off the channel (`receive`), or takes what it has
gathered and subscribes that (`coalesce`); the buckets change when the provider
has answered (`answered`).  A session whose subscription fails ends.

Two things are lost sight of.  A sweep that fails has written what it discovered
to the cache, and reports nothing (`not_follows_failedSweep`).  And what
`coalesce` has taken is nowhere until the provider answers
(`not_follows_coalescing`).  `push_follows` is the result: no other recipient of
the cache is left out.
-/

namespace GumIndexer

open Base

/-! ## The session -/

inductive WatchChange
  | added (address : Address)
  | removed
deriving DecidableEq, Repr

/-- `slice::chunks`, with the chunk in progress. -/
def chunksFrom {α : Type} (size : Nat) : List α → List α → List (List α)
  | cur, [] => if cur.isEmpty then [] else [cur]
  | cur, x :: xs =>
      if cur.length < size then chunksFrom size (cur ++ [x]) xs else cur :: chunksFrom size [x] xs

/-- Chunking loses nothing and keeps the order. -/
theorem flatten_chunksFrom {α : Type} (size : Nat) (cur xs : List α) :
    (chunksFrom size cur xs).flatten = cur ++ xs := by
  induction xs generalizing cur with
  | nil => cases cur <;> simp [chunksFrom]
  | cons x xs ih =>
      rw [chunksFrom]
      split
      · rw [ih, List.append_assoc]
        rfl
      · rw [List.flatten_cons, ih]
        rfl

/-- `sort_unstable` and `dedup`. -/
def sortDedup (addresses : List Address) : List Address :=
  (addresses.insertionSort fun a b => a.toNat ≤ b.toNat).dedup

theorem mem_sortDedup {a : Address} {addresses : List Address} :
    a ∈ sortDedup addresses ↔ a ∈ addresses := by
  rw [sortDedup, List.mem_dedup, List.mem_insertionSort]

/-- `WatchCache::addresses`. -/
def WatchCache.addresses (c : WatchCache) : List Address := c.map.rows.map fun e => e.1.address

/-- What is cached is in the snapshot. -/
theorem WatchCache.mem_addresses {c : WatchCache} {key : WatchKey} {watch : WatchRef}
    (h : c.get key = some watch) : key.address ∈ c.addresses := by
  obtain ⟨e, he, -⟩ := Option.map_eq_some_iff.mp h
  have hkey : e.1 = key := Table.key_of_get? he
  rw [← hkey]
  exact List.mem_map_of_mem (Table.mem_of_get? he)

/-- A live session in targeted mode. -/
structure Session where
  sealed : List (List Address) := []
  /-- The one bucket still below `ws_bucket_size`. -/
  opened : Option (List Address) := none
  pendingNew : List Address := []
  removedSinceRebuild : Nat := 0
deriving DecidableEq, Repr

namespace Session

def buckets (s : Session) : List (List Address) := s.sealed ++ s.opened.toList

/-- `Session::subscribed`. -/
def subscribed (s : Session) : Nat := (s.buckets.map List.length).sum

/-- Fresh buckets behind the sealed ones; the last of them is left open if it
is not full. -/
def withFresh (s : Session) (size : Nat) (sealed fresh : List (List Address)) : Session :=
  match fresh.getLast? with
  | some last =>
      if last.length < size then { s with sealed := sealed ++ fresh.dropLast, opened := some last }
      else { s with sealed := sealed ++ fresh, opened := none }
  | none => { s with sealed := sealed, opened := none }

/-- `Session::build_targeted`: the whole watchlist, from scratch; `addresses` is
what the call has read from the cache. -/
def buildTargeted (s : Session) (size : Nat) (addresses : List Address) : Session :=
  { s.withFresh size [] (chunksFrom size [] (sortDedup addresses)) with
    removedSinceRebuild := 0 }

/-- `Session::add_recipients`: replace the open bucket. -/
def addRecipients (s : Session) (size : Nat) (new : List Address) : Session :=
  s.withFresh size s.sealed
    (chunksFrom size [] (sortDedup (s.opened.getD [] ++ sortDedup new)))

variable {s : Session} {size : Nat} {a : Address}

/-- The recipient is in a bucket. -/
def Subscribes (s : Session) (a : Address) : Prop := ∃ b ∈ s.buckets, a ∈ b

instance : Decidable (s.Subscribes a) := inferInstanceAs (Decidable (∃ b ∈ s.buckets, a ∈ b))

/-- However the last bucket is filed, a recipient is in one of the buckets. -/
theorem subscribes_withFresh {sealed fresh : List (List Address)} :
    (s.withFresh size sealed fresh).Subscribes a ↔ ∃ b ∈ sealed ++ fresh, a ∈ b := by
  unfold withFresh
  cases hlast : fresh.getLast? with
  | none =>
      rw [List.getLast?_eq_none_iff.mp hlast]
      simp [Subscribes, buckets]
  | some last =>
      have hfresh : fresh.dropLast ++ [last] = fresh := List.dropLast_append_getLast? last hlast
      simp only
      split
      · simp only [Subscribes, buckets, Option.toList_some]
        rw [List.append_assoc, hfresh]
      · simp [Subscribes, buckets]

/-- After `build_targeted` exactly the snapshot is subscribed. -/
theorem subscribes_buildTargeted {addresses : List Address} :
    (s.buildTargeted size addresses).Subscribes a ↔ a ∈ addresses := by
  change (s.withFresh size [] (chunksFrom size [] (sortDedup addresses))).Subscribes a ↔ _
  rw [subscribes_withFresh, List.nil_append, ← List.mem_flatten, flatten_chunksFrom, List.nil_append,
    mem_sortDedup]

/-- After `add_recipients` the new recipients are subscribed, too. -/
theorem subscribes_addRecipients {new : List Address} :
    (s.addRecipients size new).Subscribes a ↔ s.Subscribes a ∨ a ∈ new := by
  rw [addRecipients, subscribes_withFresh, ← List.mem_flatten, List.flatten_append, List.mem_append,
    flatten_chunksFrom, List.nil_append, mem_sortDedup, List.mem_append, mem_sortDedup, Subscribes,
    buckets, ← List.mem_flatten, List.flatten_append, List.mem_append, or_assoc]
  cases s.opened <;> simp

@[simp] theorem pendingNew_withFresh (sealed fresh : List (List Address)) :
    (s.withFresh size sealed fresh).pendingNew = s.pendingNew := by
  unfold withFresh
  split
  · split <;> rfl
  · rfl

@[simp] theorem pendingNew_buildTargeted (addresses : List Address) :
    (s.buildTargeted size addresses).pendingNew = s.pendingNew :=
  pendingNew_withFresh _ _

end Session

/-! ## The runtime of a chain -/

/-- What a session waits for the provider to subscribe. -/
inductive Session.Request
  /-- `add_recipients`, with what was taken out of `pending_new`. -/
  | add (new : List Address)
  /-- `build_targeted`, with what was read from the cache. -/
  | rebuild (addresses : List Address)
deriving DecidableEq, Repr

inductive Link
  | down
  /-- Connected; the channel was drained and the cache is not read yet. -/
  | drained
  /-- The first buckets are being subscribed. -/
  | building (addresses : List Address)
  | live (s : Session)
  /-- Live, in a call that waits for the provider. -/
  | waiting (s : Session) (request : Session.Request)
deriving DecidableEq, Repr

/-- The live session. -/
def Link.session? : Link → Option Session
  | .live s => some s
  | .waiting s _ => some s
  | _ => none

/-- What a call of `add_recipients` in progress has taken. -/
def Link.adding : Link → List Address
  | .waiting _ (.add new) => new
  | _ => []

/-- The session has read the cache. -/
def Link.hasRead : Link → Bool
  | .down | .drained => false
  | _ => true

/-- The delta load of a sweep in progress. -/
structure Sweeping where
  /-- The rows that it has still to insert. -/
  rows : List (WatchKey × WatchRef) := []
  discovered : List WatchKey := []

/-- The state that the tasks of one instance share for a chain. -/
structure Runtime where
  cache : WatchCache := .new
  hydrated : Bool := false
  /-- Messages that a thread is about to send. -/
  sending : List WatchChange := []
  channel : List WatchChange := []
  sweeping : Option Sweeping := none
  link : Link := .down

/-- `note_cache_changed`. -/
def noteCacheChanged (added : List WatchKey) (removed : Nat) : List WatchChange :=
  added.map (fun key => .added key.address) ++ List.replicate removed .removed

namespace Runtime

variable (r : Runtime)

/-- `add_watch`; the message is on its way. -/
def addWatch (key : WatchKey) (watch : WatchRef) : Runtime :=
  { r with
    cache := (r.cache.insert key watch).1
    sending := if (r.cache.insert key watch).2 then r.sending ++ [.added key.address]
      else r.sending }

/-- `remove_watch`. -/
def removeWatch (key : WatchKey) (id : Uuid) : Runtime :=
  { r with
    cache := (r.cache.remove key id).1
    sending := if (r.cache.remove key id).2 then r.sending ++ [.removed] else r.sending }

def send (i : Nat) : Runtime :=
  match r.sending[i]? with
  | some change => { r with sending := r.sending.eraseIdx i, channel := r.channel ++ [change] }
  | none => r

/-- A row of `hydrate`: a chain is bootstrapped before it is led, and once. -/
def hydrate (key : WatchKey) (watch : WatchRef) : Runtime :=
  if r.hydrated then r else { r with cache := (r.cache.insert key watch).1 }

/-- The SELECT of the delta load of `apply_sweep`, from what is in the database
then. -/
def deltaLoad (chain : ChainSpec) (db : Db) : Runtime :=
  match r.sweeping with
  | some _ => r
  | none =>
      { r with
        sweeping := some
          { rows := (activeRows db chain r.cache.lastSeq).filterMap (slimEntry chain) } }

/-- One row of the delta load goes into the cache. -/
def fill : Runtime :=
  match r.sweeping with
  | some ⟨e :: rows, discovered⟩ =>
      { r with
        cache := (loadEntry (r.cache, discovered) e).1
        sweeping := some ⟨rows, (loadEntry (r.cache, discovered) e).2⟩ }
  | _ => r

/-- A sweep has committed: it evicts, then it reports. -/
def sweepApplied (completed : List (WatchKey × Uuid)) : Runtime :=
  match r.sweeping with
  | some ⟨[], discovered⟩ =>
      { r with
        cache := evictCompleted r.cache { completed }
        sending := r.sending ++ noteCacheChanged discovered completed.length
        sweeping := none }
  | _ => r

/-- A sweep has ended after its SELECT, and has not committed. -/
def sweepFailed : Runtime := { r with sweeping := none }

def backfillApplied (completed : List (WatchKey × Uuid)) : Runtime :=
  { r with
    cache := evictCompleted r.cache { completed }
    sending := r.sending ++ noteCacheChanged [] completed.length }

/-- The start of `session`, up to the drain; a parked chain does not connect. -/
def connect : Runtime :=
  if r.hydrated ∧ r.link = .down ∧ r.cache.addresses ≠ [] then
    { r with channel := [], link := .drained }
  else r

def build : Runtime :=
  match r.link with
  | .drained => { r with link := .building r.cache.addresses }
  | _ => r

/-- The provider has answered the subscriptions of a call. -/
def answered (size : Nat) : Runtime :=
  match r.link with
  | .building addresses => { r with link := .live (Session.buildTargeted {} size addresses) }
  | .waiting s (.add new) => { r with link := .live (s.addRecipients size new) }
  | .waiting s (.rebuild addresses) => { r with link := .live (s.buildTargeted size addresses) }
  | _ => r

/-- Out of a session, a message on the channel is dropped. -/
def discard : Runtime := if r.link = .down then { r with channel := r.channel.tail } else r

/-- `changes.recv` in the loop of `session`. -/
def receive : Runtime :=
  match r.link, r.channel with
  | .live s, .added a :: channel =>
      { r with channel, link := .live { s with pendingNew := s.pendingNew ++ [a] } }
  | .live s, .removed :: channel =>
      { r with
        channel
        link := .live { s with removedSinceRebuild := s.removedSinceRebuild + 1 } }
  | _, _ => r

/-- The timer runs only while recipients are pending. -/
def coalesce : Runtime :=
  match r.link with
  | .live s =>
      if s.pendingNew = [] then r
      else { r with link := .waiting { s with pendingNew := [] } (.add s.pendingNew) }
  | _ => r

def housekeeping (size : Nat) : Runtime :=
  match r.link with
  | .live s =>
      if r.cache.addresses = [] then { r with link := .down }
      -- compact once the retired recipients are the majority
      else if max s.subscribed (size / 4) < s.removedSinceRebuild * 2 then
        { r with link := .waiting s (.rebuild r.cache.addresses) }
      else r
  | _ => r

end Runtime

inductive RuntimeStep
  | addWatch (key : WatchKey) (watch : WatchRef)
  | removeWatch (key : WatchKey) (id : Uuid)
  | send (i : Nat)
  | hydrate (key : WatchKey) (watch : WatchRef)
  | hydrated
  | deltaLoad (db : Db)
  | fill
  | sweepApplied (completed : List (WatchKey × Uuid))
  | sweepFailed
  | backfillApplied (completed : List (WatchKey × Uuid))
  | connect
  | build
  | answered
  | disconnect
  | discard
  | receive
  | coalesce
  | housekeeping

variable (chain : ChainSpec) (size : Nat)

/-- One step of one of the tasks; `size` is `ws_bucket_size`. -/
def runtimeStep (r : Runtime) : RuntimeStep → Runtime
  | .addWatch key watch => r.addWatch key watch
  | .removeWatch key id => r.removeWatch key id
  | .send i => r.send i
  | .hydrate key watch => r.hydrate key watch
  | .hydrated => { r with hydrated := true }
  | .deltaLoad db => r.deltaLoad chain db
  | .fill => r.fill
  | .sweepApplied completed => r.sweepApplied completed
  | .sweepFailed => r.sweepFailed
  | .backfillApplied completed => r.backfillApplied completed
  | .connect => r.connect
  | .build => r.build
  | .answered => r.answered size
  | .disconnect => { r with link := .down }
  | .discard => r.discard
  | .receive => r.receive
  | .coalesce => r.coalesce
  | .housekeeping => r.housekeeping size

/-! ## What the session has been told -/

namespace Runtime

/-- The recipient is subscribed, or a message on the way says that it should
be. -/
def Reported (r : Runtime) (s : Session) (a : Address) : Prop :=
  s.Subscribes a ∨ a ∈ s.pendingNew ∨ .added a ∈ r.channel ∨ .added a ∈ r.sending

/-- The sweep in progress has discovered the key, and reports it once it has
committed. -/
def Discovered (r : Runtime) (key : WatchKey) : Prop := ∃ w ∈ r.sweeping, key ∈ w.discovered

instance (r : Runtime) (s : Session) (a : Address) : Decidable (r.Reported s a) :=
  inferInstanceAs (Decidable (_ ∨ _ ∨ _ ∨ _))

instance (r : Runtime) (key : WatchKey) : Decidable (r.Discovered key) :=
  inferInstanceAs (Decidable (∃ w ∈ r.sweeping, key ∈ w.discovered))

/-- **A live session follows the watchlist**: every recipient in the cache is
reported to it or about to be. -/
def Follows (r : Runtime) : Prop :=
  ∀ s ∈ r.link.session?, ∀ key watch, r.cache.get key = some watch →
    r.Reported s key.address ∨ r.Discovered key

/-- A session starts only on a hydrated chain. -/
def Led (r : Runtime) : Prop := r.link ≠ .down → r.hydrated = true

end Runtime

/-- The session needs no message about the recipient: it listens for it now or
will, and will once the provider has answered. -/
def Link.Minds (a : Address) : Link → Prop
  | .down | .drained => True
  | .building addresses => a ∈ addresses
  | .live s => s.Subscribes a ∨ a ∈ s.pendingNew
  | .waiting s (.add new) => s.Subscribes a ∨ a ∈ s.pendingNew ∨ a ∈ new
  | .waiting s (.rebuild addresses) =>
      (s.Subscribes a ∨ a ∈ s.pendingNew) ∧ (a ∈ addresses ∨ a ∈ s.pendingNew)

namespace Runtime

/-- What is cached is minded, or there is a message about it, or there will be. -/
def Tracks (r : Runtime) : Prop :=
  ∀ key watch, r.cache.get key = some watch → r.link.Minds key.address ∨
    .added key.address ∈ r.channel ∨ .added key.address ∈ r.sending ∨ r.Discovered key

variable {r r' : Runtime}

/-- A session that keeps track of the cache misses only what `add_recipients`
has taken. -/
theorem Tracks.reported (h : r.Tracks) {s : Session} (hs : s ∈ r.link.session?) {key : WatchKey}
    {watch : WatchRef} (hget : r.cache.get key = some watch) :
    r.Reported s key.address ∨ r.Discovered key ∨ key.address ∈ r.link.adding := by
  rcases h key watch hget with hminds | hsent
  · cases hlink : r.link with
    | down => rw [hlink] at hs; contradiction
    | drained => rw [hlink] at hs; contradiction
    | building _ => rw [hlink] at hs; contradiction
    | live s' =>
        rw [hlink] at hs hminds
        obtain rfl := Option.some.inj hs
        exact .inl (hminds.imp_right .inl)
    | waiting s' request =>
        rw [hlink] at hs hminds
        obtain rfl := Option.some.inj hs
        cases request with
        | add new =>
            rcases hminds with hsub | hpending | hnew
            · exact .inl (.inl hsub)
            · exact .inl (.inr (.inl hpending))
            · exact .inr (.inr hnew)
        | rebuild _ => exact .inl (hminds.1.imp_right .inl)
  · unfold Reported
    tauto

/-- A step keeps track if what it caches is reported, and what it forgets was not
cached. -/
theorem Tracks.step (tracks : r.Tracks)
    (hkeep : ∀ key, r.link.Minds key.address ∨ .added key.address ∈ r.channel ∨
        .added key.address ∈ r.sending ∨ r.Discovered key →
      (∃ watch, r'.cache.get key = some watch) → r'.link.Minds key.address ∨
        .added key.address ∈ r'.channel ∨ .added key.address ∈ r'.sending ∨ r'.Discovered key)
    (hcache : ∀ key watch, r'.cache.get key = some watch → r.cache.get key = none →
      .added key.address ∈ r'.sending ∨ r'.Discovered key) : r'.Tracks := by
  intro key watch hget
  cases hold : r.cache.get key with
  | none => exact .inr (.inr (hcache key watch hget hold))
  | some old => exact hkeep key (tracks key old hold) ⟨watch, hget⟩

/-- A step that only adds messages, and only removes from the cache. -/
theorem Tracks.send (tracks : r.Tracks) (hlink : r'.link = r.link)
    (hcache : ∀ key, r.cache.get key = none → r'.cache.get key = none)
    (hsent : ∀ key, .added key.address ∈ r.channel ∨ .added key.address ∈ r.sending ∨
        r.Discovered key →
      .added key.address ∈ r'.channel ∨ .added key.address ∈ r'.sending ∨ r'.Discovered key) :
    r'.Tracks := by
  refine tracks.step (fun key h _ => ?_) fun key watch hget hold => ?_
  · rw [hlink]
    exact h.imp_right (hsent key)
  · rw [hcache key hold] at hget
    contradiction

/-- A turn of the session. -/
theorem Tracks.turn (tracks : r.Tracks) {link : Link} {channel : List WatchChange}
    (h : ∀ key watch, r.cache.get key = some watch →
      r.link.Minds key.address ∨ .added key.address ∈ r.channel →
        link.Minds key.address ∨ .added key.address ∈ channel) :
    ({ r with channel, link } : Runtime).Tracks := by
  intro key watch hget
  have hold := tracks key watch hget
  have hturn := h key watch hget
  change link.Minds key.address ∨ .added key.address ∈ channel ∨ .added key.address ∈ r.sending ∨
    r.Discovered key
  tauto

end Runtime

/-- Eviction adds nothing. -/
theorem get_evictCompleted_none {cache : WatchCache} {out : SweepOutcome} {key : WatchKey}
    (h : cache.get key = none) : (evictCompleted cache out).get key = none := by
  rw [evictCompleted, get_evict, h]
  rfl

/-! ## Steps -/

namespace Runtime

variable {chain size} {r : Runtime}

/-- A session is hydrated when it starts, and a chain stays hydrated. -/
theorem Led.step (led : r.Led) (i : RuntimeStep) : (runtimeStep chain size r i).Led := by
  intro hlink
  cases i with
  | addWatch key watch => exact led hlink
  | removeWatch key id => exact led hlink
  | hydrated => rfl
  | sweepFailed => exact led hlink
  | backfillApplied completed => exact led hlink
  | disconnect => exact absurd rfl hlink
  | send i => grind [runtimeStep, Runtime.send, Led]
  | hydrate key watch => grind [runtimeStep, Runtime.hydrate, Led]
  | deltaLoad db => grind [runtimeStep, Runtime.deltaLoad, Led]
  | fill => grind [runtimeStep, Runtime.fill, Led]
  | sweepApplied completed => grind [runtimeStep, Runtime.sweepApplied, Led]
  | connect => grind [runtimeStep, Runtime.connect, Led]
  | build => grind [runtimeStep, Runtime.build, Led]
  | answered => grind [runtimeStep, Runtime.answered, Led]
  | discard => grind [runtimeStep, Runtime.discard, Led]
  | receive => grind [runtimeStep, Runtime.receive, Led]
  | coalesce => grind [runtimeStep, Runtime.coalesce, Led]
  | housekeeping => grind [runtimeStep, Runtime.housekeeping, Led]

/-- A registration sends a message for a key that was not cached. -/
theorem Tracks.addWatch (tracks : r.Tracks) (key : WatchKey) (watch : WatchRef) :
    (r.addWatch key watch).Tracks := by
  have hsending : ∀ change ∈ r.sending, change ∈ (r.addWatch key watch).sending := by
    intro change h
    unfold Runtime.addWatch
    dsimp only
    split
    · exact List.mem_append_left _ h
    · exact h
  refine tracks.step (fun key' h _ => ?_) fun key' watch' hget hold => ?_
  · exact h.imp_right (Or.imp_right (Or.imp_left (hsending _)))
  · have hk : key = key' := by
      by_contra hne
      rw [Runtime.addWatch, WatchCache.get_insert_of_ne _ _ _ _ hne, hold] at hget
      contradiction
    subst hk
    left
    unfold Runtime.addWatch WatchCache.insert
    simp [hold]

/-- A removal sends no `Added`, and takes at most its own key out of the
cache. -/
theorem Tracks.removeWatch (tracks : r.Tracks) (key : WatchKey) (id : Uuid) :
    (r.removeWatch key id).Tracks := by
  refine tracks.send rfl (fun key' hnone => ?_) fun key' => ?_
  · rw [Runtime.removeWatch, WatchCache.get_remove, hnone]
    split <;> rfl
  · refine Or.imp_right (Or.imp_left fun h => ?_)
    unfold Runtime.removeWatch
    dsimp only
    split
    · exact List.mem_append_left _ h
    · exact h

/-- A message moves from one list to the other. -/
theorem Tracks.sendOne (tracks : r.Tracks) (i : Nat) : (r.send i).Tracks := by
  unfold Runtime.send
  split
  · rename_i change hi
    obtain ⟨hlt, rfl⟩ := List.getElem?_eq_some_iff.mp hi
    refine tracks.send rfl (fun _ h => h) fun key => ?_
    rintro (h | h | h)
    · exact .inl (List.mem_append_left _ h)
    · have hperm := (List.getElem_cons_eraseIdx_perm hlt).mem_iff.mpr h
      rcases List.mem_cons.mp hperm with h | h
      · exact .inl (List.mem_append_right _ (List.mem_singleton.mpr h))
      · exact .inr (.inl h)
    · exact .inr (.inr h)
  · exact tracks

/-- Whatever comes before the snapshot will be in it. -/
theorem tracks_of_not_read (h : r.link.hasRead = false) : r.Tracks := by
  intro key watch _
  left
  cases hlink : r.link with
  | down => trivial
  | drained => trivial
  | _ => rw [hlink] at h; contradiction

/-- Hydration is over before a session starts. -/
theorem Tracks.hydrate (led : r.Led) (tracks : r.Tracks) (key : WatchKey) (watch : WatchRef) :
    (r.hydrate key watch).Tracks := by
  unfold Runtime.hydrate
  split
  · exact tracks
  · rename_i hhydrated
    have hdown : r.link = .down := by
      by_contra hlink
      exact hhydrated (led hlink)
    exact tracks_of_not_read (by rw [hdown]; rfl)

/-- The SELECT puts nothing into the cache yet. -/
theorem Tracks.deltaLoad (tracks : r.Tracks) (db : Db) : (r.deltaLoad chain db).Tracks := by
  unfold Runtime.deltaLoad
  cases hsweeping : r.sweeping with
  | some w => exact tracks
  | none =>
      refine tracks.send rfl (fun _ h => h) fun key => Or.imp_right (Or.imp_right ?_)
      rintro ⟨w, hw, -⟩
      rw [hsweeping] at hw
      contradiction

/-- A key that a row of the delta load brings in is discovered. -/
theorem Tracks.fill (tracks : r.Tracks) : r.fill.Tracks := by
  unfold Runtime.fill
  split
  · rename_i e rows discovered hsweeping
    have hkept : discovered ⊆ (loadEntry (r.cache, discovered) e).2 := by
      intro key hkey
      change key ∈ if (r.cache.insert e.1 e.2).2 then discovered ++ [e.1] else discovered
      split
      · exact List.mem_append_left _ hkey
      · exact hkey
    refine tracks.step (fun key h _ => ?_) fun key watch hget hold => .inr ⟨_, rfl, ?_⟩
    · refine h.imp_right (Or.imp_right (Or.imp_right fun hdisc => ?_))
      obtain ⟨w, hw, hkey⟩ := hdisc
      rw [hsweeping] at hw
      obtain rfl := Option.some.inj hw
      exact ⟨_, rfl, hkept hkey⟩
    · have hk : e.1 = key := by
        by_contra hne
        have hsame := WatchCache.get_insert_of_ne r.cache e.1 key e.2 hne
        rw [show (loadEntry (r.cache, discovered) e).1 = (r.cache.insert e.1 e.2).1 from rfl, hsame,
          hold] at hget
        contradiction
      subst hk
      have hnew : (r.cache.insert e.1 e.2).2 = true := by simp [WatchCache.insert, hold]
      change e.1 ∈ if (r.cache.insert e.1 e.2).2 then discovered ++ [e.1] else discovered
      rw [if_pos hnew]
      exact List.mem_append_right _ (List.mem_singleton_self e.1)
  · exact tracks

/-- What a sweep has discovered is in the messages it sends once it commits. -/
theorem Tracks.sweepApplied (tracks : r.Tracks) (completed : List (WatchKey × Uuid)) :
    (r.sweepApplied completed).Tracks := by
  unfold Runtime.sweepApplied
  split
  · rename_i discovered hsweeping
    refine tracks.send rfl (fun key => get_evictCompleted_none) fun key => ?_
    rintro (h | h | ⟨w, hw, hkey⟩)
    · exact .inl h
    · exact .inr (.inl (List.mem_append_left _ h))
    · rw [hsweeping] at hw
      obtain rfl := Option.some.inj hw
      have hsent : WatchChange.added key.address ∈ noteCacheChanged discovered completed.length :=
        List.mem_append_left _ (List.mem_map_of_mem hkey)
      exact .inr (.inl (List.mem_append_right _ hsent))
  · exact tracks

/-- A backfill only evicts. -/
theorem Tracks.backfillApplied (tracks : r.Tracks) (completed : List (WatchKey × Uuid)) :
    (r.backfillApplied completed).Tracks :=
  tracks.send rfl (fun _ => get_evictCompleted_none) fun _ =>
    Or.imp_right (Or.imp_left (List.mem_append_left _))

/-- The drained messages are about recipients that the snapshot will have. -/
theorem Tracks.connect (tracks : r.Tracks) : r.connect.Tracks := by
  unfold Runtime.connect
  split
  · exact tracks_of_not_read rfl
  · exact tracks

/-- A snapshot has what is cached. -/
theorem Tracks.build (tracks : r.Tracks) : r.build.Tracks := by
  unfold Runtime.build
  split
  · exact fun key watch hget => .inl (WatchCache.mem_addresses hget)
  · exact tracks

/-- **The provider's answer** turns what the call has taken into buckets. -/
theorem Tracks.answered (tracks : r.Tracks) : (r.answered size).Tracks := by
  unfold Runtime.answered
  split
  · rename_i addresses hlink
    refine tracks.turn fun key watch _ => Or.imp_left fun hminds => .inl ?_
    rw [hlink] at hminds
    exact Session.subscribes_buildTargeted.mpr hminds
  · rename_i s new hlink
    refine tracks.turn fun key watch _ => Or.imp_left fun hminds => ?_
    rw [hlink] at hminds
    change (s.addRecipients size new).Subscribes key.address ∨
      key.address ∈ (s.addRecipients size new).pendingNew
    rw [Session.subscribes_addRecipients, Session.addRecipients, Session.pendingNew_withFresh]
    rcases hminds with h | h | h
    · exact .inl (.inl h)
    · exact .inr h
    · exact .inl (.inr h)
  · rename_i s addresses hlink
    refine tracks.turn fun key watch _ => Or.imp_left fun hminds => ?_
    rw [hlink] at hminds
    change (s.buildTargeted size addresses).Subscribes key.address ∨
      key.address ∈ (s.buildTargeted size addresses).pendingNew
    rw [Session.subscribes_buildTargeted, Session.pendingNew_buildTargeted]
    exact hminds.2
  · exact tracks

/-- Without a session nobody needs the messages. -/
theorem Tracks.discard (tracks : r.Tracks) : r.discard.Tracks := by
  unfold Runtime.discard
  split
  · rename_i hdown
    refine tracks_of_not_read ?_
    change r.link.hasRead = false
    rw [hdown]
    rfl
  · exact tracks

/-- The message that is taken is pending now. -/
theorem Tracks.receive (tracks : r.Tracks) : r.receive.Tracks := by
  unfold Runtime.receive
  split
  · rename_i s a channel hlink hchannel
    refine tracks.turn fun key watch _ => ?_
    rw [hlink, hchannel, List.mem_cons, WatchChange.added.injEq]
    change (s.Subscribes key.address ∨ key.address ∈ s.pendingNew) ∨ key.address = a ∨ _ →
      (s.Subscribes key.address ∨ key.address ∈ s.pendingNew ++ [a]) ∨ _
    rw [List.mem_append, List.mem_singleton]
    tauto
  · rename_i s channel hlink hchannel
    refine tracks.turn fun key watch _ => ?_
    rw [hlink, hchannel, List.mem_cons]
    rintro (h | h | h)
    · exact .inl h
    · contradiction
    · exact .inr h
  · exact tracks

/-- What is taken out of `pending_new` is minded by the call that has it. -/
theorem Tracks.coalesce (tracks : r.Tracks) : r.coalesce.Tracks := by
  unfold Runtime.coalesce
  split
  · rename_i s hlink
    split
    · exact tracks
    · refine tracks.turn fun key watch _ => Or.imp_left fun hminds => ?_
      rw [hlink] at hminds
      exact hminds.imp_right .inr
  · exact tracks

/-- A rebuild takes a snapshot; the old buckets serve until it is answered. -/
theorem Tracks.housekeeping (tracks : r.Tracks) : (r.housekeeping size).Tracks := by
  unfold Runtime.housekeeping
  split
  · rename_i s hlink
    split
    · exact tracks_of_not_read rfl
    · split
      · refine tracks.turn fun key watch hget => Or.imp_left fun hminds => ?_
        rw [hlink] at hminds
        exact ⟨hminds, .inl (WatchCache.mem_addresses hget)⟩
      · exact tracks
  · exact tracks

end Runtime

/-- A sweep that fails after a session has read the cache leaves nothing in it
that it has discovered. -/
def RuntimeStep.Spares (r : Runtime) : RuntimeStep → Prop
  | .sweepFailed => r.link.hasRead = true →
      ∀ w ∈ r.sweeping, ∀ key ∈ w.discovered, r.cache.get key = none
  | _ => True

instance (r : Runtime) (i : RuntimeStep) : Decidable (i.Spares r) :=
  match i with
  | .sweepFailed => inferInstanceAs (Decidable (r.link.hasRead = true →
      ∀ w ∈ r.sweeping, ∀ key ∈ w.discovered, r.cache.get key = none))
  | .addWatch _ _ | .removeWatch _ _ | .send _ | .hydrate _ _ | .hydrated | .deltaLoad _ | .fill
  | .sweepApplied _ | .backfillApplied _ | .connect | .build | .answered | .disconnect | .discard
  | .receive | .coalesce | .housekeeping => isTrue trivial

/-- What a failed sweep has discovered is forgotten, and must not be cached. -/
theorem Runtime.Tracks.sweepFailed {r : Runtime} (tracks : r.Tracks)
    (spares : RuntimeStep.sweepFailed.Spares r) : r.sweepFailed.Tracks := by
  cases hread : r.link.hasRead with
  | false => exact tracks_of_not_read hread
  | true =>
      refine tracks.step (fun key h ⟨watch, hget⟩ => ?_) fun key watch hget hold => ?_
      · refine h.imp_right (Or.imp_right (Or.imp_right ?_))
        rintro ⟨w, hw, hkey⟩
        rw [show r.sweepFailed.cache = r.cache from rfl, spares hread w hw key hkey] at hget
        contradiction
      · exact absurd (hold.symm.trans hget) (Option.some_ne_none watch).symm

variable {chain size}

/-- **Every step keeps track**, if a sweep that fails leaves nothing behind. -/
theorem tracks_runtimeStep {r : Runtime} (led : r.Led) (tracks : r.Tracks) {i : RuntimeStep}
    (spares : i.Spares r) : (runtimeStep chain size r i).Tracks := by
  cases i with
  | sweepFailed => exact tracks.sweepFailed spares
  | addWatch key watch => exact tracks.addWatch key watch
  | removeWatch key id => exact tracks.removeWatch key id
  | send i => exact tracks.sendOne i
  | hydrate key watch => exact tracks.hydrate led key watch
  | hydrated => exact tracks
  | deltaLoad db => exact tracks.deltaLoad db
  | fill => exact tracks.fill
  | sweepApplied completed => exact tracks.sweepApplied completed
  | backfillApplied completed => exact tracks.backfillApplied completed
  | connect => exact tracks.connect
  | build => exact tracks.build
  | answered => exact tracks.answered
  | disconnect => exact Runtime.tracks_of_not_read rfl
  | discard => exact tracks.discard
  | receive => exact tracks.receive
  | coalesce => exact tracks.coalesce
  | housekeeping => exact tracks.housekeeping

/-- A run in which the sweeps that fail leave nothing behind. -/
theorem tracks_run {steps : List RuntimeStep}
    (spares : Along (runtimeStep chain size) (fun r i => i.Spares r) {} steps) :
    (run (runtimeStep chain size) {} steps).Tracks :=
  (invariant_along (fun r : Runtime => r.Led ∧ r.Tracks)
    (fun _ i _ inv hok => ⟨inv.1.step i, tracks_runtimeStep inv.1 inv.2 hok⟩)
    ⟨fun h => absurd rfl h, Runtime.tracks_of_not_read rfl⟩ spares).2

/-- **The push path follows the watchlist** in every run in which the sweeps
that fail leave nothing behind, whenever `add_recipients` does not wait for the
provider. -/
theorem push_follows (steps : List RuntimeStep)
    (spares : Along (runtimeStep chain size) (fun r i => i.Spares r) {} steps)
    (answered : (run (runtimeStep chain size) {} steps).link.adding = []) :
    (run (runtimeStep chain size) {} steps).Follows := by
  intro s hs key watch hget
  rcases (tracks_run spares).reported hs hget with h | h | h
  · exact .inl h
  · exact .inr h
  · rw [answered] at h
    contradiction

/-- A session starts with the one watch there is.  A sweep then finds the watch
that another instance has registered since. -/
def secondFound : List RuntimeStep :=
  [.hydrate ⟨0, 9⟩ ⟨1, 1, 101⟩, .hydrated, .connect, .build, .answered,
    .deltaLoad (run exec Db.empty
      [.ensureCursor baseChain.chainId 100, .createWatch 1 watchOrder,
        .createWatch 2 { watchOrder with paymentAddress := 10 }]),
    .fill]

/-- The sweep commits, and the session takes up what it reports. -/
def secondCoalesced : List RuntimeStep :=
  secondFound ++ [.sweepApplied [], .send 0, .receive, .coalesce]

/-- Both recipients are subscribed in the end. -/
theorem push_follows_second :
    (run (runtimeStep baseChain 64) {} (secondCoalesced ++ [.answered])).link =
        .live ⟨[], some [9, 10], [], 0⟩ ∧
      (run (runtimeStep baseChain 64) {} (secondCoalesced ++ [.answered])).Follows :=
  ⟨by decide +kernel, push_follows _ (by decide +kernel) (by decide +kernel)⟩

/-- The sweep fails before it commits: the second recipient is in the cache, and
the session is never told. -/
theorem not_follows_failedSweep :
    ¬ (run (runtimeStep baseChain 64) {} (secondFound ++ [.sweepFailed])).Follows := by
  intro follows
  have hreported := follows ⟨[], some [9], [], 0⟩ (by decide +kernel) ⟨0, 10⟩ ⟨2, 2, 101⟩
    (by decide +kernel)
  revert hreported
  decide +kernel

/-- Nor is the second recipient anywhere while the session waits for the
provider. -/
theorem not_follows_coalescing :
    ¬ (run (runtimeStep baseChain 64) {} secondCoalesced).Follows := by
  intro follows
  have hreported := follows ⟨[], some [9], [], 0⟩ (by decide +kernel) ⟨0, 10⟩ ⟨2, 2, 101⟩
    (by decide +kernel)
  revert hreported
  decide +kernel

end GumIndexer
