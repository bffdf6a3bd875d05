import GumIndexer.Push

/-!
# GumIndexer.Buckets

The two calls that change what a targeted session listens for, statement by
statement: `build_targeted` subscribes the whole watchlist from scratch,
`add_recipients` replaces the open bucket.

Both subscribe first and retire afterwards, and any subscription may fail on
the way.  A `Feed` has, next to the buckets the session holds, the
subscriptions that are live, and a `Progress` every moment of a call, so that
"no gap" is a statement about all of them.  A call that succeeds is the step of
the same name in `GumIndexer.Push` (`session_buildTargeted`,
`session_addRecipients`), from which its buckets are read off; the shape of the
buckets is that of a chunked list.
-/

namespace GumIndexer

open Base

/-! ## The shape of chunks -/

/-- All full but the last, which is not empty. -/
theorem chunksFrom_shape {α : Type} {size : Nat} (pos : 1 ≤ size) (cur xs : List α)
    (hcur : cur.length ≤ size) :
    chunksFrom size cur xs = [] ∨
      ∃ full last, chunksFrom size cur xs = full ++ [last] ∧ (∀ c ∈ full, c.length = size) ∧
        1 ≤ last.length ∧ last.length ≤ size := by
  induction xs generalizing cur with
  | nil =>
      rw [chunksFrom]
      cases cur with
      | nil => exact .inl rfl
      | cons x cur => exact .inr ⟨[], x :: cur, rfl, by simp, by simp, hcur⟩
  | cons x xs ih =>
      rw [chunksFrom]
      split
      · rename_i hlt
        exact ih (cur ++ [x]) (by rw [List.length_append]; exact hlt)
      · rename_i hge
        -- the chunk in progress is full and is closed here
        have hfull : cur.length = size := Nat.le_antisymm hcur (Nat.le_of_not_lt hge)
        rcases ih [x] pos with hnil | ⟨full, last, heq, hall, hlast⟩
        · exact .inr ⟨[], cur, by rw [hnil]; rfl, by simp, hfull ▸ pos, hfull.le⟩
        · refine .inr ⟨cur :: full, last, by rw [heq]; rfl, ?_, hlast⟩
          simpa [hfull] using hall

namespace Session

/-- Sealed buckets are full, the open one is neither full nor empty. -/
structure Shaped (s : Session) (size : Nat) : Prop where
  sealed : ∀ b ∈ s.sealed, b.length = size
  opened : ∀ b, s.opened = some b → 1 ≤ b.length ∧ b.length ≤ size - 1

variable {s : Session} {size : Nat}

/-- Fresh chunks behind full buckets: full ones, and at most one that is not. -/
theorem shaped_withFresh (pos : 1 ≤ size) (sealed : List (List Address)) (xs : List Address)
    (hsealed : ∀ b ∈ sealed, b.length = size) :
    (s.withFresh size sealed (chunksFrom size [] xs)).Shaped size := by
  unfold withFresh
  rcases chunksFrom_shape pos [] xs (Nat.zero_le size) with hnil | ⟨full, last, heq, hall, hpos, hle⟩
  · rw [hnil]
    exact ⟨hsealed, by simp⟩
  · rw [heq, List.getLast?_concat, List.dropLast_concat]
    have hfull : ∀ b ∈ sealed ++ full, b.length = size := by
      intro b hb
      exact (List.mem_append.mp hb).elim (hsealed b) (hall b)
    simp only
    split
    · rename_i hlt
      refine ⟨hfull, fun b hb => ?_⟩
      obtain rfl := Option.some.inj hb
      exact ⟨hpos, Nat.le_sub_one_of_lt hlt⟩
    · rename_i hge
      refine ⟨fun b hb => ?_, by simp⟩
      rw [← List.append_assoc] at hb
      rcases List.mem_append.mp hb with hb | hb
      · exact hfull b hb
      · rw [List.mem_singleton.mp hb]
        exact Nat.le_antisymm hle (Nat.le_of_not_lt hge)

theorem shaped_buildTargeted (pos : 1 ≤ size) (addresses : List Address) :
    (s.buildTargeted size addresses).Shaped size := by
  have h := shaped_withFresh (s := s) pos [] (sortDedup addresses) (by simp)
  exact ⟨h.sealed, h.opened⟩

/-- The sealed buckets are not touched, so only the replacement is looked at. -/
theorem Shaped.addRecipients (pos : 1 ≤ size) (shaped : s.Shaped size) (new : List Address) :
    (s.addRecipients size new).Shaped size :=
  shaped_withFresh pos s.sealed _ shaped.sealed

end Session

/-! ## Subscriptions -/

structure Bucket where
  addresses : List Address
  subId : Nat
deriving DecidableEq, Repr

/-- A targeted session and the subscriptions behind it. -/
structure Feed where
  sealed : List Bucket := []
  opened : Option Bucket := none
  removedSinceRebuild : Nat := 0
  /-- The subscriptions whose task forwards what the node sends. -/
  live : List Bucket := []
  /-- How often `eth_subscribe` was called. -/
  nextId : Nat := 0
deriving DecidableEq, Repr

namespace Feed

def buckets (f : Feed) : List Bucket := f.sealed ++ f.opened.toList

/-- The buckets without their subscriptions. -/
def session (f : Feed) : Session where
  sealed := f.sealed.map Bucket.addresses
  opened := f.opened.map Bucket.addresses
  removedSinceRebuild := f.removedSinceRebuild

/-- `fresh` behind the sealed buckets; the last of it is popped off and left
open if it is not full. -/
def withFresh (f : Feed) (size : Nat) (sealed fresh : List Bucket) : Feed :=
  match fresh.getLast? with
  | some last =>
      if last.addresses.length < size then
        { f with sealed := sealed ++ fresh.dropLast, opened := some last }
      else { f with sealed := sealed ++ fresh, opened := none }
  | none => { f with sealed := sealed, opened := none }

variable {f : Feed} {size : Nat} {sealed fresh : List Bucket} {b : Bucket}

@[simp] theorem live_withFresh : (f.withFresh size sealed fresh).live = f.live := by
  unfold withFresh
  split
  · split <;> rfl
  · rfl

@[simp] theorem nextId_withFresh : (f.withFresh size sealed fresh).nextId = f.nextId := by
  unfold withFresh
  split
  · split <;> rfl
  · rfl

/-- However the last bucket is filed, all of them are there, in order. -/
theorem buckets_withFresh : (f.withFresh size sealed fresh).buckets = sealed ++ fresh := by
  unfold withFresh
  cases hlast : fresh.getLast? with
  | none =>
      rw [List.getLast?_eq_none_iff.mp hlast]
      simp [buckets]
  | some last =>
      have hfresh : fresh.dropLast ++ [last] = fresh := List.dropLast_append_getLast? last hlast
      simp only
      split
      · simp only [buckets, Option.toList_some]
        rw [List.append_assoc, hfresh]
      · simp [buckets]

/-- Filing away the fresh buckets commutes with forgetting the subscriptions. -/
theorem session_withFresh : (f.withFresh size sealed fresh).session =
    f.session.withFresh size (sealed.map Bucket.addresses) (fresh.map Bucket.addresses) := by
  unfold withFresh Session.withFresh
  rw [List.getLast?_map]
  cases fresh.getLast? with
  | none => rfl
  | some last =>
      simp only [Option.map_some]
      split <;> simp [session, List.map_dropLast]

/-- The session holds the recipient in a bucket. -/
def Holds (f : Feed) (a : Address) : Prop := ∃ b ∈ f.buckets, a ∈ b.addresses

theorem holds_iff_subscribes {a : Address} : f.Holds a ↔ f.session.Subscribes a := by
  simp only [Holds, Session.Subscribes, Session.buckets, session, buckets]
  cases f.opened <;> simp

/-- A live subscription has the recipient in its filter. -/
def Covers (f : Feed) (a : Address) : Prop := ∃ b ∈ f.live, a ∈ b.addresses

/-- Every bucket has a live subscription of its own. -/
structure Backed (f : Feed) : Prop where
  live : ∀ b ∈ f.buckets, b ∈ f.live
  ids : (f.buckets.map Bucket.subId).Nodup
  below : ∀ b ∈ f.buckets, b.subId < f.nextId

end Feed

/-! ## Calls, moment by moment -/

/-- A call in progress. -/
structure Progress where
  now : Feed
  /-- The moments of the call that have passed. -/
  past : List Feed := []

namespace Progress

def next (p : Progress) (f : Feed) : Progress := ⟨f, p.past ++ [p.now]⟩

/-- Every moment of the call so far. -/
def Always (p : Progress) (Q : Feed → Prop) : Prop := (∀ m ∈ p.past, Q m) ∧ Q p.now

variable {p : Progress} {f : Feed} {Q : Feed → Prop}

/-- One more moment. -/
theorem Always.next (h : p.Always Q) (hf : Q f) : (p.next f).Always Q := by
  refine ⟨fun m hm => ?_, hf⟩
  rcases List.mem_append.mp hm with hm | hm
  · exact h.1 m hm
  · rw [List.mem_singleton.mp hm]
    exact h.2

theorem Always.mono {R : Feed → Prop} (h : p.Always Q) (hQ : ∀ m, Q m → R m) : p.Always R :=
  ⟨fun m hm => hQ m (h.1 m hm), hQ _ h.2⟩

end Progress

section Calls

variable (answers : Nat → Bool)

/-- `Session::subscribe`; `answers` says which `eth_subscribe` succeeds. -/
def subscribe (p : Progress) (addresses : List Address) : Except String Bucket × Progress :=
  let id := p.now.nextId
  if answers id then
    (.ok ⟨addresses, id⟩,
      p.next { p.now with live := p.now.live ++ [⟨addresses, id⟩], nextId := id + 1 })
  else (.error "subscribe_failed", p.next { p.now with nextId := id + 1 })

/-- The loop over the chunks; the first failure ends the call, and the tasks of
the buckets subscribed so far run on. -/
def subscribeAll : Progress → List (List Address) → Except String (List Bucket) × Progress
  | p, [] => (.ok [], p)
  | p, chunk :: chunks =>
      match subscribe answers p chunk with
      | (.error e, p) => (.error e, p)
      | (.ok b, p) =>
          match subscribeAll p chunks with
          | (.error e, p) => (.error e, p)
          | (.ok bs, p) => (.ok (b :: bs), p)

/-- `Session::retire`. -/
def retire (p : Progress) (bucket : Bucket) : Progress :=
  p.next { p.now with live := p.now.live.filter fun b => b.subId ≠ bucket.subId }

namespace Feed

/-- `Session::build_targeted`. -/
def buildTargeted (f : Feed) (size : Nat) (cache : WatchCache) : Except String Unit × Progress :=
  match subscribeAll answers ⟨f, []⟩ (chunksFrom size [] (sortDedup cache.addresses)) with
  | (.error e, p) => (.error e, p)
  | (.ok fresh, p) =>
      let p := p.now.buckets.foldl retire (p.next { p.now with sealed := [], opened := none })
      (.ok (), p.next { p.now.withFresh size [] fresh with removedSinceRebuild := 0 })

/-- `Session::add_recipients`. -/
def addRecipients (f : Feed) (size : Nat) (new : List Address) : Except String Unit × Progress :=
  let addresses := sortDedup ((f.opened.map Bucket.addresses).getD [] ++ sortDedup new)
  match subscribeAll answers ⟨f, []⟩ (chunksFrom size [] addresses) with
  | (.error e, p) => (.error e, p)
  | (.ok replacement, p) =>
      let p := p.now.opened.toList.foldl retire (p.next { p.now with opened := none })
      (.ok (), p.next (p.now.withFresh size p.now.sealed replacement))

end Feed

end Calls

/-! ### Subscribing -/

section Subscribing

variable (answers : Nat → Bool) {p p' : Progress}

/-- Subscribing leaves the session alone and drops no subscription. -/
structure Progress.Extends (p p' : Progress) : Prop where
  session : p'.now.session = p.now.session
  buckets : p'.now.sealed = p.now.sealed ∧ p'.now.opened = p.now.opened
  live : p.now.live ⊆ p'.now.live
  nextId : p.now.nextId ≤ p'.now.nextId
  always : ∀ K : List Bucket, p.Always (K ⊆ ·.live) → p'.Always (K ⊆ ·.live)

theorem Progress.Extends.refl (p : Progress) : p.Extends p :=
  ⟨rfl, ⟨rfl, rfl⟩, List.Subset.refl _, Nat.le_refl _, fun _ h => h⟩

theorem Progress.Extends.trans {p'' : Progress} (h : p.Extends p') (h' : p'.Extends p'') :
    p.Extends p'' :=
  ⟨h'.session.trans h.session, ⟨h'.buckets.1.trans h.buckets.1, h'.buckets.2.trans h.buckets.2⟩,
    fun _ hb => h'.live (h.live hb), h.nextId.trans h'.nextId, fun K hK => h'.always K (h.always K hK)⟩

/-- One subscription, whether it is refused or not. -/
theorem extends_subscribe (addresses : List Address) :
    p.Extends (subscribe answers p addresses).2 := by
  unfold subscribe
  simp only
  split
  · refine ⟨rfl, ⟨rfl, rfl⟩, List.subset_append_left _ _, Nat.le_succ _, fun K hK => hK.next ?_⟩
    exact fun b hb => List.mem_append_left _ (hK.2 hb)
  · exact ⟨rfl, ⟨rfl, rfl⟩, List.Subset.refl _, Nat.le_succ _, fun K hK => hK.next hK.2⟩

/-- A subscription that succeeds is live, under an id nobody had. -/
theorem subscribe_ok {addresses : List Address} {b : Bucket}
    (h : (subscribe answers p addresses).1 = .ok b) :
    b = ⟨addresses, p.now.nextId⟩ ∧ b ∈ (subscribe answers p addresses).2.now.live ∧
      (subscribe answers p addresses).2.now.nextId = p.now.nextId + 1 := by
  unfold subscribe at h ⊢
  simp only at h ⊢
  split at h
  · rename_i hok
    cases h
    simp [hok, Progress.next]
  · cases h

theorem subscribeAll_cons {chunk : List Address} {chunks : List (List Address)} :
    subscribeAll answers p (chunk :: chunks) =
      match subscribe answers p chunk with
      | (.error e, p) => (.error e, p)
      | (.ok b, p) =>
          match subscribeAll answers p chunks with
          | (.error e, p) => (.error e, p)
          | (.ok bs, p) => (.ok (b :: bs), p) := rfl

/-- So does the loop, wherever it stops. -/
theorem extends_subscribeAll (chunks : List (List Address)) :
    p.Extends (subscribeAll answers p chunks).2 := by
  induction chunks generalizing p with
  | nil => exact .refl p
  | cons chunk chunks ih =>
      have hone := extends_subscribe answers (p := p) chunk
      rw [subscribeAll_cons]
      rcases hs : subscribe answers p chunk with ⟨r, p₁⟩
      rw [hs] at hone
      cases r with
      | error e => exact hone
      | ok b =>
          have hrest := ih (p := p₁)
          rcases ha : subscribeAll answers p₁ chunks with ⟨rs, p₂⟩
          rw [ha] at hrest
          cases rs <;> simp only [ha] <;> exact hone.trans hrest

/-- What the loop has subscribed: the chunks, live and under ids of their
own. -/
theorem subscribeAll_ok {chunks : List (List Address)} {fresh : List Bucket}
    (h : subscribeAll answers p chunks = (.ok fresh, p')) :
    fresh.map Bucket.addresses = chunks ∧ fresh ⊆ p'.now.live ∧
      (fresh.map Bucket.subId).Nodup ∧
      ∀ b ∈ fresh, p.now.nextId ≤ b.subId ∧ b.subId < p'.now.nextId := by
  induction chunks generalizing p fresh with
  | nil =>
      cases h
      simp
  | cons chunk chunks ih =>
      rw [subscribeAll_cons] at h
      have hone := @subscribe_ok answers p chunk
      rcases hs : subscribe answers p chunk with ⟨r, p₁⟩
      rw [hs] at h hone
      cases r with
      | error e => cases h
      | ok b =>
          obtain ⟨hb, hlive, hnext⟩ := hone rfl
          have hext := extends_subscribeAll answers (p := p₁) chunks
          rcases ha : subscribeAll answers p₁ chunks with ⟨rs, p₂⟩
          rw [ha] at hext
          simp only [ha] at h
          cases rs with
          | error e => cases h
          | ok bs =>
              cases h
              obtain ⟨hmap, hsub, hnodup, hids⟩ := ih ha
              have hid : b.subId = p.now.nextId := by rw [hb]
              simp only at hnext hext
              refine ⟨by simp [hmap, hb], ?_, ?_, ?_⟩
              · exact List.cons_subset.mpr ⟨hext.live hlive, hsub⟩
              · refine List.nodup_cons.mpr ⟨fun hmem => ?_, hnodup⟩
                obtain ⟨b', hb', heq⟩ := List.mem_map.mp hmem
                have := (hids b' hb').1
                omega
              · intro b' hb'
                rcases List.mem_cons.mp hb' with rfl | hb'
                · have := hext.nextId
                  omega
                · have := hids b' hb'
                  omega

end Subscribing

/-! ### Retiring -/

section Retiring

variable {p : Progress} {Q : Feed → Prop}

/-- Retiring touches the subscriptions only. -/
theorem session_retire (old : List Bucket) : (old.foldl retire p).now.session = p.now.session ∧
    (old.foldl retire p).now.sealed = p.now.sealed ∧
    (old.foldl retire p).now.nextId = p.now.nextId := by
  induction old generalizing p with
  | nil => exact ⟨rfl, rfl, rfl⟩
  | cons b old ih => exact ih (p := retire p b)

/-- Retiring keeps the subscriptions of all other buckets. -/
theorem keeps_retire {old keep : List Bucket}
    (hne : ∀ b ∈ old, ∀ k ∈ keep, k.subId ≠ b.subId) (hlive : keep ⊆ p.now.live)
    (hQ : ∀ m : Feed, keep ⊆ m.live → Q m) (always : p.Always Q) :
    (old.foldl retire p).Always Q ∧ keep ⊆ (old.foldl retire p).now.live := by
  induction old generalizing p with
  | nil => exact ⟨always, hlive⟩
  | cons b old ih =>
      have hkeep : keep ⊆ (retire p b).now.live := fun k hk =>
        List.mem_filter.mpr ⟨hlive hk, by simpa using hne b List.mem_cons_self k hk⟩
      exact ih (fun b' hb' => hne b' (List.mem_cons_of_mem b hb')) hkeep
        (always.next (hQ _ hkeep))

end Retiring

/-! ## The two calls -/

inductive BucketCall
  | build (cache : WatchCache)
  | add (new : List Address)

/-- What the session is to hold after the call. -/
def BucketCall.Wants (call : BucketCall) (f : Feed) (a : Address) : Prop :=
  match call with
  | .build cache => a ∈ cache.addresses
  | .add new => f.Holds a ∨ a ∈ new

def Feed.call (answers : Nat → Bool) (size : Nat) (f : Feed) : BucketCall → Except String Unit × Progress
  | .build cache => f.buildTargeted answers size cache
  | .add new => f.addRecipients answers size new

/-- What a call from `f` keeps, whatever came of it. -/
structure Feed.Kept (f : Feed) (size : Nat) (call : BucketCall) (r : Except String Unit × Progress) :
    Prop where
  shaped : r.2.now.session.Shaped size
  union : r.1 = .ok () → ∀ a, r.2.now.Holds a ↔ call.Wants f a
  covered : r.2.Always fun m => ∀ a, f.Holds a → r.2.now.Holds a → m.Covers a
  failed : r.1 ≠ .ok () → r.2.now.sealed = f.sealed ∧ r.2.now.opened = f.opened ∧
    r.2.now.removedSinceRebuild = f.removedSinceRebuild

section Kept

variable {answers : Nat → Bool} {size : Nat} {f g : Feed} {call : BucketCall} {p : Progress}

/-- A recipient that is held is covered while the buckets' subscriptions live.
-/
theorem Feed.covers_of_subset {m : Feed} {a : Address} (h : f.buckets ⊆ m.live) (ha : f.Holds a) :
    m.Covers a := by
  obtain ⟨b, hb, hab⟩ := ha
  exact ⟨b, h hb, hab⟩

/-- A call that fails while it subscribes. -/
theorem Feed.Backed.failed (backed : f.Backed) (shaped : f.session.Shaped size)
    (h : (⟨f, []⟩ : Progress).Extends p) (e : String) :
    p.now.Backed ∧ f.Kept size call (.error e, p) := by
  have hbuckets : p.now.buckets = f.buckets := by
    rw [Feed.buckets, h.buckets.1, h.buckets.2]
    rfl
  have halways := h.always f.buckets ⟨by simp, backed.live⟩
  refine ⟨⟨?_, ?_, ?_⟩, ?_, by simp, ?_, ?_⟩
  · rw [hbuckets]
    exact halways.2
  · rw [hbuckets]
    exact backed.ids
  · rw [hbuckets]
    exact fun b hb => Nat.lt_of_lt_of_le (backed.below b hb) h.nextId
  · rw [h.session]
    exact shaped
  · exact halways.mono fun m hm a ha _ => f.covers_of_subset hm ha
  · exact fun _ => ⟨h.buckets.1, h.buckets.2, congrArg Session.removedSinceRebuild h.session⟩

/-- The hand-over: once `fresh` is live, the buckets of `old` are retired one
by one, and `keep` stays. -/
theorem Feed.Backed.handOver {chunks : List (List Address)} {old fresh : List Bucket} {d : Feed}
    (backed : f.Backed) (keep : List Bucket)
    (hfresh : subscribeAll answers ⟨f, []⟩ chunks = (.ok fresh, p))
    (hf : f.buckets = keep ++ old) (hd : d.live = p.now.live ∧ d.nextId = p.now.nextId)
    (hg : g.buckets = keep ++ fresh)
    (hlive : g.live = (old.foldl retire (p.next d)).now.live ∧
      g.nextId = (old.foldl retire (p.next d)).now.nextId) :
    g.Backed ∧ ((old.foldl retire (p.next d)).next g).Always fun m =>
      ∀ a, f.Holds a → g.Holds a → m.Covers a := by
  have hext : (⟨f, []⟩ : Progress).Extends p := by
    have h := extends_subscribeAll answers (p := ⟨f, []⟩) chunks
    rwa [hfresh] at h
  obtain ⟨-, hfreshLive, hfreshIds, hrange⟩ := subscribeAll_ok answers hfresh
  replace hrange : ∀ b ∈ fresh, f.nextId ≤ b.subId ∧ b.subId < p.now.nextId := hrange
  have hbelow : ∀ b ∈ keep ++ old, b.subId < f.nextId := hf ▸ backed.below
  have hids : ((keep ++ old).map Bucket.subId).Nodup := hf ▸ backed.ids
  have holdLive : keep ++ old ⊆ f.live := hf ▸ backed.live
  rw [List.map_append, List.nodup_append] at hids
  -- up to the last subscription the old buckets are live, from then on the new ones
  have hbefore := hext.always f.buckets ⟨by simp, backed.live⟩
  have hkeepLive : keep ++ fresh ⊆ d.live := by
    rw [hd.1]
    refine List.append_subset.mpr ⟨fun b hb => ?_, hfreshLive⟩
    exact hext.live (holdLive (List.mem_append_left old hb))
  have hcovers : ∀ m : Feed, keep ++ fresh ⊆ m.live → ∀ a, f.Holds a → g.Holds a → m.Covers a :=
    fun m hm a _ ha => g.covers_of_subset (hg ▸ hm) ha
  have hne : ∀ b ∈ old, ∀ k ∈ keep ++ fresh, k.subId ≠ b.subId := by
    intro b hb k hk
    rcases List.mem_append.mp hk with hk | hk
    · exact hids.2.2 _ (List.mem_map_of_mem hk) _ (List.mem_map_of_mem hb)
    · have := (hrange k hk).1
      have := hbelow b (List.mem_append_right keep hb)
      omega
  obtain ⟨halways, hkept⟩ := keeps_retire (p := p.next d) hne hkeepLive hcovers
    ((hbefore.mono fun m hm a ha _ => f.covers_of_subset hm ha).next (hcovers d hkeepLive))
  rw [← hlive.1] at hkept
  refine ⟨⟨hg ▸ hkept, ?_, ?_⟩, halways.next (hcovers g hkept)⟩
  · rw [hg, List.map_append, List.nodup_append]
    refine ⟨hids.1, hfreshIds, ?_⟩
    rintro _ hk _ hb rfl
    obtain ⟨k, hk, hkid⟩ := List.mem_map.mp hk
    obtain ⟨b, hb, hbid⟩ := List.mem_map.mp hb
    have := (hrange b hb).1
    have := hbelow k (List.mem_append_left old hk)
    omega
  · have hnext : g.nextId = p.now.nextId := by
      rw [hlive.2, (session_retire old).2.2]
      exact hd.2
    rw [hg, hnext]
    intro b hb
    rcases List.mem_append.mp hb with hb | hb
    · exact Nat.lt_of_lt_of_le (hbelow b (List.mem_append_left old hb)) hext.nextId
    · exact (hrange b hb).2

/-- Fresh buckets replace whatever buckets there were. -/
theorem Session.withFresh_congr {s : Session} (s' : Session) (sealed fresh : List (List Address))
    (hpending : s.pendingNew = s'.pendingNew)
    (hremoved : s.removedSinceRebuild = s'.removedSinceRebuild) :
    s.withFresh size sealed fresh = s'.withFresh size sealed fresh := by
  unfold Session.withFresh
  rw [hpending, hremoved]

/-- A call that succeeds is that of the session without subscriptions. -/
theorem session_buildTargeted {cache : WatchCache}
    (h : f.buildTargeted answers size cache = (.ok (), p)) :
    p.now.session = f.session.buildTargeted size cache.addresses := by
  unfold Feed.buildTargeted at h
  split at h
  · cases h
  · rename_i fresh q hfresh
    cases h
    have hmap := (subscribeAll_ok answers hfresh).1
    have hwith : ∀ g : Feed, { g.withFresh size [] fresh with removedSinceRebuild := 0 }.session =
        { (g.withFresh size [] fresh).session with removedSinceRebuild := 0 } := fun g => rfl
    rw [Progress.next, hwith, Feed.session_withFresh, hmap]
    unfold Session.buildTargeted Session.withFresh
    split
    · split <;> rfl
    · rfl

/-- The same for `add_recipients`: the sealed buckets are those of before. -/
theorem session_addRecipients {new : List Address}
    (h : f.addRecipients answers size new = (.ok (), p)) :
    p.now.session = f.session.addRecipients size new := by
  unfold Feed.addRecipients at h
  simp only at h
  split at h
  · cases h
  · rename_i fresh q hfresh
    cases h
    have hmap := (subscribeAll_ok answers hfresh).1
    have hext := extends_subscribeAll answers (p := ⟨f, []⟩) (chunksFrom size []
      (sortDedup ((f.opened.map Bucket.addresses).getD [] ++ sortDedup new)))
    rw [hfresh] at hext
    obtain ⟨hsession, hsealed, -⟩ :=
      session_retire (p := q.next { q.now with opened := none }) q.now.opened.toList
    rw [Progress.next, Feed.session_withFresh, hmap, hsealed]
    rw [Session.withFresh_congr f.session]
    · show f.session.withFresh size (q.now.sealed.map Bucket.addresses) _ = _
      rw [hext.buckets.1]
      rfl
    · rfl
    · rw [hsession]
      show q.now.session.removedSinceRebuild = f.session.removedSinceRebuild
      rw [hext.session]

/-- A call fails while it subscribes, or hands over. -/
theorem Feed.Backed.call_cases (backed : f.Backed) (answers : Nat → Bool) (size : Nat)
    (call : BucketCall) :
    (∃ e p, f.call answers size call = (.error e, p) ∧ (⟨f, []⟩ : Progress).Extends p) ∨
      ∃ p, f.call answers size call = (.ok (), p) ∧ p.now.Backed ∧
        p.Always fun m => ∀ a, f.Holds a → p.now.Holds a → m.Covers a := by
  cases call with
  | build cache =>
      have hext := extends_subscribeAll answers (p := ⟨f, []⟩)
        (chunksFrom size [] (sortDedup cache.addresses))
      rcases hs : subscribeAll answers ⟨f, []⟩ (chunksFrom size [] (sortDedup cache.addresses))
        with ⟨r, p⟩
      rw [hs] at hext
      cases r with
      | error e => exact .inl ⟨e, p, by simp only [Feed.call, Feed.buildTargeted, hs], hext⟩
      | ok fresh =>
          have hold : p.now.buckets = f.buckets := by
            rw [Feed.buckets, hext.buckets.1, hext.buckets.2]
            rfl
          refine .inr ⟨_, by simp only [Feed.call, Feed.buildTargeted, hs]; rfl, ?_⟩
          exact backed.handOver [] hs hold.symm ⟨rfl, rfl⟩ Feed.buckets_withFresh
            ⟨Feed.live_withFresh, Feed.nextId_withFresh⟩
  | add new =>
      have hext := extends_subscribeAll answers (p := ⟨f, []⟩) (chunksFrom size []
        (sortDedup ((f.opened.map Bucket.addresses).getD [] ++ sortDedup new)))
      rcases hs : subscribeAll answers ⟨f, []⟩ (chunksFrom size []
        (sortDedup ((f.opened.map Bucket.addresses).getD [] ++ sortDedup new))) with ⟨r, p⟩
      rw [hs] at hext
      cases r with
      | error e => exact .inl ⟨e, p, by simp only [Feed.call, Feed.addRecipients, hs], hext⟩
      | ok fresh =>
          have hold : f.buckets = p.now.sealed ++ p.now.opened.toList := by
            rw [hext.buckets.1, hext.buckets.2]
            rfl
          refine .inr ⟨_, by simp only [Feed.call, Feed.addRecipients, hs]; rfl, ?_⟩
          refine backed.handOver p.now.sealed hs hold ⟨rfl, rfl⟩ ?_
            ⟨Feed.live_withFresh, Feed.nextId_withFresh⟩
          rw [Progress.next, Feed.buckets_withFresh, (session_retire _).2.1]
          rfl

/-- **One call**: the buckets stay backed, and the call keeps what it should. -/
theorem Feed.Backed.kept (backed : f.Backed) (shaped : f.session.Shaped size) (pos : 1 ≤ size)
    (call : BucketCall) :
    (f.call answers size call).2.now.Backed ∧ f.Kept size call (f.call answers size call) := by
  rcases backed.call_cases answers size call with
    ⟨e, p, hcall, hext⟩ | ⟨p, hcall, hbacked, hcovered⟩
  · rw [hcall]
    exact backed.failed shaped hext e
  · rw [hcall]
    refine ⟨hbacked, ?_, fun _ a => ?_, hcovered, by simp⟩
    · cases call with
      | build cache =>
          rw [session_buildTargeted hcall]
          exact Session.shaped_buildTargeted pos cache.addresses
      | add new =>
          rw [session_addRecipients hcall]
          exact shaped.addRecipients pos new
    · cases call with
      | build cache =>
          rw [Feed.holds_iff_subscribes, session_buildTargeted hcall,
            Session.subscribes_buildTargeted]
          rfl
      | add new =>
          rw [Feed.holds_iff_subscribes, session_addRecipients hcall,
            Session.subscribes_addRecipients, ← Feed.holds_iff_subscribes]
          rfl

end Kept

/-- What changes a session: the two calls, and the messages about retired
watches that come between them. -/
inductive FeedEvent
  | call (call : BucketCall)
  | removed

/-- The session after a call or a message. -/
def Feed.step (answers : Nat → Bool) (size : Nat) (f : Feed) : FeedEvent → Feed
  | .call call => (f.call answers size call).2.now
  | .removed => { f with removedSinceRebuild := f.removedSinceRebuild + 1 }

/-- **Buckets.**  After any calls on an empty session, with any of their
subscriptions failing, the buckets have their shape; and the next call loses no
recipient at any of its moments, ends with what it was to hold, or fails and
leaves the session as it was. -/
theorem buckets_kept {size : Nat} (pos : 1 ≤ size) (answers : Nat → Bool) (events : List FeedEvent)
    (call : BucketCall) :
    (run (Feed.step answers size) {} events).session.Shaped size ∧
      (run (Feed.step answers size) {} events).Kept size call
        ((run (Feed.step answers size) {} events).call answers size call) := by
  have hinv : (run (Feed.step answers size) {} events).Backed ∧
      (run (Feed.step answers size) {} events).session.Shaped size := by
    refine invariant_run (fun f : Feed => f.Backed ∧ f.session.Shaped size) ?_ ?_ events
    · rintro f e ⟨backed, shaped⟩
      cases e with
      | call call =>
          obtain ⟨hbacked, hkept⟩ := backed.kept shaped pos call
          exact ⟨hbacked, hkept.shaped⟩
      | removed => exact ⟨⟨backed.live, backed.ids, backed.below⟩, shaped.sealed, shaped.opened⟩
    · exact ⟨⟨by simp [Feed.buckets], by simp [Feed.buckets], by simp [Feed.buckets]⟩,
        by simp [Feed.session], by simp [Feed.session]⟩
  exact ⟨hinv.2, (hinv.1.kept hinv.2 pos call).2⟩

/-- Three recipients are cached. -/
def threeWatched : WatchCache :=
  [10, 20, 30].foldl (fun c a => (c.insert ⟨0, a⟩ ⟨a.toNat, a.toNat, 101⟩).1) .new

/-- Buckets of two, and a node that refuses from its fourth subscription on. -/
def refusedFeed : Feed :=
  run (Feed.step (· < 3) 2) {} [.call (.build threeWatched), .removed, .call (.add [20])]

/-- A call that is refused its second subscription changes nothing. -/
theorem buckets_kept_refused :
    refusedFeed.sealed.map Bucket.addresses = [[10, 20], [20, 30]] ∧
      refusedFeed.removedSinceRebuild = 1 ∧
      (refusedFeed.call (· < 3) 2 (.add [40])).1 = .error "subscribe_failed" ∧
      refusedFeed.Kept 2 (.add [40]) (refusedFeed.call (· < 3) 2 (.add [40])) :=
  ⟨by decide +kernel, by decide +kernel, by rfl, (buckets_kept (by decide) _ _ _).2⟩

end GumIndexer
