import GumIndexer.Base.Table
import GumIndexer.Numeric

/-!
# GumIndexer.Cache

The in-memory watchlist of one instance: which watch, if any, a transfer to a
(token, recipient) pair belongs to.

Besides the map the cache keeps `lastSeq`, the highest `watches.seq` it was
ever given.  Every insert raises it, whoever makes the insert; a sweep loads
the rows above it and no others.
-/

namespace GumIndexer

open Base

structure WatchKey where
  tokenIdx : UInt8
  address : Address
deriving DecidableEq, Repr

structure WatchRef where
  id : Uuid
  seq : Nat
  startBlock : Nat
deriving DecidableEq, Repr

structure WatchCache where
  map : Table (WatchKey × WatchRef) Prod.fst
  /-- Highest `watches.seq` known to this cache. -/
  lastSeq : Nat

namespace WatchCache

/-- `WatchCache::new`. -/
def new : WatchCache := ⟨Table.empty, 0⟩

/-- `WatchCache::get`. -/
def get (c : WatchCache) (key : WatchKey) : Option WatchRef := (c.map.get? key).map Prod.snd

/-- `WatchCache::insert`; the flag is true when the key was not present. -/
def insert (c : WatchCache) (key : WatchKey) (watch : WatchRef) : WatchCache × Bool :=
  (⟨c.map.upsert (key, watch), max c.lastSeq watch.seq⟩, (c.get key).isNone)

/-- `WatchCache::remove`: only if the entry still belongs to `id`. -/
def remove (c : WatchCache) (key : WatchKey) (id : Uuid) : WatchCache × Bool :=
  match c.get key with
  | some w => if w.id = id then (⟨c.map.erase key, c.lastSeq⟩, true) else (c, false)
  | none => (c, false)

variable (c : WatchCache) (key key' : WatchKey) (w : WatchRef) (id : Uuid)

@[simp] theorem get_new : new.get key = none := rfl

@[simp] theorem lastSeq_new : new.lastSeq = 0 := rfl

/-- An insert replaces what is under the key, whatever it is. -/
theorem get_insert :
    (c.insert key w).1.get key' = if key = key' then some w else c.get key' := by
  unfold insert get
  rw [Table.get?_upsert]
  by_cases h : key = key' <;> simp [h]

@[simp] theorem get_insert_self : (c.insert key w).1.get key = some w := by
  rw [get_insert, if_pos rfl]

theorem get_insert_of_ne (h : key ≠ key') : (c.insert key w).1.get key' = c.get key' := by
  rw [get_insert, if_neg h]

@[simp] theorem lastSeq_insert : (c.insert key w).1.lastSeq = max c.lastSeq w.seq := rfl

@[simp] theorem lastSeq_remove : (c.remove key id).1.lastSeq = c.lastSeq := by
  unfold remove
  split
  · split <;> rfl
  · rfl

/-- Removing touches nothing but an entry of the watch it names. -/
theorem get_remove :
    (c.remove key id).1.get key' =
      if key = key' ∧ (c.get key).any (fun w => w.id = id) then none else c.get key' := by
  unfold remove
  cases hg : c.get key with
  | none => simp
  | some w =>
      by_cases hid : w.id = id
      · subst hid
        simp only [if_true]
        rw [get, Table.get?_erase]
        by_cases hk : key = key' <;> simp [hk, get]
      · simp [hid]

/-- An entry of another watch survives a removal. -/
theorem get_remove_of_ne {w : WatchRef} (h : c.get key' = some w) (hid : w.id ≠ id) :
    (c.remove key id).1.get key' = some w := by
  rw [get_remove, if_neg, h]
  rintro ⟨rfl, ha⟩
  rw [h] at ha
  simp [hid] at ha

end WatchCache

end GumIndexer
