import Mathlib.Data.List.Induction
import Mathlib.Data.List.Nodup
import Mathlib.Data.List.Perm.Subperm
import GumIndexer.Base.Run

/-!
# Base.Firsts

The first of the elements with one key: how a reader makes a stream that may
repeat itself happen once.

A stream is read against the list it is drawn from.  If it never shows an
element before it has shown all that come earlier in that list, the firsts of
the stream are an initial piece of the list (`firsts_isPrefix`), in its order.
-/

namespace Base

universe u v

variable {α : Type u} {κ : Type v} [DecidableEq κ] (key : α → κ)

/-- Takes the next element, unless its key has been there. -/
def keep (kept : List α) (x : α) : List α :=
  if key x ∈ kept.map key then kept else kept ++ [x]

def firsts (xs : List α) : List α := run (keep key) [] xs

@[simp] theorem firsts_nil : firsts key [] = [] := rfl

theorem firsts_concat (xs : List α) (x : α) : firsts key (xs ++ [x]) = keep key (firsts key xs) x := by
  rw [firsts, run_append, run_cons, run_nil, firsts]

variable {key} {xs ys : List α} {x : α}

theorem mem_of_mem_firsts (h : x ∈ firsts key xs) : x ∈ xs := by
  induction xs using List.reverseRecOn with
  | nil => exact h
  | append_singleton xs y ih =>
      rw [firsts_concat, keep] at h
      split at h
      · exact List.mem_append_left _ (ih h)
      · rcases List.mem_append.mp h with hold | hnew
        · exact List.mem_append_left _ (ih hold)
        · exact List.mem_append_right _ hnew

/-- No key is lost. -/
theorem key_mem_firsts (key : α → κ) (h : x ∈ xs) : key x ∈ (firsts key xs).map key := by
  induction xs using List.reverseRecOn with
  | nil => cases h
  | append_singleton xs y ih =>
      rw [firsts_concat, keep]
      rcases List.mem_append.mp h with hold | hnew
      · split
        · exact ih hold
        · rw [List.map_append]
          exact List.mem_append_left _ (ih hold)
      · obtain rfl := List.mem_singleton.mp hnew
        split
        · assumption
        · simp

theorem nodup_firsts (xs : List α) : ((firsts key xs).map key).Nodup := by
  induction xs using List.reverseRecOn with
  | nil => exact List.nodup_nil
  | append_singleton xs y ih =>
      rw [firsts_concat, keep]
      split
      · exact ih
      · next hnew =>
          rw [List.map_append, List.map_singleton]
          exact ih.append (List.nodup_singleton _) (by simpa using hnew)

/-- A part of the stream which keeps to its own keys can be read by itself. -/
theorem filter_firsts (p : α → Bool) (respects : ∀ x ∈ xs, ∀ y ∈ xs, key x = key y → p x = p y) :
    (firsts key xs).filter p = firsts key (xs.filter p) := by
  induction xs using List.reverseRecOn with
  | nil => rfl
  | append_singleton xs y ih =>
      have hxs : ∀ x ∈ xs, x ∈ xs ++ [y] := fun _ => List.mem_append_left _
      have hy : y ∈ xs ++ [y] := by simp
      specialize ih fun a ha b hb => respects a (hxs a ha) b (hxs b hb)
      rw [firsts_concat, List.filter_append]
      by_cases hp : p y = true
      · -- the keys that are in the way of `y` are those of its own part
        have hkey : key y ∈ (firsts key xs).map key ↔ key y ∈ (firsts key (xs.filter p)).map key := by
          rw [← ih]
          constructor
          · intro h
            obtain ⟨x, hx, heq⟩ := List.mem_map.mp h
            have hpx : p x = true := by rw [respects x (hxs x (mem_of_mem_firsts hx)) y hy heq, hp]
            exact List.mem_map.mpr ⟨x, List.mem_filter.mpr ⟨hx, hpx⟩, heq⟩
          · intro h
            obtain ⟨x, hx, heq⟩ := List.mem_map.mp h
            exact List.mem_map.mpr ⟨x, (List.mem_filter.mp hx).1, heq⟩
        rw [List.filter_singleton, hp, cond_true, firsts_concat, keep, keep]
        split
        · next h => rw [if_pos (hkey.mp h), ih]
        · next h =>
            rw [if_neg (mt hkey.mpr h), List.filter_append, ih, List.filter_singleton, hp, cond_true]
      · have hnone : [y].filter p = [] := by simp [hp]
        rw [hnone, List.append_nil, ← ih, keep]
        split
        · rfl
        · rw [List.filter_append, hnone, List.append_nil]

/-- **A stream in order.**  Everything in the stream is from `ys`, and what
comes before it there has been in the stream before. -/
theorem firsts_isPrefix (distinct : (ys.map key).Nodup) (drawn : ∀ x ∈ xs, x ∈ ys)
    (closed : ∀ (older : List α) x newer, xs = older ++ x :: newer →
      ∀ (before : List α) after, ys = before ++ x :: after → before ⊆ older) :
    firsts key xs <+: ys := by
  induction xs using List.reverseRecOn with
  | nil => exact List.nil_prefix
  | append_singleton xs x ih =>
      have hpre : firsts key xs <+: ys := ih (fun y hy => drawn y (List.mem_append_left _ hy))
        fun older y newer hsplit => closed older y (newer ++ [x]) (by rw [hsplit]; simp)
      rw [firsts_concat, keep]
      split
      · exact hpre
      · next hnew =>
          obtain ⟨before, after, hys⟩ := List.append_of_mem (drawn x (by simp))
          have hnodup : ys.Nodup := List.Nodup.of_map key distinct
          -- what is read so far reaches up to `x` and not beyond
          have hread : before ⊆ firsts key xs := by
            intro y hy
            have hyx : y ∈ xs := closed xs x [] rfl before after hys hy
            obtain ⟨z, hz, heq⟩ := List.mem_map.mp (key_mem_firsts key hyx)
            have hzy : z = y := List.inj_on_of_nodup_map distinct (hpre.subset hz) (by simp [hys, hy]) heq
            rwa [← hzy]
          have hbefore : before <+: ys := by rw [hys]; exact List.prefix_append _ _
          have heq : firsts key xs = before := by
            rcases List.prefix_or_prefix_of_prefix hpre hbefore with hshort | hlong
            · refine hshort.eq_of_length_le ?_
              exact (List.Nodup.subperm (hnodup.sublist hbefore.sublist) hread).length_le
            · obtain ⟨rest, hrest⟩ := hlong
              cases rest with
              | nil => rw [← hrest, List.append_nil]
              | cons y rest =>
                  -- the next one read would be `x`
                  have hy : y = x := by
                    have hcons : before ++ y :: rest <+: before ++ x :: after := by rw [hrest, ← hys]; exact hpre
                    exact (List.cons_prefix_cons.mp ((List.prefix_append_right_inj before).mp hcons)).1
                  refine absurd (List.mem_map_of_mem ?_) hnew
                  rw [← hrest, hy]
                  simp
          exact ⟨after, by rw [heq, hys, List.append_assoc, List.singleton_append]⟩

end Base
