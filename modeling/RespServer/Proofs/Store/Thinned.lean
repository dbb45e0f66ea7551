import Mathlib.Data.List.Perm.Subperm
import RespServer.Proofs.Store.Lookup

/-!
# Thinned stores

A store is thinned from another one if it lacks some of its expired entries and has
the same entries otherwise. It stays so when both are written or removed from alike,
when time goes on, and when it alone is swept. The places of the entries play no part.
-/

namespace RespServer.Store

/-- All entries of `s` are found in `u`, and all live ones of `u` in `s`. -/
structure ThinnedFrom (s u : Store) (now : Instant) : Prop where
  wellFormed : s.WellFormed
  wellFormed_full : u.WellFormed
  kept : ∀ key e, s.find? key = some e → u.find? key = some e
  live : ∀ key e, u.find? key = some e → e.expired now = false → s.find? key = some e

theorem WellFormed.thinnedFrom_self {s : Store} (hs : s.WellFormed) (now : Instant) :
    s.ThinnedFrom s now where
  wellFormed := hs
  wellFormed_full := hs
  kept _ _ h := h
  live _ _ h _ := h

/-- The entries of a well-formed store are pairwise different. -/
theorem WellFormed.nodup_entries {s : Store} (hs : s.WellFormed) : s.entries.Nodup :=
  hs.unique.of_map Entry.key

namespace ThinnedFrom

variable {s u : Store} {now : Instant} (h : s.ThinnedFrom u now)
include h

theorem of_le {now' : Instant} (hle : now.nanos ≤ now'.nanos) : s.ThinnedFrom u now' where
  wellFormed := h.wellFormed
  wellFormed_full := h.wellFormed_full
  kept := h.kept
  live key e hfind hlive := by
    apply h.live key e hfind
    apply Bool.eq_false_iff.mpr
    intro hexpired
    rw [expired_of_le hle hexpired] at hlive
    cases hlive

/-- Only the thinned store is swept. -/
theorem sweep : (s.sweep now).2.ThinnedFrom u now where
  wellFormed := h.wellFormed.sweep now
  wellFormed_full := h.wellFormed_full
  kept key e hfind := by
    rw [h.wellFormed.find?_sweep, Option.filter_eq_some_iff] at hfind
    exact h.kept key e hfind.1
  live key e hfind hlive := by
    rw [h.wellFormed.find?_sweep, Option.filter_eq_some_iff]
    exact ⟨h.live key e hfind hlive, by rw [hlive]; rfl⟩

/-- Both stores are changed alike, if they are changed at all under a key. -/
theorem of_find? {s' u' : Store} (hs : s'.WellFormed) (hu : u'.WellFormed)
    (hfind : ∀ key, s'.find? key = u'.find? key ∨
      s'.find? key = s.find? key ∧ u'.find? key = u.find? key) : s'.ThinnedFrom u' now where
  wellFormed := hs
  wellFormed_full := hu
  kept key e hkept := by
    rcases hfind key with heq | ⟨hs', hu'⟩
    · rwa [← heq]
    · rw [hu']
      exact h.kept key e (hs' ▸ hkept)
  live key e hfull hlive := by
    rcases hfind key with heq | ⟨hs', hu'⟩
    · rwa [heq]
    · rw [hs']
      exact h.live key e (hu' ▸ hfull) hlive

theorem set (key value : Bytes) (deadline : Option Instant) :
    (s.set key value deadline).ThinnedFrom (u.set key value deadline) now := by
  apply h.of_find? (h.wellFormed.set key value deadline) (h.wellFormed_full.set key value deadline)
  intro key'
  rw [h.wellFormed.find?_set, h.wellFormed_full.find?_set]
  by_cases hkey : key = key'
  · rw [if_pos hkey, if_pos hkey]
    exact .inl rfl
  · rw [if_neg hkey, if_neg hkey]
    exact .inr ⟨rfl, rfl⟩

theorem remove (key : Bytes) : (s.remove key).2.ThinnedFrom (u.remove key).2 now := by
  apply h.of_find? (h.wellFormed.remove key) (h.wellFormed_full.remove key)
  intro key'
  rw [h.wellFormed.find?_remove, h.wellFormed_full.find?_remove]
  by_cases hkey : key = key'
  · rw [if_pos hkey, if_pos hkey]
    exact .inl rfl
  · rw [if_neg hkey, if_neg hkey]
    exact .inr ⟨rfl, rfl⟩

/-- A key that is removed from the thinned store was linked in the full one. -/
theorem remove_fst_le (key : Bytes) : (s.remove key).1.toNat ≤ (u.remove key).1.toNat := by
  rw [remove_fst, remove_fst]
  cases hfind : s.find? key with
  | none => exact Nat.zero_le _
  | some e =>
      apply Nat.le_of_eq
      exact congrArg (fun found => found.isSome.toNat) (h.kept key e hfind).symm

theorem findLive?_eq (key : Bytes) : s.findLive? now key = u.findLive? now key := by
  apply Option.ext
  intro e
  rw [findLive?, findLive?, Option.filter_eq_some_iff, Option.filter_eq_some_iff]
  constructor
  · rintro ⟨hfind, hlive⟩
    exact ⟨h.kept key e hfind, hlive⟩
  · rintro ⟨hfind, hlive⟩
    exact ⟨h.live key e hfind (by simpa using hlive), hlive⟩

theorem get?_eq (key : Bytes) : s.get? now key = u.get? now key := by
  rw [get?, get?, h.findLive?_eq]

theorem contains_eq : s.contains now = u.contains now := by
  funext key
  rw [contains, contains, h.get?_eq]

theorem lifetime_eq (key : Bytes) : s.lifetime now key = u.lifetime now key := by
  rw [lifetime, lifetime, h.findLive?_eq]

theorem entries_subset : s.entries ⊆ u.entries := by
  intro e he
  have hfind := h.kept e.key e (h.wellFormed.find?_eq_some_iff.mpr ⟨he, rfl⟩)
  exact (h.wellFormed_full.find?_eq_some_iff.mp hfind).1

/-- The live entries are the same, in another order. -/
theorem live_perm : (Chain.live now s.entries).Perm (Chain.live now u.entries) := by
  rw [Chain.live, Chain.live]
  apply (List.perm_ext_iff_of_nodup (h.wellFormed.nodup_entries.filter _)
    (h.wellFormed_full.nodup_entries.filter _)).mpr
  intro e
  rw [List.mem_filter, List.mem_filter]
  constructor
  · rintro ⟨he, hlive⟩
    exact ⟨h.entries_subset he, hlive⟩
  · rintro ⟨he, hlive⟩
    have hfind := h.wellFormed_full.find?_eq_some_iff.mpr ⟨he, rfl⟩
    have hkept := h.live e.key e hfind (by simpa using hlive)
    exact ⟨(h.wellFormed.find?_eq_some_iff.mp hkept).1, hlive⟩

theorem keys_perm : (s.keys now).Perm (u.keys now) :=
  h.live_perm.map Entry.key

theorem size_le : s.size ≤ u.size := by
  rw [size, size, h.wellFormed.count_eq, h.wellFormed_full.count_eq]
  exact (h.wellFormed.nodup_entries.subperm h.entries_subset).length_le

end ThinnedFrom

end RespServer.Store
