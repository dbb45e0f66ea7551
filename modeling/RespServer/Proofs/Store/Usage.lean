import Mathlib.Algebra.Ring.Nat
import RespServer.Proofs.Command.LastWrite
import RespServer.Proofs.Store.Refinement

/-!
# Stores in use

A store is used by operations of its own and by requests, at any times. Whatever it is
used for, its buckets stay as many as they were, and placement, uniqueness and count of
its entries stay right. An entry that is found behind a use is the one that the use has
written, or was found there before.
-/

namespace RespServer

namespace Command

theorem buckets_removeAll_size (targets : List Bytes) (s : Store) :
    (removeAll targets s).2.buckets.size = s.buckets.size := by
  induction targets generalizing s with
  | nil => rfl
  | cons target targets ih => exact (ih (s.remove target).2).trans (s.buckets_remove_size target)

theorem buckets_effect_size (now : Instant) (s : Store) (command : Command) :
    (command.effect now s).buckets.size = s.buckets.size := by
  cases command with
  | delete targets => exact buckets_removeAll_size targets s
  | set key value seconds => exact s.buckets_set_size key value _
  | _ => rfl

end Command

namespace Store

/-- What a store is used for. -/
inductive Use where
  | operate (op : Operation)
  | request (f : Frame)

/-- The store after a use at the time `now`. -/
def use (s : Store) (now : Instant) : Use → Store
  | .operate op => (s.step now op).2
  | .request f => (RespServer.execute now s f).2

/-- The store after uses that come in order, each at a time of its own. -/
def useAll (s : Store) (uses : List (Instant × Use)) : Store :=
  uses.foldl (fun s u => s.use u.1 u.2) s

theorem buckets_use_size (s : Store) (now : Instant) (u : Use) :
    (s.use now u).buckets.size = s.buckets.size := by
  cases u with
  | operate op =>
      cases op with
      | set key value deadline => exact s.buckets_set_size key value deadline
      | setFor key value duration => exact s.buckets_set_size key value _
      | remove key => exact s.buckets_remove_size key
      | sweep => exact s.buckets_sweep_size now
      | _ => rfl
  | request f =>
      rw [use, execute_snd]
      cases Command.ofFrame f with
      | ok command => exact Command.buckets_effect_size now s command
      | error refusal => rfl

theorem buckets_useAll_size (s : Store) (uses : List (Instant × Use)) :
    (s.useAll uses).buckets.size = s.buckets.size := by
  induction uses generalizing s with
  | nil => rfl
  | cons u uses ih => exact (ih (s.use u.1 u.2)).trans (s.buckets_use_size u.1 u.2)

theorem WellFormed.use {s : Store} (hs : s.WellFormed) (now : Instant) (u : Use) :
    (s.use now u).WellFormed := by
  cases u with
  | operate op =>
      cases op with
      | set key value deadline => exact hs.set key value deadline
      | setFor key value duration => exact hs.set key value _
      | remove key => exact hs.remove key
      | sweep => exact hs.sweep now
      | _ => exact hs
  | request f => exact wellFormed_execute hs now f

theorem WellFormed.useAll {s : Store} (hs : s.WellFormed) (uses : List (Instant × Use)) :
    (s.useAll uses).WellFormed := by
  induction uses generalizing s with
  | nil => exact hs
  | cons u uses ih => exact ih (hs.use u.1 u.2)

/-- The entry that a use at the time `now` writes, if it writes one. -/
def Use.written? (now : Instant) : Use → Option Entry
  | operate (.set key value deadline) => some ⟨key, value, deadline⟩
  | operate (.setFor key value duration) => some ⟨key, value, now.after? duration⟩
  | request f =>
    match Command.ofFrame f with
    | .ok (.set key value seconds) =>
      some ⟨key, value, seconds.bind fun n => now.after? (n * Instant.second)⟩
    | _ => none
  | _ => none

section Found

variable {s : Store} (hs : s.WellFormed) {key : Bytes} {e : Entry}
include hs

/-- An entry behind a write is the one that is written, or was there under another key. -/
theorem WellFormed.found_set {w : Entry}
    (h : (s.set w.key w.value w.deadline).find? key = some e) :
    some w = some e ∨
      (∀ written, some w = some written → written.key ≠ key) ∧ s.find? key = some e := by
  rw [hs.find?_set] at h
  split at h
  · exact .inl h
  · next htarget =>
      refine .inr ⟨?_, h⟩
      rintro _ ⟨⟩
      exact htarget

/-- An entry behind a use is the one that is written, or was there and is not of that key. -/
theorem WellFormed.found_use {now : Instant} {u : Use} (h : (s.use now u).find? key = some e) :
    u.written? now = some e ∨
      (∀ written, u.written? now = some written → written.key ≠ key) ∧ s.find? key = some e := by
  cases u with
  | operate op =>
      cases op with
      | set target value deadline => exact hs.found_set h
      | setFor target value duration => exact hs.found_set h
      | remove target =>
          change (s.remove target).2.find? key = some e at h
          rw [hs.find?_remove] at h
          split at h
          · cases h
          · exact .inr ⟨nofun, h⟩
      | sweep =>
          change (s.sweep now).2.find? key = some e at h
          rw [hs.find?_sweep, Option.filter_eq_some_iff] at h
          exact .inr ⟨nofun, h.1⟩
      | _ => exact .inr ⟨nofun, h⟩
  | request f =>
      rw [Store.use, execute_snd] at h
      rw [Use.written?]
      cases hf : Command.ofFrame f with
      | error refusal =>
          rw [hf] at h
          exact .inr ⟨nofun, h⟩
      | ok command =>
          rw [hf] at h
          cases command with
          | set target value seconds => exact hs.found_set h
          | delete targets =>
              change (Command.removeAll targets s).2.find? key = some e at h
              rw [Command.find?_removeAll hs] at h
              split at h
              · cases h
              · exact .inr ⟨nofun, h⟩
          | _ => exact .inr ⟨nofun, h⟩

end Found

/-- What a sweep subtracts from the count is there. -/
theorem WellFormed.sweep_fst_add_count {s : Store} (hs : s.WellFormed) (now : Instant) :
    (s.sweep now).1 + (s.sweep now).2.count = s.count := by
  have hsplit := List.length_eq_length_filter_add (l := s.entries) fun e => e.expired now
  rw [sweep_fst, (hs.sweep now).count_eq, entries_sweep, Chain.live, hs.count_eq, hsplit]

/-- The hash of a key in numbers: every byte multiplies by 33 and is added, modulo 2³². -/
def djb2 (key : Bytes) : Nat :=
  key.foldl (fun h b => (h * 33 + b.toNat) % 2 ^ 32) 5381

theorem toNat_foldl_hash (key : Bytes) (h : UInt32) :
    (key.foldl (fun h b => h * 33 + b.toUInt32) h).toNat =
      key.foldl (fun h b => (h * 33 + b.toNat) % 2 ^ 32) h.toNat := by
  induction key generalizing h with
  | nil => rfl
  | cons b key ih =>
      rw [List.foldl_cons, List.foldl_cons, ih, UInt32.toNat_add, UInt32.toNat_mul,
        UInt8.toNat_toUInt32, Nat.mod_add_mod]
      rfl

theorem toNat_hash (key : Bytes) : (hash key).toNat = djb2 key :=
  toNat_foldl_hash key 5381

/-- Whatever a new store of `n` buckets is used for, and at whatever times, every entry is
in the bucket of its hash, no key is linked twice and the count is the sum of the lengths
of the chains. So a bucket is there for every key, and no more is ever subtracted from the
count than it holds. -/
theorem table_useAll (n : Nat) (uses : List (Instant × Use)) :
    let s := (withBuckets n).useAll uses
    s.buckets.size = max n 1 ∧
      (∀ i chain, s.buckets[i]? = some chain → ∀ e ∈ chain, djb2 e.key % max n 1 = i) ∧
      (s.buckets.toList.flatten.map Entry.key).Nodup ∧
      s.count = (s.buckets.toList.map List.length).sum ∧
      (∀ key, 0 < s.buckets.size ∧ s.bucketIndex key < s.buckets.size) ∧
      (∀ key, (s.remove key).1.toNat + (s.remove key).2.count = s.count) ∧
      ∀ now, (s.sweep now).1 + (s.sweep now).2.count = s.count := by
  intro s
  have hs : s.WellFormed := (wellFormed_withBuckets n).useAll uses
  have hsize : s.buckets.size = max n 1 :=
    (buckets_useAll_size _ uses).trans (buckets_withBuckets_size n)
  refine ⟨hsize, ?_, hs.unique, ?_, ?_, hs.remove_fst_add_size, hs.sweep_fst_add_count⟩
  · intro i chain hchain e he
    have hplaced := hs.placed i chain hchain e he
    rwa [bucketIndex, toNat_hash, hsize] at hplaced
  · rw [hs.count_eq, entries, List.length_flatten]
  · intro key
    exact ⟨hs.pos, Nat.mod_lt _ hs.pos⟩

end Store

end RespServer
