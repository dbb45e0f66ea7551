import Mathlib.Data.Finset.Card
import Mathlib.Data.Multiset.Filter
import RespServer.Proofs.Store.Lookup

/-!
# Finite maps of records

A finite map from keys to records knows no buckets, no chains and no counter. A
well-formed store represents the map of what `find?` answers, and each operation
on the store is one on the map it represents.
-/

namespace RespServer

/-- A value with its deadline, without the key. -/
structure Record where
  value : Bytes
  deadline : Option Instant
  deriving DecidableEq

/-- A record is live before its deadline, or always if it has none. -/
def Record.live (now : Instant) (r : Record) : Bool :=
  r.deadline.all fun d => decide (now.nanos < d.nanos)

def Entry.record (e : Entry) : Record :=
  ⟨e.value, e.deadline⟩

theorem Entry.expired_eq (now : Instant) (e : Entry) : e.expired now = !e.record.live now := by
  cases h : e.deadline with
  | none => simp [expired, record, Record.live, h]
  | some d => simp [expired, record, Record.live, h, Instant.reached, ← decide_not]

/-- A finite map from keys to records. -/
structure RecordMap where
  lookup : Bytes → Option Record
  keys : Finset Bytes
  mem_keys : ∀ key, key ∈ keys ↔ (lookup key).isSome

namespace RecordMap

def empty : RecordMap where
  lookup _ := none
  keys := ∅
  mem_keys := by simp

/-- Binds a key to a record, whatever it was bound to. -/
def insert (m : RecordMap) (key : Bytes) (r : Record) : RecordMap where
  lookup key' := if key = key' then some r else m.lookup key'
  keys := Insert.insert key m.keys
  mem_keys key' := by
    rw [Finset.mem_insert, m.mem_keys]
    by_cases h : key = key'
    · simp [h]
    · simp [h, Ne.symm h]

def erase (m : RecordMap) (key : Bytes) : RecordMap where
  lookup key' := if key = key' then none else m.lookup key'
  keys := m.keys.erase key
  mem_keys key' := by
    rw [Finset.mem_erase, m.mem_keys]
    by_cases h : key = key'
    · simp [h]
    · simp [h, Ne.symm h]

/-- The keys whose records have a property. -/
def keysWith (m : RecordMap) (p : Record → Bool) : Finset Bytes :=
  m.keys.filter fun key => (m.lookup key).any p

/-- Keeps the records that have a property. -/
def retain (m : RecordMap) (p : Record → Bool) : RecordMap where
  lookup key := (m.lookup key).filter p
  keys := m.keysWith p
  mem_keys key := by
    rw [keysWith, Finset.mem_filter, m.mem_keys]
    cases m.lookup key with
    | none => simp
    | some r => simp [Option.filter]

/-- The record of a key, if it is live. -/
def visible (m : RecordMap) (now : Instant) (key : Bytes) : Option Record :=
  (m.lookup key).filter (Record.live now)

end RecordMap

namespace Store

/-- The store links exactly the records of the map. -/
structure Represents (s : Store) (m : RecordMap) : Prop where
  wellFormed : s.WellFormed
  lookup_eq : ∀ key, m.lookup key = (s.find? key).map Entry.record

theorem represents_withBuckets (n : Nat) : (withBuckets n).Represents RecordMap.empty where
  wellFormed := wellFormed_withBuckets n
  lookup_eq key := by
    rw [find?_withBuckets]
    rfl

namespace Represents

variable {s : Store} {m : RecordMap} (h : s.Represents m)
include h

theorem set (key value : Bytes) (deadline : Option Instant) :
    (s.set key value deadline).Represents (m.insert key ⟨value, deadline⟩) where
  wellFormed := h.wellFormed.set key value deadline
  lookup_eq key' := by
    rw [h.wellFormed.find?_set, RecordMap.insert]
    by_cases hk : key = key'
    · simp only [if_pos hk, Option.map_some, Entry.record]
    · simp only [if_neg hk, h.lookup_eq]

theorem remove (key : Bytes) : (s.remove key).2.Represents (m.erase key) where
  wellFormed := h.wellFormed.remove key
  lookup_eq key' := by
    rw [h.wellFormed.find?_remove, RecordMap.erase]
    by_cases hk : key = key'
    · simp only [if_pos hk, Option.map_none]
    · simp only [if_neg hk, h.lookup_eq]

theorem sweep (now : Instant) :
    (s.sweep now).2.Represents (m.retain (Record.live now)) where
  wellFormed := h.wellFormed.sweep now
  lookup_eq key := by
    rw [h.wellFormed.find?_sweep, RecordMap.retain]
    simp only [h.lookup_eq, Option.filter_map, Function.comp_def, Entry.expired_eq, Bool.not_not]

theorem visible_eq (now : Instant) (key : Bytes) :
    m.visible now key = (s.findLive? now key).map Entry.record := by
  rw [RecordMap.visible, h.lookup_eq, findLive?, Option.filter_map]
  simp only [Function.comp_def, Entry.expired_eq, Bool.not_not]

/-- The linked entries with a property are those of the keys whose records have it. -/
theorem keysWith_val (p : Record → Bool) :
    (m.keysWith p).val =
      Multiset.ofList ((s.entries.filter fun e => p e.record).map Entry.key) := by
  have hnodup : ((s.entries.filter fun e => p e.record).map Entry.key).Nodup :=
    h.wellFormed.unique.sublist (List.filter_sublist.map Entry.key)
  apply (Multiset.Nodup.ext (m.keysWith p).nodup (Multiset.coe_nodup.mpr hnodup)).mpr
  intro key
  rw [Finset.mem_val, RecordMap.keysWith, Finset.mem_filter, m.mem_keys, h.lookup_eq,
    Multiset.mem_coe, List.mem_map]
  constructor
  · rintro ⟨-, hany⟩
    obtain ⟨e, he, hp⟩ : ∃ e, s.find? key = some e ∧ p e.record := by
      cases hfind : s.find? key with
      | none =>
          rw [hfind] at hany
          cases hany
      | some e =>
          rw [hfind] at hany
          exact ⟨e, rfl, hany⟩
    obtain ⟨hmem, hk⟩ := h.wellFormed.find?_eq_some_iff.mp he
    exact ⟨e, List.mem_filter.mpr ⟨hmem, hp⟩, hk⟩
  · rintro ⟨e, he, hk⟩
    obtain ⟨hmem, hp⟩ := List.mem_filter.mp he
    rw [h.wellFormed.find?_eq_some_iff.mpr ⟨hmem, hk⟩]
    exact ⟨rfl, hp⟩

theorem card_keysWith (p : Record → Bool) :
    (m.keysWith p).card = (s.entries.filter fun e => p e.record).length := by
  rw [Finset.card, h.keysWith_val, Multiset.coe_card, List.length_map]

theorem card_keys : m.keys.card = s.size := by
  have hall : m.keysWith (fun _ => true) = m.keys := by
    apply Finset.filter_true_of_mem
    intro key hkey
    obtain ⟨r, hr⟩ := Option.isSome_iff_exists.mp ((m.mem_keys key).mp hkey)
    rw [hr]
    rfl
  rw [← hall, h.card_keysWith, List.filter_true, size, h.wellFormed.count_eq]

theorem keys_val (now : Instant) :
    (m.keysWith (Record.live now)).val = Multiset.ofList (s.keys now) := by
  rw [h.keysWith_val, Store.keys, Chain.live]
  simp only [Entry.expired_eq, Bool.not_not]

theorem sweep_fst (now : Instant) :
    (m.keysWith fun r => !r.live now).card = (s.sweep now).1 := by
  rw [h.card_keysWith, Store.sweep_fst]
  simp only [Entry.expired_eq]

end Represents

end Store

end RespServer
