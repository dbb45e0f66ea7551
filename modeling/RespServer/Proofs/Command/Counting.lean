import Mathlib.Data.Finset.Card
import RespServer.Proofs.Store.Reachable
import RespServer.Proofs.Store.RecordMap
import RespServer.Proofs.Store.Thinned

/-!
# Counting listed keys

`DEL` counts the linked keys that are listed, whether they have expired or not and however
often they are listed. `EXISTS` counts the places of the list that name a live key.
-/

namespace RespServer

namespace Store

variable {s : Store}

/-- The keys of all linked entries, expired ones included. -/
def linked (s : Store) : Finset Bytes :=
  (s.entries.map Entry.key).toFinset

theorem mem_linked_iff {key : Bytes} : key ∈ s.linked ↔ ∃ e ∈ s.entries, e.key = key := by
  rw [linked, List.mem_toFinset, List.mem_map]

theorem WellFormed.card_linked (hs : s.WellFormed) : s.linked.card = s.size := by
  rw [linked, List.toFinset_card_of_nodup hs.unique, List.length_map, size, hs.count_eq]

/-- A key is there if one of the linked entries has it and is live. -/
theorem WellFormed.contains_iff (hs : s.WellFormed) {now : Instant} {key : Bytes} :
    s.contains now key ↔ ∃ e ∈ s.entries, e.key = key ∧ e.record.live now := by
  rw [contains, get?, Option.isSome_map, Option.isSome_iff_exists]
  apply exists_congr
  intro e
  rw [findLive?, Option.filter_eq_some_iff, hs.find?_eq_some_iff, Entry.expired_eq, Bool.not_not,
    and_assoc]

end Store

namespace Command

section RemoveAll

variable {s : Store} {targets : List Bytes}

theorem removeAll_of_missing (h : ∀ key ∈ targets, s.find? key = none) :
    removeAll targets s = (0, s) := by
  induction targets with
  | nil => rfl
  | cons target targets ih =>
      have htarget := h target List.mem_cons_self
      have hremove : s.remove target = (false, s) := by
        apply Prod.ext
        · rw [Store.remove_fst, htarget]
          rfl
        · exact Store.remove_of_find?_eq_none target htarget
      have hrest := ih fun key hkey => h key (List.mem_cons_of_mem target hkey)
      simp only [removeAll, hremove, hrest, Bool.toNat_false, Nat.add_zero]

variable (hs : s.WellFormed)
include hs

theorem mem_entries_removeAll {e : Entry} :
    e ∈ (removeAll targets s).2.entries ↔ e ∈ s.entries ∧ e.key ∉ targets := by
  have hfound := find?_removeAll hs targets e.key
  constructor
  · intro he
    rw [(wellFormed_removeAll hs targets).find?_eq_some_iff.mpr ⟨he, rfl⟩] at hfound
    split at hfound
    · cases hfound
    · next hkey => exact ⟨(hs.find?_eq_some_iff.mp hfound.symm).1, hkey⟩
  · rintro ⟨he, hkey⟩
    rw [if_neg hkey, hs.find?_eq_some_iff.mpr ⟨he, rfl⟩] at hfound
    exact ((wellFormed_removeAll hs targets).find?_eq_some_iff.mp hfound).1

theorem linked_removeAll : (removeAll targets s).2.linked = s.linked \ targets.toFinset := by
  ext key
  rw [Finset.mem_sdiff, List.mem_toFinset, Store.mem_linked_iff, Store.mem_linked_iff]
  constructor
  · rintro ⟨e, he, rfl⟩
    obtain ⟨hold, hkey⟩ := (mem_entries_removeAll hs).mp he
    exact ⟨⟨e, hold, rfl⟩, hkey⟩
  · rintro ⟨⟨e, hold, rfl⟩, hkey⟩
    exact ⟨e, (mem_entries_removeAll hs).mpr ⟨hold, hkey⟩, rfl⟩

/-- What is counted and what is left behind make up all the linked keys. -/
theorem removeAll_fst : (removeAll targets s).1 = (targets.toFinset ∩ s.linked).card := by
  have hcount : (removeAll targets s).1 + (s.linked \ targets.toFinset).card = s.linked.card := by
    rw [← linked_removeAll hs, (wellFormed_removeAll hs targets).card_linked, hs.card_linked]
    exact removeAll_fst_add_size hs targets
  have hsplit := Finset.card_inter_add_card_sdiff s.linked targets.toFinset
  rw [Finset.inter_comm] at hsplit
  omega

/-- Of the list only its members matter, neither their order nor their repetitions. -/
theorem removeAll_congr {targets' : List Bytes} (h : ∀ key, key ∈ targets' ↔ key ∈ targets) :
    (removeAll targets' s).1 = (removeAll targets s).1 ∧
      (removeAll targets' s).2.entries.Perm (removeAll targets s).2.entries := by
  constructor
  · have hset : targets'.toFinset = targets.toFinset := by
      ext key
      rw [List.mem_toFinset, List.mem_toFinset, h]
    rw [removeAll_fst hs, removeAll_fst hs, hset]
  · apply (List.perm_ext_iff_of_nodup (wellFormed_removeAll hs targets').nodup_entries
      (wellFormed_removeAll hs targets).nodup_entries).mpr
    intro e
    rw [mem_entries_removeAll hs, mem_entries_removeAll hs, h]

/-- Once they are removed, there is nothing left to be removed. -/
theorem removeAll_removeAll :
    removeAll targets (removeAll targets s).2 = (0, (removeAll targets s).2) := by
  apply removeAll_of_missing
  intro key hkey
  rw [find?_removeAll hs, if_pos hkey]

theorem countP_contains (now : Instant) :
    targets.countP (s.contains now) =
      targets.countP fun key => decide (∃ e ∈ s.entries, e.key = key ∧ e.record.live now) := by
  apply List.countP_congr
  intro key _
  rw [hs.contains_iff, decide_eq_true_iff]

end RemoveAll

/-- A list that fits the memory has no more members than a number of 64 bits can hold. -/
theorem toInt_ofNat_of_le_length {targets : List Bytes} {n : Nat} (hn : n ≤ targets.length)
    (hlength : targets.length < 2 ^ 63) : (Int64.ofNat n).toInt = n :=
  Int64.toInt_ofNat_of_lt (by omega)

theorem card_toFinset_inter_le (targets : List Bytes) (linked : Finset Bytes) :
    (targets.toFinset ∩ linked).card ≤ targets.length :=
  (Finset.card_le_card Finset.inter_subset_left).trans targets.toFinset_card_le

/-- `DEL` counts the linked ones among the different keys of its list and leaves the entries
of all others, in whatever order and however often the keys are listed; a second time it
finds nothing to remove. `EXISTS` counts the places of its list whose key is live. -/
theorem count_targets {s : Store} (hs : s.Reachable) (now : Instant) (targets : List Bytes) :
    (let n := (targets.toFinset ∩ s.linked).card
      let s' := ((delete targets).execute now s).2
      ((delete targets).execute now s).1 = .integer (Int64.ofNat n) ∧
      (targets.length < 2 ^ 63 → (Int64.ofNat n).toInt = n) ∧
      (∀ e, e ∈ s'.entries ↔ e ∈ s.entries ∧ e.key ∉ targets) ∧
      s'.size + n = s.size ∧
      (∀ t, (dbSize.execute t s).1 = .integer (Int64.ofNat (s'.size + n)) ∧
        (dbSize.execute t s').1 = .integer (Int64.ofNat s'.size)) ∧
      (∀ targets', targets'.Perm targets →
        ((delete targets').execute now s).1 = .integer (Int64.ofNat n) ∧
        ((delete targets').execute now s).2.entries.Perm s'.entries) ∧
      ∀ later, (delete targets).execute later s' = (.integer 0, s')) ∧
    let live := targets.countP fun key =>
      decide (∃ e ∈ s.entries, e.key = key ∧ e.record.live now)
    (existing targets).execute now s = (.integer (Int64.ofNat live), s) ∧
      (targets.length < 2 ^ 63 → (Int64.ofNat live).toInt = live) := by
  have hwf := hs.wellFormed
  have hn : (removeAll targets s).1 = (targets.toFinset ∩ s.linked).card := removeAll_fst hwf
  have hsize := removeAll_fst_add_size hwf targets
  rw [hn, Nat.add_comm] at hsize
  refine ⟨⟨?_, ?_, fun e => mem_entries_removeAll hwf, hsize, ?_, ?_, ?_⟩, ?_, ?_⟩
  · simp only [execute, hn]
  · exact toInt_ofNat_of_le_length (card_toFinset_inter_le targets s.linked)
  · intro t
    refine ⟨?_, rfl⟩
    simp only [execute, hsize]
  · intro targets' hperm
    obtain ⟨hcount, hentries⟩ := removeAll_congr hwf fun key => hperm.mem_iff
    refine ⟨?_, hentries⟩
    simp only [execute, hcount, hn]
  · intro later
    simp only [execute, removeAll_removeAll hwf]
    rfl
  · rw [execute, countP_contains hwf]
  · exact toInt_ofNat_of_le_length List.countP_le_length

/-- One chain holds a key that stays, one that has expired and one that is not listed. -/
theorem count_targets_collision :
    let now : Instant := ⟨5⟩
    let a := asciiBytes "a"
    let b := asciiBytes "b"
    let c := asciiBytes "c"
    let s := (((Store.withBuckets 1).use now (.operate (.set a [1] none))).use now
      (.operate (.set b [2] (some now)))).use now (.operate (.set c [3] none))
    let targets := [b, a, asciiBytes "x", a, a]
    let s' := ((delete targets).execute now s).2
    s.Reachable ∧ ((delete targets).execute now s).1 = .integer 2 ∧
      s'.entries = [⟨c, [3], none⟩] ∧ s'.size + 2 = s.size ∧
      (∀ targets', targets'.Perm targets →
        ((delete targets').execute now s).1 = .integer 2 ∧
        ((delete targets').execute now s).2.entries = [⟨c, [3], none⟩]) ∧
      (∀ later, (delete targets).execute later s' = (.integer 0, s')) ∧
      (existing targets).execute now s = (.integer 3, s) := by
  intro now a b c s targets s'
  have hstays (key value : Bytes) : Store.Use.OnClock (.operate (.set key value none)) := trivial
  have hends : Store.Use.OnClock (.operate (.set b [2] (some now))) := by
    change now.nanos ≤ Instant.latest.nanos
    decide
  have hs : s.Reachable := .use (.use (.use (.new 1) now (hstays a _)) now hends) now (hstays c _)
  obtain ⟨⟨hreply, -, -, hsize, -, hperm, hagain⟩, hlive, -⟩ := count_targets hs now targets
  have hplaces : targets.countP (fun key =>
      decide (∃ e ∈ s.entries, e.key = key ∧ e.record.live now)) = 3 := by decide
  rw [hplaces] at hlive
  have hn : (targets.toFinset ∩ s.linked).card = 2 := by decide
  have hentries : s'.entries = [⟨c, [3], none⟩] := by decide
  rw [hn] at hreply hsize hperm
  refine ⟨hs, hreply, hentries, hsize, ?_, hagain, hlive⟩
  intro targets' htargets
  obtain ⟨hcount, hrest⟩ := hperm targets' htargets
  refine ⟨hcount, ?_⟩
  exact List.perm_singleton.mp (hentries ▸ hrest)

end Command

end RespServer
