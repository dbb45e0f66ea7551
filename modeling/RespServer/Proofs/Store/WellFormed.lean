import Mathlib.Data.List.Nodup
import RespServer.Store.Basic

/-!
# Well-formed stores

In a well-formed store every entry lies in the bucket its key hashes to, no key
is linked twice, and the count is the number of linked entries. Every operation
keeps a store well-formed. On such a store each operation is described by what
`find?` answers afterwards.
-/

namespace RespServer

namespace Chain

theorem mem_put {entry x : Entry} {chain : List Entry} (h : x ∈ put entry chain) :
    x = entry ∨ x ∈ chain := by
  induction chain with
  | nil => exact Or.inl (List.mem_singleton.mp h)
  | cons e rest ih =>
      rw [put] at h
      split at h
      · rcases List.mem_cons.mp h with hx | hx
        · exact Or.inl hx
        · exact Or.inr (List.mem_cons_of_mem e hx)
      · rcases List.mem_cons.mp h with rfl | hx
        · exact Or.inr List.mem_cons_self
        · exact (ih hx).imp id (List.mem_cons_of_mem e)

/-- A known key keeps its place. -/
theorem keys_put_of_mem {entry : Entry} {chain : List Entry}
    (h : entry.key ∈ chain.map Entry.key) :
    (put entry chain).map Entry.key = chain.map Entry.key := by
  induction chain with
  | nil => cases h
  | cons e rest ih =>
      rw [put]
      by_cases he : e.key = entry.key
      · rw [if_pos he, List.map_cons, List.map_cons, he]
      · have hr : entry.key ∈ rest.map Entry.key := by
          rcases List.mem_cons.mp h with hk | hk
          · exact absurd hk.symm he
          · exact hk
        rw [if_neg he, List.map_cons, List.map_cons, ih hr]

/-- A new key goes to the end. -/
theorem put_of_notMem {entry : Entry} {chain : List Entry}
    (h : entry.key ∉ chain.map Entry.key) : put entry chain = chain ++ [entry] := by
  induction chain with
  | nil => rfl
  | cons e rest ih =>
      rw [List.map_cons, List.mem_cons, not_or] at h
      rw [put, if_neg (Ne.symm h.1), ih h.2, List.cons_append]

theorem unlink?_eq_none_iff {key : Bytes} {chain : List Entry} :
    unlink? key chain = none ↔ key ∉ chain.map Entry.key := by
  induction chain with
  | nil => simp [unlink?]
  | cons e rest ih =>
      rw [unlink?]
      by_cases he : e.key = key
      · simp [he]
      · simp [he, Ne.symm he, ih]

/-- Unlinking takes out one entry of the key and only moves the others. -/
theorem exists_perm_of_unlink? {key : Bytes} {chain rest : List Entry}
    (h : unlink? key chain = some rest) :
    ∃ e : Entry, e.key = key ∧ (e :: rest).Perm chain := by
  induction chain generalizing rest with
  | nil => cases h
  | cons e tail ih =>
      rw [unlink?] at h
      split at h
      · next he =>
          cases h
          exact ⟨e, he, (lastFirst_perm tail).cons e⟩
      · obtain ⟨rest', hr, rfl⟩ := Option.map_eq_some_iff.mp h
        obtain ⟨x, hx, hp⟩ := ih hr
        exact ⟨x, hx, (List.Perm.swap e x rest').trans (hp.cons e)⟩

theorem find?_eq_none_iff {key : Bytes} {chain : List Entry} :
    find? key chain = none ↔ key ∉ chain.map Entry.key := by
  simp [find?]

theorem mem_of_find? {key : Bytes} {chain : List Entry} {e : Entry}
    (h : find? key chain = some e) : e ∈ chain ∧ e.key = key :=
  ⟨List.mem_of_find?_eq_some h, by simpa using List.find?_some h⟩

/-- Where no key is linked twice, an entry is found under its own key. -/
theorem find?_eq_some_iff {key : Bytes} {chain : List Entry} {e : Entry}
    (hu : (chain.map Entry.key).Nodup) :
    find? key chain = some e ↔ e ∈ chain ∧ e.key = key := by
  constructor
  · exact mem_of_find?
  · rintro ⟨he, rfl⟩
    obtain ⟨x, hx⟩ : ∃ x, find? e.key chain = some x := by
      apply Option.ne_none_iff_exists'.mp
      rw [Ne, find?_eq_none_iff, not_not]
      exact List.mem_map_of_mem he
    obtain ⟨hm, hk⟩ := mem_of_find? hx
    rw [hx, List.inj_on_of_nodup_map hu hm he hk]

theorem foldl_expired (now : Instant) (chains : List (List Entry)) (n : Nat) :
    chains.foldl (fun n c => n + (c.length - (live now c).length)) n =
      n + (chains.flatten.filter fun e => e.expired now).length := by
  induction chains generalizing n with
  | nil => rfl
  | cons c chains ih =>
      have hc : c.length - (live now c).length = (c.filter fun e => e.expired now).length := by
        have hsplit := List.length_eq_length_filter_add (l := c) fun e => e.expired now
        unfold live
        omega
      rw [List.foldl_cons, ih, hc, List.flatten_cons, List.filter_append, List.length_append,
        Nat.add_assoc]

theorem expiredIn_eq (now : Instant) (chains : List (List Entry)) :
    expiredIn now chains = (chains.flatten.filter fun e => e.expired now).length := by
  rw [expiredIn, foldl_expired, Nat.zero_add]

end Chain

namespace Store

/-- Placement, uniqueness and count of the linked entries. -/
structure WellFormed (s : Store) : Prop where
  pos : 0 < s.buckets.size
  placed : ∀ (i : Nat) (c : List Entry), s.buckets[i]? = some c →
    ∀ e ∈ c, s.bucketIndex e.key = i
  unique : (s.entries.map Entry.key).Nodup
  count_eq : s.count = s.entries.length

theorem bucketIndex_congr {s t : Store} (h : t.buckets.size = s.buckets.size) (key : Bytes) :
    t.bucketIndex key = s.bucketIndex key := by
  rw [bucketIndex, bucketIndex, h]

theorem getElem?_bucketIndex {s : Store} (hpos : 0 < s.buckets.size) (key : Bytes) :
    s.buckets[s.bucketIndex key]? = some (s.chain key) := by
  have hlt : s.bucketIndex key < s.buckets.size := Nat.mod_lt _ hpos
  rw [chain, Array.getElem?_eq_getElem hlt, Option.getD_some]

/-- The chain of a key after the chain of another key has been replaced. -/
theorem chain_setChain {s : Store} (hpos : 0 < s.buckets.size) (key key' : Bytes)
    (c : List Entry) (n : Nat) :
    (Store.mk (s.setChain key c) n).chain key' =
      if s.bucketIndex key' = s.bucketIndex key then c else s.chain key' := by
  have hsize : (Store.mk (s.setChain key c) n).buckets.size = s.buckets.size := by simp [setChain]
  rw [chain, bucketIndex_congr hsize]
  by_cases h : s.bucketIndex key' = s.bucketIndex key
  · have hlt : s.bucketIndex key < s.buckets.size := Nat.mod_lt _ hpos
    rw [if_pos h, h]
    simp [setChain, hlt]
  · rw [if_neg h, chain]
    simp [setChain, Ne.symm h]

/-- Replacing a chain leaves all entries before and behind it in their order. -/
theorem exists_entries_setChain {s : Store} (hpos : 0 < s.buckets.size) (key : Bytes)
    (c : List Entry) (n : Nat) :
    ∃ front back, s.entries = front ++ (s.chain key ++ back) ∧
      (Store.mk (s.setChain key c) n).entries = front ++ (c ++ back) := by
  have hlt : s.bucketIndex key < s.buckets.toList.length := Nat.mod_lt _ hpos
  have hget : s.buckets.toList[s.bucketIndex key] = s.chain key := by
    have h := getElem?_bucketIndex hpos key
    rw [← Array.getElem?_toList, List.getElem?_eq_getElem hlt] at h
    exact Option.some.inj h
  refine ⟨(s.buckets.toList.take (s.bucketIndex key)).flatten,
    (s.buckets.toList.drop (s.bucketIndex key + 1)).flatten, ?_, ?_⟩
  · conv_lhs => rw [entries, ← List.take_append_drop (s.bucketIndex key) s.buckets.toList,
      List.drop_eq_getElem_cons hlt, hget]
    rw [List.flatten_append, List.flatten_cons]
  · rw [entries, setChain, Array.toList_setIfInBounds, List.set_eq_take_append_cons_drop,
      if_pos hlt, List.flatten_append, List.flatten_cons]

/-- Placement survives a new chain whose entries are old ones or of its key. -/
theorem WellFormed.placed_setChain {s : Store} (hs : s.WellFormed) {key : Bytes}
    {c : List Entry} {n : Nat} (hc : ∀ e ∈ c, e ∈ s.chain key ∨ e.key = key) (i : Nat)
    (d : List Entry) (hd : (Store.mk (s.setChain key c) n).buckets[i]? = some d) :
    ∀ e ∈ d, (Store.mk (s.setChain key c) n).bucketIndex e.key = i := by
  intro e he
  have hsize : (Store.mk (s.setChain key c) n).buckets.size = s.buckets.size := by simp [setChain]
  rw [bucketIndex_congr hsize]
  simp only [setChain, Array.getElem?_setIfInBounds] at hd
  split at hd
  · next hi =>
      have hlt : s.bucketIndex key < s.buckets.size := Nat.mod_lt _ hs.pos
      rw [if_pos hlt] at hd
      cases hd
      rcases hc e he with hm | hk
      · exact (hs.placed _ _ (getElem?_bucketIndex hs.pos key) e hm).trans hi
      · rw [hk, hi]
  · exact hs.placed i d hd e he

theorem WellFormed.mem_entries_iff {s : Store} (hs : s.WellFormed) {e : Entry} :
    e ∈ s.entries ↔ e ∈ s.chain e.key := by
  rw [entries, List.mem_flatten]
  constructor
  · rintro ⟨c, hc, he⟩
    obtain ⟨i, hi⟩ := Array.mem_iff_getElem?.mp (Array.mem_toList_iff.mp hc)
    have hidx := hs.placed i c hi e he
    rw [chain, hidx, hi]
    exact he
  · intro he
    refine ⟨s.chain e.key, ?_, he⟩
    exact Array.mem_toList_iff.mpr (Array.mem_of_getElem? (getElem?_bucketIndex hs.pos e.key))

theorem WellFormed.chain_unique {s : Store} (hs : s.WellFormed) (key : Bytes) :
    ((s.chain key).map Entry.key).Nodup := by
  obtain ⟨front, back, hsplit, -⟩ := exists_entries_setChain hs.pos key [] 0
  have hu := hs.unique
  rw [hsplit, List.map_append, List.map_append] at hu
  exact (List.nodup_append.mp (List.nodup_append.mp hu).2.1).1

/-- The entries of a well-formed store are those that are found. -/
theorem WellFormed.find?_eq_some_iff {s : Store} (hs : s.WellFormed) {key : Bytes} {e : Entry} :
    s.find? key = some e ↔ e ∈ s.entries ∧ e.key = key := by
  rw [find?, Chain.find?_eq_some_iff (hs.chain_unique key), hs.mem_entries_iff]
  constructor
  · rintro ⟨he, rfl⟩
    exact ⟨he, rfl⟩
  · rintro ⟨he, rfl⟩
    exact ⟨he, rfl⟩

end Store

end RespServer
