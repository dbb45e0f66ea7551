import RespServer.Proofs.Store.WellFormed

/-!
# What is found after an operation

Each operation keeps a store well-formed and changes what `find?` answers for
the keys it names, and for no other key.
-/

namespace RespServer.Store

theorem entries_withBuckets (n : Nat) : (withBuckets n).entries = [] := by
  simp [withBuckets, entries]

theorem wellFormed_withBuckets (n : Nat) : (withBuckets n).WellFormed where
  pos := by
    rw [buckets_withBuckets_size]
    omega
  placed := by
    intro i c hc e he
    rw [withBuckets, Array.getElem?_replicate] at hc
    split at hc
    · cases hc
      cases he
    · cases hc
  unique := by
    rw [entries_withBuckets]
    exact List.nodup_nil
  count_eq := by
    rw [entries_withBuckets]
    rfl

theorem find?_withBuckets (n : Nat) (key : Bytes) : (withBuckets n).find? key = none := by
  cases h : (withBuckets n).find? key with
  | none => rfl
  | some e =>
      have he := ((wellFormed_withBuckets n).find?_eq_some_iff.mp h).1
      rw [entries_withBuckets] at he
      cases he

section Set

variable {s : Store} (hs : s.WellFormed) (key value : Bytes) (deadline : Option Instant)
include hs

theorem WellFormed.find?_set (key' : Bytes) :
    (s.set key value deadline).find? key' =
      if key = key' then some ⟨key, value, deadline⟩ else s.find? key' := by
  rw [find?, set, chain_setChain hs.pos]
  by_cases hidx : s.bucketIndex key' = s.bucketIndex key
  · rw [if_pos hidx, Chain.find?_put, chain, ← hidx]
    rfl
  · have hne : key ≠ key' := fun h => hidx (by rw [h])
    rw [if_neg hidx, if_neg hne, find?]

/-- Writing a linked key leaves the keys and their order alone. -/
theorem WellFormed.keys_set_of_found (h : (s.find? key).isSome) :
    (s.set key value deadline).entries.map Entry.key = s.entries.map Entry.key := by
  obtain ⟨front, back, hold, hnew⟩ := exists_entries_setChain hs.pos key
    (Chain.put ⟨key, value, deadline⟩ (s.chain key)) (s.set key value deadline).count
  change (s.set key value deadline).entries = _ at hnew
  have hmem : (Entry.mk key value deadline).key ∈ (s.chain key).map Entry.key := by
    by_contra hnot
    rw [find?, Chain.find?_eq_none_iff.mpr hnot] at h
    cases h
  rw [hnew, hold]
  simp only [List.map_append, Chain.keys_put_of_mem hmem]

/-- Writing a new key links one more entry. -/
theorem WellFormed.perm_set_of_missing (h : s.find? key = none) :
    (s.set key value deadline).entries.Perm (⟨key, value, deadline⟩ :: s.entries) := by
  obtain ⟨front, back, hold, hnew⟩ := exists_entries_setChain hs.pos key
    (Chain.put ⟨key, value, deadline⟩ (s.chain key)) (s.set key value deadline).count
  change (s.set key value deadline).entries = _ at hnew
  have hnot : (Entry.mk key value deadline).key ∉ (s.chain key).map Entry.key :=
    Chain.find?_eq_none_iff.mp h
  rw [hnew, hold, Chain.put_of_notMem hnot, List.append_assoc, List.singleton_append,
    ← List.append_assoc, ← List.append_assoc]
  exact List.perm_middle

theorem WellFormed.set : (s.set key value deadline).WellFormed := by
  have hput : ∀ e ∈ Chain.put ⟨key, value, deadline⟩ (s.chain key),
      e ∈ s.chain key ∨ e.key = key := by
    intro e he
    rcases Chain.mem_put he with rfl | hm
    · exact Or.inr rfl
    · exact Or.inl hm
  have hplaced := hs.placed_setChain (n := (s.set key value deadline).count) hput
  have hpos : 0 < (s.set key value deadline).buckets.size := by
    rw [buckets_set_size]
    exact hs.pos
  cases hfind : s.find? key with
  | some e =>
      have hfound : (s.find? key).isSome := by rw [hfind]; rfl
      have hkeys := hs.keys_set_of_found key value deadline hfound
      refine ⟨hpos, hplaced, hkeys ▸ hs.unique, ?_⟩
      have hlen := congrArg List.length hkeys
      rw [List.length_map, List.length_map] at hlen
      rw [hlen, ← hs.count_eq, Store.set]
      exact if_pos hfound
  | none =>
      have hperm := hs.perm_set_of_missing key value deadline hfind
      have hmissing : key ∉ s.entries.map Entry.key := by
        intro hmem
        obtain ⟨e, he, hk⟩ := List.mem_map.mp hmem
        rw [hs.find?_eq_some_iff.mpr ⟨he, hk⟩] at hfind
        cases hfind
      refine ⟨hpos, hplaced, ?_, ?_⟩
      · rw [(hperm.map Entry.key).nodup_iff]
        exact List.nodup_cons.mpr ⟨hmissing, hs.unique⟩
      · rw [hperm.length_eq, List.length_cons, ← hs.count_eq, Store.set, hfind]
        rfl

end Set

section Remove

variable {s : Store} (hs : s.WellFormed) (key : Bytes)

theorem remove_fst : (s.remove key).1 = (s.find? key).isSome := by
  unfold remove
  split
  · next h =>
      rw [find?, Chain.find?_eq_none_iff.mpr (Chain.unlink?_eq_none_iff.mp h)]
      rfl
  · next rest h =>
      symm
      rw [Option.isSome_iff_ne_none, Ne, find?, Chain.find?_eq_none_iff,
        ← Chain.unlink?_eq_none_iff, h]
      exact Option.some_ne_none rest

theorem remove_of_find?_eq_none (h : s.find? key = none) : (s.remove key).2 = s := by
  have hunlink : Chain.unlink? key (s.chain key) = none :=
    Chain.unlink?_eq_none_iff.mpr (Chain.find?_eq_none_iff.mp h)
  rw [remove, hunlink]

include hs

/-- Removing a linked key takes exactly its entry out. -/
theorem WellFormed.exists_perm_remove (h : (s.find? key).isSome) :
    ∃ e : Entry, e.key = key ∧ (e :: (s.remove key).2.entries).Perm s.entries := by
  cases hunlink : Chain.unlink? key (s.chain key) with
  | none =>
      rw [find?, Chain.find?_eq_none_iff.mpr (Chain.unlink?_eq_none_iff.mp hunlink)] at h
      cases h
  | some rest =>
      obtain ⟨e, hk, hperm⟩ := Chain.exists_perm_of_unlink? hunlink
      obtain ⟨front, back, hold, hnew⟩ := exists_entries_setChain hs.pos key rest (s.count - 1)
      refine ⟨e, hk, ?_⟩
      rw [remove, hunlink, hold]
      simp only [hnew]
      calc
        (e :: (front ++ (rest ++ back))).Perm (front ++ ((e :: rest) ++ back)) :=
          List.perm_middle.symm
        _ |>.Perm (front ++ (s.chain key ++ back)) := (hperm.append_right back).append_left front

theorem WellFormed.remove : (s.remove key).2.WellFormed := by
  cases hfind : s.find? key with
  | none =>
      rw [remove_of_find?_eq_none key hfind]
      exact hs
  | some found =>
      have hsome : (s.find? key).isSome := by rw [hfind]; rfl
      obtain ⟨e, hk, hperm⟩ := hs.exists_perm_remove key hsome
      constructor
      · rw [buckets_remove_size]
        exact hs.pos
      · unfold Store.remove
        split
        · exact hs.placed
        · next rest hunlink =>
            obtain ⟨x, -, hchain⟩ := Chain.exists_perm_of_unlink? hunlink
            apply hs.placed_setChain
            intro y hy
            exact Or.inl (hchain.subset (List.mem_cons_of_mem x hy))
      · have hu := (hperm.map Entry.key).nodup_iff.mpr hs.unique
        rw [List.map_cons, List.nodup_cons] at hu
        exact hu.2
      · have hlen := hperm.length_eq
        have hcount : (s.remove key).2.count = s.count - 1 := by
          have hfst := remove_fst (s := s) key
          rw [hsome] at hfst
          unfold Store.remove at hfst ⊢
          split at hfst
          · cases hfst
          · rfl
        rw [hcount, hs.count_eq, ← hlen, List.length_cons, Nat.add_sub_cancel]

theorem WellFormed.find?_remove (key' : Bytes) :
    (s.remove key).2.find? key' = if key = key' then none else s.find? key' := by
  have hr := hs.remove key
  cases hfind : s.find? key with
  | none =>
      rw [remove_of_find?_eq_none key hfind]
      split
      · next h => rw [← h, hfind]
      · rfl
  | some found =>
      obtain ⟨e, hk, hperm⟩ := hs.exists_perm_remove key (by rw [hfind]; rfl)
      have hu := (hperm.map Entry.key).nodup_iff.mpr hs.unique
      rw [List.map_cons, List.nodup_cons] at hu
      apply Option.ext
      intro x
      rw [hr.find?_eq_some_iff]
      split
      · next h =>
          constructor
          · rintro ⟨hx, hxk⟩
            refine absurd (List.mem_map.mpr ⟨x, hx, ?_⟩) hu.1
            rw [hxk, ← h, hk]
          · intro h'
            cases h'
      · next hne =>
          rw [hs.find?_eq_some_iff, ← hperm.mem_iff, List.mem_cons]
          constructor
          · rintro ⟨hx, hxk⟩
            exact ⟨Or.inr hx, hxk⟩
          · rintro ⟨rfl | hx, hxk⟩
            · exact absurd (hk.symm.trans hxk) hne
            · exact ⟨hx, hxk⟩

end Remove

section Sweep

variable {s : Store}

theorem entries_sweep (now : Instant) :
    (s.sweep now).2.entries = Chain.live now s.entries := by
  rw [Chain.live, entries, entries, List.filter_flatten, sweep, Array.toList_map]
  rfl

theorem sweep_fst (now : Instant) :
    (s.sweep now).1 = (s.entries.filter fun e => e.expired now).length := by
  rw [sweep, entries, ← Chain.expiredIn_eq]

variable (hs : s.WellFormed) (now : Instant)
include hs

theorem WellFormed.sweep : (s.sweep now).2.WellFormed where
  pos := by
    rw [buckets_sweep_size]
    exact hs.pos
  placed := by
    intro i c hc e he
    rw [bucketIndex_congr (buckets_sweep_size s now)]
    rw [Store.sweep, Array.getElem?_map] at hc
    obtain ⟨d, hd, rfl⟩ := Option.map_eq_some_iff.mp hc
    exact hs.placed i d hd e (List.mem_of_mem_filter he)
  unique := by
    rw [entries_sweep]
    exact hs.unique.sublist (List.filter_sublist.map Entry.key)
  count_eq := by
    have hsplit := List.length_eq_length_filter_add (l := s.entries) fun e => e.expired now
    have hcount : (s.sweep now).2.count = s.count - (s.sweep now).1 := rfl
    rw [hcount, sweep_fst, entries_sweep, hs.count_eq, Chain.live]
    omega

theorem WellFormed.find?_sweep (key : Bytes) :
    (s.sweep now).2.find? key = (s.find? key).filter fun e => !e.expired now := by
  apply Option.ext
  intro e
  rw [(hs.sweep now).find?_eq_some_iff, entries_sweep, Chain.live, List.mem_filter,
    Option.filter_eq_some_iff, hs.find?_eq_some_iff]
  constructor
  · rintro ⟨⟨he, hl⟩, hk⟩
    exact ⟨⟨he, hk⟩, hl⟩
  · rintro ⟨⟨he, hk⟩, hl⟩
    exact ⟨⟨he, hl⟩, hk⟩

end Sweep

section Read

theorem get?_withBuckets (n : Nat) (now : Instant) (key : Bytes) :
    (withBuckets n).get? now key = none := by
  rw [get?, findLive?, find?_withBuckets]
  rfl

/-- What has expired stays expired. -/
theorem expired_of_le {now t : Instant} (ht : now.nanos ≤ t.nanos) {e : Entry}
    (he : e.expired now = true) : e.expired t = true := by
  obtain ⟨d, hd, hreached⟩ := (Option.any_eq_true _ _).mp he
  rw [Instant.reached_iff] at hreached
  rw [Entry.expired, hd, Option.any_some, Instant.reached_iff]
  exact Int.le_trans hreached ht

variable {s : Store} (hs : s.WellFormed) (now : Instant)
include hs

theorem WellFormed.get?_set (key value : Bytes) (deadline : Option Instant) (key' : Bytes) :
    (s.set key value deadline).get? now key' =
      if key = key' then
        if deadline.any fun d => d.reached now then none else some value
      else s.get? now key' := by
  rw [get?, findLive?, hs.find?_set]
  by_cases hk : key = key'
  · rw [if_pos hk, if_pos hk, Option.filter_some, Entry.expired]
    cases deadline.any fun d => d.reached now with
    | true => rfl
    | false => rfl
  · rw [if_neg hk, if_neg hk, get?, findLive?]

/-- A sweep changes nothing that is read later. -/
theorem WellFormed.get?_sweep {t : Instant} (ht : now.nanos ≤ t.nanos) (key : Bytes) :
    (s.sweep now).2.get? t key = s.get? t key := by
  rw [get?, findLive?, hs.find?_sweep, get?, findLive?]
  cases s.find? key with
  | none => rfl
  | some e =>
      cases hnow : e.expired now with
      | true => simp [Option.filter_some, hnow, expired_of_le ht hnow]
      | false => simp [Option.filter_some, hnow]

theorem WellFormed.mem_keys_iff {key : Bytes} :
    key ∈ s.keys now ↔ (s.get? now key).isSome := by
  rw [keys, List.mem_map, get?, Option.isSome_map, Option.isSome_iff_exists]
  apply exists_congr
  intro e
  rw [Chain.live, List.mem_filter, findLive?, Option.filter_eq_some_iff, hs.find?_eq_some_iff]
  constructor
  · rintro ⟨⟨he, hl⟩, hk⟩
    exact ⟨⟨he, hk⟩, hl⟩
  · rintro ⟨⟨he, hk⟩, hl⟩
    exact ⟨⟨he, hl⟩, hk⟩

end Read

end RespServer.Store
