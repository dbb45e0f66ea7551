import RespServer.Proofs.Store.Reachable

/-!
# Sweeps

A sweep takes the expired entries out of their chains and moves none of the others. As what
has expired stays expired, an earlier sweep only does a part of a later one beforehand.
-/

namespace RespServer

namespace Chain

variable {chain : List Entry}

theorem mem_live_iff {now : Instant} {e : Entry} :
    e ∈ live now chain ↔ e ∈ chain ∧ ¬ ∃ d, e.deadline = some d ∧ d.nanos ≤ now.nanos := by
  rw [live, List.mem_filter, Bool.not_eq_true', ← Bool.not_eq_true, Entry.expired,
    Option.any_eq_true]
  simp only [Instant.reached_iff]

section Later

variable {t t' : Instant} (h : t.nanos ≤ t'.nanos)
include h

/-- What is live at a later time was live before. -/
theorem live_live (chain : List Entry) : live t' (live t chain) = live t' chain := by
  rw [live, live, List.filter_filter, live]
  apply List.filter_congr
  intro e _
  cases hexpired : e.expired t with
  | true => rw [Store.expired_of_le h hexpired, Bool.not_true, Bool.false_and]
  | false => rw [Bool.not_false, Bool.and_true]

/-- What has expired at a later time had expired before, or is among what was live then. -/
theorem length_expired_add (chain : List Entry) :
    (chain.filter fun e => e.expired t).length +
        ((live t chain).filter fun e => e.expired t').length =
      (chain.filter fun e => e.expired t').length := by
  have hsplit := List.length_eq_length_filter_add (l := chain.filter fun e => e.expired t')
    fun e => e.expired t
  have hearly : (chain.filter fun e => e.expired t').filter (fun e => e.expired t) =
      chain.filter fun e => e.expired t := by
    rw [List.filter_filter]
    apply List.filter_congr
    intro e _
    cases hexpired : e.expired t with
    | true => rw [Store.expired_of_le h hexpired, Bool.and_self]
    | false => rw [Bool.false_and]
  have hlate : (chain.filter fun e => e.expired t').filter (fun e => !e.expired t) =
      (live t chain).filter fun e => e.expired t' := by
    rw [live, List.filter_filter, List.filter_filter]
    apply List.filter_congr
    intro e _
    exact Bool.and_comm _ _
  rw [hsplit, hearly, hlate]

end Later

end Chain

namespace Store

section Later

variable {t t' : Instant} (h : t.nanos ≤ t'.nanos) (s : Store)
include h

theorem sweep_fst_add : (s.sweep t).1 + ((s.sweep t).2.sweep t').1 = (s.sweep t').1 := by
  rw [sweep_fst, sweep_fst, sweep_fst, entries_sweep]
  exact Chain.length_expired_add h s.entries

theorem sweep_sweep_snd : ((s.sweep t).2.sweep t').2 = (s.sweep t').2 := by
  have hbuckets : ((s.sweep t).2.sweep t').2.buckets = (s.sweep t').2.buckets := by
    apply Array.ext_getElem?
    intro i
    simp only [sweep, Array.getElem?_map, Option.map_map]
    exact congrArg (Option.map · _) (funext (Chain.live_live h))
  have hcount : ((s.sweep t).2.sweep t').2.count = (s.sweep t').2.count := by
    change s.count - (s.sweep t).1 - ((s.sweep t).2.sweep t').1 = s.count - (s.sweep t').1
    rw [Nat.sub_sub, sweep_fst_add h]
  exact congrArg₂ Store.mk hbuckets hcount

end Later

/-- Behind a sweep there is nothing to be swept at the same time. -/
theorem sweep_sweep (now : Instant) (s : Store) :
    (s.sweep now).2.sweep now = (0, (s.sweep now).2) := by
  have hfst := sweep_fst_add (Int.le_refl now.nanos) s
  apply Prod.ext
  · simp only
    omega
  · exact sweep_sweep_snd (Int.le_refl now.nanos) s

theorem keys_sweep {now t : Instant} (h : now.nanos ≤ t.nanos) (s : Store) :
    (s.sweep now).2.keys t = s.keys t := by
  rw [keys, entries_sweep, Chain.live_live h, keys]

/-- Behind a sweep all linked keys are listed. -/
theorem WellFormed.size_sweep {s : Store} (hs : s.WellFormed) (now : Instant) :
    (s.sweep now).2.size = ((s.sweep now).2.keys now).length := by
  rw [keys_sweep (Int.le_refl now.nanos), keys, List.length_map, size, (hs.sweep now).count_eq,
    entries_sweep]

theorem getElem?_buckets_sweep {s : Store} {i : Nat} {chain : List Entry}
    (h : s.buckets[i]? = some chain) (now : Instant) :
    (s.sweep now).2.buckets[i]? = some (Chain.live now chain) := by
  rw [sweep, Array.getElem?_map, h, Option.map_some]

/-- A sweep takes exactly the entries whose deadline has been reached out of their chains and
leaves the others in their order; so the same keys are listed, now and later. It returns by
how much it makes the store smaller, leaves as many linked keys as are listed, and finds
nothing more when it is repeated. A sweep before another one takes over a part of what that
one does, and the two together do the same as the later one alone. -/
theorem sweep_unlinks_expired {s : Store} (hs : s.Reachable) (now : Instant) :
    let n := (s.sweep now).1
    let s' := (s.sweep now).2
    s'.buckets.size = s.buckets.size ∧
      (∀ (i : Nat) (chain : List Entry), s.buckets[i]? = some chain →
        ∃ chain', s'.buckets[i]? = some chain' ∧ chain'.Sublist chain ∧
        ∀ e, e ∈ chain' ↔ e ∈ chain ∧ ¬ ∃ d, e.deadline = some d ∧ d.nanos ≤ now.nanos) ∧
      (∀ t, now.nanos ≤ t.nanos → s'.keys t = s.keys t) ∧
      s'.size + n = s.size ∧ s'.size = (s'.keys now).length ∧
      s'.sweep now = (0, s') ∧
      ∀ t, now.nanos ≤ t.nanos →
        (s'.sweep t).2 = (s.sweep t).2 ∧ n + (s'.sweep t).1 = (s.sweep t).1 := by
  intro n s'
  have hwf := hs.wellFormed
  refine ⟨s.buckets_sweep_size now, ?_, fun t ht => keys_sweep ht s, ?_, hwf.size_sweep now,
    s.sweep_sweep now, ?_⟩
  · intro i chain hchain
    exact ⟨Chain.live now chain, getElem?_buckets_sweep hchain now, List.filter_sublist,
      fun e => Chain.mem_live_iff⟩
  · have hcount := hwf.sweep_fst_add_count now
    rwa [Nat.add_comm] at hcount
  · intro t ht
    exact ⟨sweep_sweep_snd ht s, sweep_fst_add ht s⟩

/-- Of four entries in one chain the second expires now, the last one later and the others
never. -/
theorem sweep_unlinks_expired_oneChain :
    let now : Instant := ⟨5⟩
    let later : Instant := ⟨8⟩
    let entry := fun text deadline => Entry.mk (asciiBytes text) [1] deadline
    let s := (withBuckets 1).useAll
      [(now, .operate (.set (asciiBytes "a") [1] none)),
        (now, .operate (.set (asciiBytes "b") [1] (some now))),
        (now, .operate (.set (asciiBytes "c") [1] none)),
        (now, .operate (.setFor (asciiBytes "d") [1] 3))]
    let s' := (s.sweep now).2
    s.Reachable ∧
      s.entries = [entry "a" none, entry "b" (some now), entry "c" none, entry "d" (some later)] ∧
      s'.entries = [entry "a" none, entry "c" none, entry "d" (some later)] ∧
      (s.sweep now).1 = 1 ∧ s'.size + 1 = s.size ∧ s'.size = (s'.keys now).length ∧
      s'.keys now = s.keys now ∧ s'.sweep now = (0, s') ∧
      (s'.sweep later).2 = (s.sweep later).2 ∧ 1 + (s'.sweep later).1 = (s.sweep later).1 := by
  intro now later entry s s'
  have hstays (key value : Bytes) : Use.OnClock (.operate (.set key value none)) := trivial
  have hends : Use.OnClock (.operate (.set (asciiBytes "b") [1] (some now))) := by
    change now.nanos ≤ Instant.latest.nanos
    decide
  have hlasts : Use.OnClock (.operate (.setFor (asciiBytes "d") [1] 3)) := trivial
  have hs : s.Reachable :=
    .use (.use (.use (.use (.new 1) now (hstays _ _)) now hends) now (hstays _ _)) now hlasts
  obtain ⟨-, -, hkeys, hsize, hlisted, hagain, hlater⟩ := sweep_unlinks_expired hs now
  have hone : (s.sweep now).1 = 1 := by decide
  have hfour : s.entries =
      [entry "a" none, entry "b" (some now), entry "c" none, entry "d" (some later)] := by decide
  have hthree : s'.entries = [entry "a" none, entry "c" none, entry "d" (some later)] := by
    rw [entries_sweep, hfour]
    decide
  rw [hone] at hsize hlater
  obtain ⟨htable, hsum⟩ := hlater later (by decide)
  exact ⟨hs, hfour, hthree, hone, hsize, hlisted, hkeys now (Int.le_refl _), hagain, htable, hsum⟩

end Store

end RespServer
