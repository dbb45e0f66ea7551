import RespServer.Proofs.Keyspace.Reaping

/-!
# How long expired entries linger

An expired entry stays linked until a reaper sweeps it. At its last sweep a reaper left
nothing that had expired, and what was written since expires later, unless the caller
named an instant of his own. As the next sweep is at most a period after the last one, an
entry lingers for less than a period.
-/

namespace RespServer

/-- Whether an entry has expired, and less than a period ago. -/
def Entry.lingers (now : Instant) (period : Nat) (e : Entry) : Bool :=
  e.deadline.any fun d => d.reached now && decide (now.nanos < d.nanos + period)

namespace Store

/-- Where a write takes a deadline from: an instant that the caller names, or a lifetime
that begins now. -/
inductive Source where
  | instant
  | lifetime
  deriving DecidableEq

/-- Where a use takes the deadline from that it gives a key, if it gives it one. -/
def Use.source? (key : Bytes) : Use → Option Source
  | operate (.set target _ (some _)) => if target = key then some .instant else none
  | operate (.setFor target _ _) => if target = key then some .lifetime else none
  | request f =>
    match Command.ofFrame f with
    | .ok (.set target _ (some _)) => if target = key then some .lifetime else none
    | _ => none
  | _ => none

theorem Use.source?_eq_none {now : Instant} {u : Use} {key : Bytes}
    (h : ∀ written, u.written? now = some written → written.key ≠ key) : u.source? key = none := by
  unfold Use.source?
  split
  · exact if_neg (h _ rfl)
  · exact if_neg (h _ rfl)
  · split
    · next f target value n hf =>
        apply if_neg
        apply h ⟨target, value, now.after? (n * Instant.second)⟩
        rw [Use.written?, hf]
        rfl
    · rfl
  · rfl

/-- A deadline that is written is one that the caller has named, or is not before now. -/
theorem Use.source?_of_written {now : Instant} {u : Use} {e : Entry} {d : Instant}
    (h : u.written? now = some e) (hd : e.deadline = some d) :
    u.source? e.key = some .instant ∨
      (u.source? e.key = some .lifetime ∧ now.nanos ≤ d.nanos) := by
  have hafter {duration : Nat} (h : now.after? duration = some d) : now.nanos ≤ d.nanos := by
    obtain ⟨-, rfl⟩ := Instant.after?_eq_some_iff.mp h
    exact Int.le_add_of_nonneg_right (Int.natCast_nonneg duration)
  unfold Use.written? at h
  split at h
  · cases h
    obtain rfl : _ = some d := hd
    exact .inl (if_pos rfl)
  · cases h
    exact .inr ⟨if_pos rfl, hafter hd⟩
  · split at h
    · next f target value seconds hf =>
        cases h
        obtain ⟨n, rfl, hn⟩ := Option.bind_eq_some_iff.mp hd
        refine .inr ⟨?_, hafter hn⟩
        rw [Use.source?, hf]
        exact if_pos rfl
    · cases h
  · cases h

/-- Behind a use a deadline is an old one, one that the caller has named or one that is not
before now. -/
theorem WellFormed.deadline_use {s : Store} (hs : s.WellFormed) {key : Bytes} {e : Entry}
    {d now : Instant} {u : Use} (hfind : (s.use now u).find? key = some e)
    (hd : e.deadline = some d) :
    (u.source? key = none ∧ s.find? key = some e) ∨ u.source? key = some .instant ∨
      (u.source? key = some .lifetime ∧ now.nanos ≤ d.nanos) := by
  rcases hs.found_use hfind with hwritten | ⟨hothers, hold⟩
  · obtain rfl : e.key = key := ((hs.use now u).find?_eq_some_iff.mp hfind).2
    exact .inr (Use.source?_of_written hwritten hd)
  · exact .inl ⟨Use.source?_eq_none hothers, hold⟩

/-- No deadline is earlier, except where the last one given to the key was named by the
caller. -/
def NotBefore (last : Instant) (sources : Bytes → List Source) (s : Store) : Prop :=
  ∀ key e d, s.find? key = some e → e.deadline = some d →
    (sources key).getLast? ≠ some .instant → last.nanos ≤ d.nanos

theorem NotBefore.use {s : Store} (hs : s.WellFormed) {last now : Instant}
    {sources : Bytes → List Source} (h : s.NotBefore last sources) (hle : last.nanos ≤ now.nanos)
    (u : Use) :
    (s.use now u).NotBefore last fun key => sources key ++ (u.source? key).toList := by
  intro key e d hfind hd hlast
  rcases hs.deadline_use hfind hd with ⟨hnone, hold⟩ | hinstant | ⟨-, hnow⟩
  · simp only [hnone, Option.toList_none, List.append_nil] at hlast
    exact h key e d hold hd hlast
  · simp only [hinstant, Option.toList_some, List.getLast?_concat] at hlast
    exact absurd rfl hlast
  · exact Int.le_trans hle hnow

/-- Behind a sweep every deadline is still to come. -/
theorem Swept.notBefore {s : Store} (hs : s.WellFormed) {now : Instant} (h : s.Swept now)
    (sources : Bytes → List Source) : s.NotBefore now sources := by
  intro key e d hfind hd _
  have hlive := h e (hs.find?_eq_some_iff.mp hfind).1
  rw [Entry.expired, hd, Option.any_some, Instant.reached, decide_eq_false_iff_not] at hlive
  omega

end Store

namespace Keyspace

open Store (Source)

def Act.source? (key : Bytes) : Act → Option Source
  | use u => u.source? key
  | spawn _ => none

/-- The last of a reaper's sweeps left no deadline that had been reached, and is at most a
period before the next one. -/
def OnTime (k : Keyspace) (sources : Bytes → List Source) (times : List Instant)
    (r : Reaper) : Prop :=
  ∃ last, times.getLast? = some last ∧ last.nanos ≤ k.now.nanos ∧
    r.deadline.nanos ≤ last.nanos + r.period ∧ k.store.NotBefore last sources

/-- A keyspace in use, with the times of each reaper's sweeps and the sources of each key's
deadlines: every reaper is due or on time. -/
structure Tended (k : Keyspace) (times : Nat → List Instant) (sources : Bytes → List Source) :
    Prop where
  held : k.held = true
  wellFormed : k.store.WellFormed
  running : ∀ r ∈ k.reapers, r.finished = false
  onTime : ∀ j r, k.reapers[j]? = some r →
    r.deadline.nanos ≤ k.now.nanos ∨ k.OnTime sources (times j) r

def Ahead (k : Keyspace) : Prop :=
  ∀ r ∈ k.reapers, k.now.nanos < r.deadline.nanos

variable {k : Keyspace} {times : Nat → List Instant} {sources : Bytes → List Source}

namespace Tended

theorem use (h : k.Tended times sources) (hahead : k.Ahead) (u : Store.Use) :
    (k.apply (.use u)).Tended times fun key => sources key ++ (u.source? key).toList where
  held := h.held
  wellFormed := h.wellFormed.use k.now u
  running := h.running
  onTime := by
    intro j r hr
    right
    rcases h.onTime j r hr with hdue | ⟨last, htimes, hle, hnext, hafter⟩
    · exact absurd (hahead r (List.mem_of_getElem? hr)) (Int.not_lt.mpr hdue)
    · exact ⟨last, htimes, Int.le_trans hle (u.nanos_le_clock k.now), hnext,
        hafter.use h.wellFormed hle u⟩

/-- A new reaper is due at once. -/
theorem spawn (h : k.Tended times sources) (millis : Nat) :
    (k.apply (.spawn millis)).Tended times sources where
  held := h.held
  wellFormed := h.wellFormed
  running := by
    intro r hr
    rcases List.mem_append.mp hr with hold | hnew
    · exact h.running r hold
    · rw [List.mem_singleton.mp hnew]
      rfl
  onTime := by
    intro j r hr
    change (k.reapers ++ [Reaper.new millis k.now])[j]? = some r at hr
    rcases Nat.lt_or_ge j k.reapers.length with hj | hj
    · rw [List.getElem?_append_left hj] at hr
      exact h.onTime j r hr
    · rw [List.getElem?_append_right hj] at hr
      rw [List.mem_singleton.mp (List.mem_of_getElem? hr)]
      exact .inl (Int.le_refl k.now.nanos)

theorem apply (h : k.Tended times sources) (hahead : k.Ahead) (a : Act) :
    (k.apply a).Tended times fun key => sources key ++ (a.source? key).toList := by
  cases a with
  | use u => exact h.use hahead u
  | spawn millis =>
      simp only [Act.source?, Option.toList_none, List.append_nil]
      exact h.spawn millis

section Run

variable (h : k.Tended times sources)
include h

theorem reapers_runReapers :
    k.runReapers.reapers = k.reapers.map fun r => (r.catchUp k.now k.store).1 := by
  rw [runReapers, h.held]
  exact runAll_fst h.running k.store

/-- What the reapers leave linked was linked before. -/
theorem store_runReapers : k.runReapers.store.WellFormed ∧
    ∀ key e, k.runReapers.store.find? key = some e → k.store.find? key = some e := by
  let P := fun s : Store => s.WellFormed ∧
    ∀ key e, s.find? key = some e → k.store.find? key = some e
  have hsweep : ∀ s, P s → P (s.sweep k.now).2 := by
    rintro s ⟨hs, hkept⟩
    refine ⟨hs.sweep k.now, ?_⟩
    intro key e hfind
    rw [hs.find?_sweep, Option.filter_eq_some_iff] at hfind
    exact hkept key e hfind.1
  have hk : P k.store := ⟨h.wellFormed, fun _ _ hfind => hfind⟩
  exact runAll_induction hsweep k.held k.reapers hk

theorem swept_runReapers {r : Reaper} (hr : r ∈ k.reapers)
    (hdue : r.deadline.nanos ≤ k.now.nanos) : k.runReapers.store.Swept k.now := by
  rw [runReapers, h.held]
  exact swept_runAll h.running hr hdue k.store

theorem ahead_runReapers : k.runReapers.Ahead := by
  intro r hr
  rw [h.reapers_runReapers] at hr
  obtain ⟨r, -, rfl⟩ := List.mem_map.mp hr
  exact r.lt_deadline_catchUp k.now k.store

theorem runReapers : k.runReapers.Tended
    (fun j => times j ++ if k.isDue j then [k.now] else []) sources where
  held := h.held
  wellFormed := h.store_runReapers.1
  running := by
    intro r hr
    rw [h.reapers_runReapers] at hr
    obtain ⟨r, hold, rfl⟩ := List.mem_map.mp hr
    rw [Reaper.finished_catchUp, h.running r hold]
  onTime := by
    intro j r' hr'
    right
    rw [h.reapers_runReapers, List.getElem?_map, Option.map_eq_some_iff] at hr'
    obtain ⟨r, hr, rfl⟩ := hr'
    have hperiod : (r.catchUp k.now k.store).1.period = r.period := by
      rw [Reaper.period, Reaper.millis_catchUp, Reaper.period]
    have hisDue : k.isDue j = r.deadline.reached k.now := by rw [isDue, hr, Option.any_some]
    by_cases hdue : r.deadline.nanos ≤ k.now.nanos
    · have hbound : r.deadline.nanos ≤ k.now.nanos + r.period :=
        Int.le_trans hdue (Int.le_add_of_nonneg_right (Int.natCast_nonneg _))
      have hswept := h.swept_runReapers (List.mem_of_getElem? hr) hdue
      refine ⟨k.now, ?_, Int.le_refl _, ?_, hswept.notBefore h.store_runReapers.1 sources⟩
      · rw [hisDue, if_pos (Instant.reached_iff.mpr hdue), List.getLast?_concat]
      · rw [hperiod]
        exact Reaper.deadline_catchUp_le hbound
    · rcases h.onTime j r hr with hdue' | ⟨last, htimes, hle, hnext, hafter⟩
      · exact absurd hdue' hdue
      · refine ⟨last, ?_, hle, ?_, ?_⟩
        · rw [hisDue, if_neg (mt Instant.reached_iff.mp hdue), List.append_nil, htimes]
        · rwa [hperiod, Reaper.catchUp_of_ahead k.store (Int.not_le.mp hdue)]
        · intro key e d hfind
          exact hafter key e d (h.store_runReapers.2 key e hfind)

end Run

/-- One act, and what the reapers do behind it. -/
theorem act (h : k.Tended times sources) (hahead : k.Ahead) (a : Act) :
    (k.act a).Ahead ∧ (k.act a).Tended (fun j => times j ++ (k.sweepTime? j a).toList)
      fun key => sources key ++ (a.source? key).toList := by
  have happly := h.apply hahead a
  refine ⟨happly.ahead_runReapers, ?_⟩
  have hrun := happly.runReapers
  have htimes : ∀ j, (k.sweepTime? j a).toList =
      if (k.apply a).isDue j then [(k.apply a).now] else [] := by
    intro j
    rw [sweepTime?]
    split
    · rfl
    · rfl
  simp only [htimes]
  exact hrun

theorem actAll (h : k.Tended times sources) (hahead : k.Ahead) (acts : List Act) :
    (k.actAll acts).Ahead ∧ (k.actAll acts).Tended (fun j => times j ++ k.sweepTimes j acts)
      fun key => sources key ++ acts.filterMap (Act.source? key) := by
  induction acts generalizing k times sources with
  | nil =>
      simp only [sweepTimes, List.filterMap_nil, List.append_nil]
      exact ⟨hahead, h⟩
  | cons a acts ih =>
      obtain ⟨hahead', h'⟩ := h.act hahead a
      have hrest := ih h' hahead'
      have hsources : ∀ key, (a :: acts).filterMap (Act.source? key) =
          (a.source? key).toList ++ acts.filterMap (Act.source? key) := by
        intro key
        rw [List.filterMap_cons]
        cases a.source? key with
        | none => rfl
        | some source => rfl
      simp only [List.append_assoc] at hrest
      simp only [sweepTimes, hsources]
      exact hrest

end Tended

theorem tended_new (now : Instant) (n : Nat) :
    (new now (Store.withBuckets n)).Tended (fun _ => []) fun _ => [] where
  held := rfl
  wellFormed := Store.wellFormed_withBuckets n
  running := nofun
  onTime := nofun

/-- Linked entries are live, or expired less than a period ago. -/
theorem size_eq_add_lingers (hk : k.store.WellFormed) {period : Nat}
    (hbound : ∀ e ∈ k.store.entries, ∀ d, e.deadline = some d →
      k.now.nanos < d.nanos + period) :
    k.store.size = (Chain.live k.now k.store.entries).length +
      (k.store.entries.filter (Entry.lingers k.now period)).length := by
  have hsplit := List.length_eq_length_filter_add (l := k.store.entries) fun e => e.expired k.now
  have hlingers : k.store.entries.filter (Entry.lingers k.now period) =
      k.store.entries.filter fun e => e.expired k.now := by
    apply List.filter_congr
    intro e he
    rw [Entry.lingers, Entry.expired]
    cases hd : e.deadline with
    | none => rfl
    | some d =>
        rw [Option.any_some, Option.any_some, decide_eq_true (hbound e he d hd), Bool.and_true]
  rw [Store.size, hk.count_eq, hlingers, Chain.live, hsplit, Nat.add_comm]

theorem ask_dbSize {f : Frame} (hf : Command.ofFrame f = .ok .dbSize) :
    k.ask f = .integer (Int64.ofNat k.store.size) := by
  simp only [ask, RespServer.execute, hf, Command.execute]

/-- With a reaper, expired entries linger for less than a period. A store of any number of
buckets is used, time passes in steps of any size and reapers are spawned, at any points.
Behind each act all ticks that were due are done, and for every reaper the next one is
ahead, at most a period from its last sweep. A linked entry has not reached the end of a
period behind its deadline, if the deadline comes from a lifetime; without deadlines that a
caller has named, the linked keys are the live ones and those that expired less than a
period ago. -/
theorem now_lt_deadline_add_period (n : Nat) (now : Instant) (acts : List Act) :
    let start := new now (Store.withBuckets n)
    let k := start.actAll acts
    k.runReapers = k ∧
      (∀ f, Command.ofFrame f = .ok .dbSize → k.ask f = .integer (Int64.ofNat k.store.size)) ∧
      ∀ j millis, (acts.filterMap Act.spawned?)[j]? = some millis →
        let period := max millis 1 * Instant.millisecond
        ∃ r last, k.reapers[j]? = some r ∧ (start.sweepTimes j acts).getLast? = some last ∧
          k.now.nanos < r.deadline.nanos ∧ r.deadline.nanos ≤ last.nanos + period ∧
          (∀ e ∈ k.store.entries, ∀ d, e.deadline = some d →
            (acts.filterMap (Act.source? e.key)).getLast? = some .lifetime →
            k.now.nanos < d.nanos + period) ∧
          ((∀ key, .instant ∉ acts.filterMap (Act.source? key)) →
            k.store.size = (Chain.live k.now k.store.entries).length +
              (k.store.entries.filter (Entry.lingers k.now period)).length) := by
  intro start k
  obtain ⟨hahead, htended⟩ := (tended_new now n).actAll nofun acts
  simp only [List.nil_append] at htended
  refine ⟨runReapers_of_ahead htended.held hahead, fun f hf => ask_dbSize hf, ?_⟩
  intro j millis hspawned period
  have hmillis : (k.reapers.map Reaper.millis)[j]? = some millis := by
    rw [map_millis_actAll]
    exact hspawned
  rw [List.getElem?_map, Option.map_eq_some_iff] at hmillis
  obtain ⟨r, hr, rfl⟩ := hmillis
  have hnext := hahead r (List.mem_of_getElem? hr)
  rcases htended.onTime j r hr with hdue | ⟨last, hlast, -, hle, hafter⟩
  · exact absurd hnext (Int.not_lt.mpr hdue)
  have hbound : ∀ e ∈ k.store.entries, ∀ d, e.deadline = some d →
      (acts.filterMap (Act.source? e.key)).getLast? ≠ some .instant →
      k.now.nanos < d.nanos + period := by
    intro e he d hd hsource
    have hfind := htended.wellFormed.find?_eq_some_iff.mpr ⟨he, rfl⟩
    calc
      k.now.nanos < r.deadline.nanos := hnext
      _ ≤ last.nanos + period := hle
      _ ≤ d.nanos + period := Int.add_le_add_right (hafter e.key e d hfind hd hsource) period
  refine ⟨r, last, hr, hlast, hnext, hle, ?_, ?_⟩
  · intro e he d hd hsource
    exact hbound e he d hd (by rw [hsource]; decide)
  · intro hnamed
    apply size_eq_add_lingers htended.wellFormed
    intro e he d hd
    exact hbound e he d hd fun hlast => hnamed e.key (List.mem_of_getLast? hlast)

end Keyspace

end RespServer
