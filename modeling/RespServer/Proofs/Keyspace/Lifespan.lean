import RespServer.Proofs.Keyspace.Reaping
import RespServer.Proofs.Store.Sweeping

/-!
# How long reapers live

A store is used and reapers are spawned on it; the reapers do what is due at some points of
this, not necessarily whenever the clock goes on. When a reaper ticks depends on its own
period and on these points alone, so reapers do not disturb each other, and all of them sweep
as one would. Once the store is gone, a reaper waits for its next tick and finishes there.
-/

namespace RespServer

namespace Reaper

variable {now : Instant} {r : Reaper}

/-- A store that is swept at several ticks at the same time is swept once. -/
theorem catchUp_snd (now : Instant) (r : Reaper) (s : Store) :
    (r.catchUp now s).2 = if r.deadline.reached now then (s.sweep now).2 else s := by
  induction r, s using catchUp.induct now with
  | case1 r s hdue ih =>
      rw [catchUp_of_due s hdue, ih, Store.sweep_sweep, ite_self,
        if_pos (Instant.reached_iff.mpr hdue)]
  | case2 r s hdue =>
      rw [catchUp_of_ahead s (Int.not_le.mp hdue), if_neg (mt Instant.reached_iff.mp hdue)]

/-- The reaper behind its ticks at `now`, which do not depend on what its store holds. -/
def ticked (now : Instant) (r : Reaper) : Reaper :=
  (r.catchUp now (Store.withBuckets 1)).1

def tickedAll (times : List Instant) (r : Reaper) : Reaper :=
  times.foldl (fun r now => r.ticked now) r

theorem catchUp_fst (now : Instant) (r : Reaper) (s : Store) :
    (r.catchUp now s).1 = r.ticked now :=
  (Keyspace.catchUp_congr (R := fun _ _ => True) (fun _ _ _ => trivial) r trivial).1

theorem period_ticked (now : Instant) (r : Reaper) : (r.ticked now).period = r.period := by
  rw [period, ticked, millis_catchUp, period]

theorem reach_ticked (now : Instant) (r : Reaper) : (r.ticked now).reach = r.reach :=
  r.reach_catchUp now _

theorem period_tickedAll (times : List Instant) (r : Reaper) :
    (r.tickedAll times).period = r.period := by
  induction times generalizing r with
  | nil => rfl
  | cons now times ih => exact (ih (r.ticked now)).trans (r.period_ticked now)

/-- How an interval that delays moves its deadline `d` to `d'` when it is looked at at the
given times: a tick that comes later than tolerated puts the next one a period after now, any
other a period after its own deadline. -/
inductive Delays (period : Nat) : List Instant → Instant → Instant → Prop where
  | done (d : Instant) : Delays period [] d d
  | ahead {now d d' : Instant} {times : List Instant} (h : now.nanos < d.nanos)
      (rest : Delays period times d d') : Delays period (now :: times) d d'
  | late {now d d' : Instant} {times : List Instant} (h : d.nanos + tolerance < now.nanos)
      (rest : Delays period (now :: times) (now.after period) d') :
      Delays period (now :: times) d d'
  | due {now d d' : Instant} {times : List Instant} (h : d.nanos ≤ now.nanos)
      (hintime : now.nanos ≤ d.nanos + tolerance)
      (rest : Delays period (now :: times) (d.after period) d') :
      Delays period (now :: times) d d'

theorem Delays.of_catchUp (hreach : r.reach = none) {times : List Instant} {d : Instant}
    {s : Store} (h : Delays r.period times (r.catchUp now s).1.deadline d) :
    Delays r.period (now :: times) r.deadline d := by
  induction r, s using catchUp.induct now with
  | case1 r s hdue ih =>
      rw [catchUp_of_due s hdue] at h
      have hrest : Delays r.period (now :: times) (r.reschedule now).deadline d := ih hreach h
      rw [deadline_reschedule hreach] at hrest
      split at hrest
      · next hlate => exact .late hlate hrest
      · next hintime => exact .due hdue (Int.not_lt.mp hintime) hrest
  | case2 r s hdue =>
      have hahead := Int.not_le.mp hdue
      rw [catchUp_of_ahead s hahead] at h
      exact .ahead hahead h

theorem delays_tickedAll (hreach : r.reach = none) (times : List Instant) :
    Delays r.period times r.deadline (r.tickedAll times).deadline := by
  induction times generalizing r with
  | nil => exact .done r.deadline
  | cons now times ih =>
      have hrest := ih ((r.reach_ticked now).trans hreach)
      rw [period_ticked] at hrest
      exact .of_catchUp hreach hrest

/-- The reaper once it has been run at these times without a store. -/
def stopped (times : List Instant) (r : Reaper) : Reaper :=
  { r with finished := r.finished || times.any r.deadline.reached }

theorem run_of_released (now : Instant) (r : Reaper) (s : Store) :
    r.run false now s = (r.stopped [now], s) := by
  obtain ⟨millis, deadline, finished⟩ := r
  unfold run stopped
  cases finished with
  | true => rfl
  | false => cases hreached : deadline.reached now <;> simp [hreached]

theorem finished_stopped_of_running (hrunning : r.finished = false) (times : List Instant) :
    (r.stopped times).finished = true ↔ ∃ t ∈ times, r.deadline.nanos ≤ t.nanos := by
  simp only [stopped, hrunning, Bool.false_or, List.any_eq_true, Instant.reached_iff]

theorem finished_stopped_of_finished (hfinished : r.finished = true) (times : List Instant) :
    (r.stopped times).finished = true := by
  simp only [stopped, hfinished, Bool.true_or]

theorem stopped_stopped (times later : List Instant) (r : Reaper) :
    (r.stopped times).stopped later = r.stopped (times ++ later) := by
  simp only [stopped, List.any_append, Bool.or_assoc]

end Reaper

namespace Keyspace

/-- What happens to a keyspace whose store is held. Time passes by the operation `wait`; the
reapers do what is due at `work`, and when one of them is spawned. -/
inductive Event where
  | use (u : Store.Use)
  | spawn (millis : Nat)
  | work

namespace Event

def spawned? : Event → Option Nat
  | spawn millis => some millis
  | _ => none

/-- The clock after an event. -/
def clock (now : Instant) : Event → Instant
  | use u => u.clock now
  | _ => now

/-- The time at which the reapers run in an event, if they do. -/
def runTime? (now : Instant) : Event → Option Instant
  | use _ => none
  | _ => some now

def runTimes (now : Instant) : List Event → List Instant
  | [] => []
  | e :: events => (e.runTime? now).toList ++ runTimes (e.clock now) events

/-- The reapers that are spawned in some events, as they are behind them. -/
def reapers (now : Instant) : List Event → List Reaper
  | [] => []
  | e :: events =>
    (e.spawned?.map fun millis => Reaper.new millis now).toList.map
      (Reaper.tickedAll (runTimes now (e :: events))) ++ reapers (e.clock now) events

/-- The reaper that is spawned between some events and others, as it is behind them. -/
def reaper (now : Instant) (early : List Event) (millis : Nat) (late : List Event) : Reaper :=
  let born := early.foldl clock now
  (Reaper.new millis born).tickedAll (runTimes born (.spawn millis :: late))

theorem period_reaper (now : Instant) (early : List Event) (millis : Nat) (late : List Event) :
    (reaper now early millis late).period = max millis 1 * Instant.millisecond :=
  Reaper.period_tickedAll _ _

theorem delays_reaper (now : Instant) (early : List Event) (millis : Nat) (late : List Event) :
    let born := early.foldl clock now
    Reaper.Delays (max millis 1 * Instant.millisecond) (runTimes born (.spawn millis :: late)) born
      (reaper now early millis late).deadline :=
  Reaper.delays_tickedAll (r := Reaper.new millis _) rfl _

theorem getElem?_reapers_append (now : Instant) (early : List Event) (millis : Nat)
    (late : List Event) :
    (reapers now (early ++ .spawn millis :: late))[(early.filterMap spawned?).length]? =
      some (reaper now early millis late) := by
  induction early generalizing now with
  | nil => rfl
  | cons e early ih =>
      cases e with
      | use u => exact ih (u.clock now)
      | spawn _ => exact ih now
      | work => exact ih now

/-- The event without a new reaper. -/
def quiet : Event → Event
  | spawn _ => work
  | e => e

theorem clock_quiet (now : Instant) (e : Event) : e.quiet.clock now = e.clock now := by
  cases e with
  | use u => rfl
  | spawn millis => rfl
  | work => rfl

theorem runTime?_quiet (now : Instant) (e : Event) : e.quiet.runTime? now = e.runTime? now := by
  cases e with
  | use u => rfl
  | spawn millis => rfl
  | work => rfl

theorem runTimes_map_quiet (now : Instant) (events : List Event) :
    runTimes now (events.map quiet) = runTimes now events := by
  induction events generalizing now with
  | nil => rfl
  | cons e events ih => rw [List.map_cons, runTimes, clock_quiet, runTime?_quiet, ih, runTimes]

theorem foldl_clock_map_quiet (now : Instant) (events : List Event) :
    (events.map quiet).foldl clock now = events.foldl clock now := by
  rw [List.foldl_map]
  simp only [clock_quiet]

theorem reapers_map_quiet (now : Instant) (events : List Event) :
    reapers now (events.map quiet) = [] := by
  induction events generalizing now with
  | nil => rfl
  | cons e events ih =>
      cases e with
      | use u => exact ih (u.clock now)
      | spawn millis => exact ih now
      | work => exact ih now

/-- Where no other reaper is spawned there is one reaper, and it is the same. -/
theorem reapers_alone (now : Instant) (early : List Event) (millis : Nat) (late : List Event) :
    reapers now (early.map quiet ++ .spawn millis :: late.map quiet) =
      [reaper now early millis late] := by
  induction early generalizing now with
  | nil =>
      rw [List.map_nil, List.nil_append, reapers, reapers_map_quiet, List.append_nil, runTimes,
        runTimes_map_quiet]
      rfl
  | cons e early ih =>
      cases e with
      | use u => exact ih (u.clock now)
      | spawn millis => exact ih now
      | work => exact ih now

end Event

def occur (k : Keyspace) : Event → Keyspace
  | .use u => k.apply (.use u)
  | .spawn millis => k.spawnReaper millis
  | .work => k.runReapers

def occurAll (k : Keyspace) (events : List Event) : Keyspace :=
  events.foldl occur k

/-- The uses of the store in an event, with one sweep if any reaper is due in it. -/
def trace (k : Keyspace) : Event → List (Instant × Store.Use)
  | .use u => [(k.now, u)]
  | .spawn _ => [(k.now, .operate .sweep)]
  | .work =>
    if k.reapers.any fun r => r.deadline.reached k.now then [(k.now, .operate .sweep)] else []

def timeline (k : Keyspace) : List Event → List (Instant × Store.Use)
  | [] => []
  | e :: events => k.trace e ++ timeline (k.occur e) events

theorem now_occur (k : Keyspace) (e : Event) : (k.occur e).now = e.clock k.now := by
  cases e with
  | use u => rfl
  | spawn millis => rfl
  | work => rfl

theorem now_occurAll (k : Keyspace) (events : List Event) :
    (k.occurAll events).now = events.foldl Event.clock k.now := by
  induction events generalizing k with
  | nil => rfl
  | cons e events ih =>
      rw [List.foldl_cons, ← now_occur]
      exact ih (k.occur e)

theorem runAll_snd {now : Instant} {reapers : List Reaper}
    (hrunning : ∀ r ∈ reapers, r.finished = false) (s : Store) :
    (runAll true now reapers s).2 =
      if reapers.any fun r => r.deadline.reached now then (s.sweep now).2 else s := by
  induction reapers generalizing s with
  | nil => rfl
  | cons r reapers ih =>
      have hr : r.run true now s = r.catchUp now s :=
        Reaper.run_of_running (hrunning r List.mem_cons_self) s
      have hrest := ih (fun x hx => hrunning x (List.mem_cons_of_mem r hx)) (r.run true now s).2
      rw [hr, Reaper.catchUp_snd] at hrest
      simp only [runAll, hr, Reaper.catchUp_snd, hrest, List.any_cons]
      by_cases hdue : r.deadline.reached now = true
      · simp only [hdue, if_true, Bool.true_or, Store.sweep_sweep, ite_self]
      · simp only [hdue, Bool.false_eq_true, if_false, Bool.false_or]

/-- The store is held and no reaper has finished; the next tick of each is at most a period
after now. -/
structure Alive (k : Keyspace) : Prop where
  held : k.held = true
  running : ∀ r ∈ k.reapers, r.finished = false
  near : ∀ r ∈ k.reapers, r.deadline.nanos ≤ k.now.nanos + r.period

namespace Alive

variable {k : Keyspace} (h : k.Alive)
include h

theorem reapers_runReapers : k.runReapers.reapers = k.reapers.map (Reaper.ticked k.now) := by
  rw [runReapers, h.held]
  refine (runAll_fst h.running k.store).trans ?_
  simp only [Reaper.catchUp_fst]

theorem store_runReapers : k.runReapers.store = k.store.useAll (k.trace .work) := by
  rw [runReapers, h.held]
  refine (runAll_snd h.running k.store).trans ?_
  rw [trace]
  split
  · rfl
  · rfl

theorem runReapers : k.runReapers.Alive where
  held := h.held
  running := by
    intro r hr
    rw [h.reapers_runReapers] at hr
    obtain ⟨r, hold, rfl⟩ := List.mem_map.mp hr
    rw [Reaper.ticked, Reaper.finished_catchUp, h.running r hold]
  near := by
    intro r hr
    rw [h.reapers_runReapers] at hr
    obtain ⟨r, hold, rfl⟩ := List.mem_map.mp hr
    rw [Reaper.period_ticked]
    exact Reaper.deadline_catchUp_le (h.near r hold)

theorem use (u : Store.Use) : (k.apply (.use u)).Alive where
  held := h.held
  running := h.running
  near := by
    intro r hr
    exact (h.near r hr).trans (Int.add_le_add_right (u.nanos_le_clock k.now) r.period)

/-- The first tick of a new reaper is due. -/
theorem spawn (millis : Nat) : (k.apply (.spawn millis)).Alive where
  held := h.held
  running := by
    intro r hr
    rcases List.mem_append.mp hr with hold | hnew
    · exact h.running r hold
    · rw [List.mem_singleton.mp hnew]
      rfl
  near := by
    intro r hr
    rcases List.mem_append.mp hr with hold | hnew
    · exact h.near r hold
    · rw [List.mem_singleton.mp hnew]
      exact Int.le_add_of_nonneg_right (Int.natCast_nonneg _)

theorem occur (e : Event) : (k.occur e).Alive := by
  cases e with
  | use u => exact h.use u
  | spawn millis => exact (h.spawn millis).runReapers
  | work => exact h.runReapers

theorem occurAll (events : List Event) : (k.occurAll events).Alive := by
  induction events generalizing k with
  | nil => exact h
  | cons e events ih => exact ih (h.occur e)

/-- Together the reapers sweep the store as one of them would. -/
theorem store_occur (e : Event) : (k.occur e).store = k.store.useAll (k.trace e) := by
  cases e with
  | use u => rfl
  | spawn millis =>
      have hdue : (k.apply (.spawn millis)).trace .work = [(k.now, .operate .sweep)] := by
        apply if_pos
        rw [List.any_eq_true]
        exact ⟨Reaper.new millis k.now, List.mem_append_right _ List.mem_cons_self,
          Instant.reached_iff.mpr (Int.le_refl k.now.nanos)⟩
      have hrun := (h.spawn millis).store_runReapers
      rw [hdue] at hrun
      exact hrun
  | work => exact h.store_runReapers

theorem store_occurAll (events : List Event) :
    (k.occurAll events).store = k.store.useAll (k.timeline events) := by
  induction events generalizing k with
  | nil => rfl
  | cons e events ih =>
      rw [timeline, Store.useAll, List.foldl_append]
      have hrest := ih (h.occur e)
      rw [h.store_occur e] at hrest
      exact hrest

/-- Each reaper ticks as if it were alone. -/
theorem reapers_occur (e : Event) :
    (k.occur e).reapers = (k.reapers ++ (e.spawned?.map fun millis =>
      Reaper.new millis k.now).toList).map (Reaper.tickedAll (e.runTime? k.now).toList) := by
  cases e with
  | use u =>
      refine Eq.trans ?_ (List.map_id _).symm
      exact (List.append_nil _).symm
  | spawn millis => exact (h.spawn millis).reapers_runReapers
  | work => exact h.reapers_runReapers.trans (congrArg _ (List.append_nil _).symm)

theorem reapers_occurAll (events : List Event) :
    (k.occurAll events).reapers =
      k.reapers.map (Reaper.tickedAll (Event.runTimes k.now events)) ++
        Event.reapers k.now events := by
  induction events generalizing k with
  | nil => exact ((List.append_nil _).trans (List.map_id k.reapers)).symm
  | cons e events ih =>
      have htimes : Reaper.tickedAll (Event.runTimes (e.clock k.now) events) ∘
          Reaper.tickedAll (e.runTime? k.now).toList =
            Reaper.tickedAll (Event.runTimes k.now (e :: events)) := by
        funext r
        exact List.foldl_append.symm
      refine (ih (h.occur e)).trans ?_
      rw [h.reapers_occur, now_occur, List.map_map, htimes, List.map_append, List.append_assoc,
        Event.reapers]

end Alive

def advanceAll (k : Keyspace) (durations : List Nat) : Keyspace :=
  durations.foldl advance k

/-- The times at which the reapers run while the clock is advanced. -/
def stepTimes (now : Instant) : List Nat → List Instant
  | [] => []
  | duration :: durations => now.after duration :: stepTimes (now.after duration) durations

theorem runAll_of_released (now : Instant) (reapers : List Reaper) (s : Store) :
    runAll false now reapers s = (reapers.map (Reaper.stopped [now]), s) := by
  induction reapers with
  | nil => rfl
  | cons r reapers ih => simp only [runAll, Reaper.run_of_released, ih, List.map_cons]

theorem advance_of_released {k : Keyspace} (hk : k.held = false) (duration : Nat) :
    k.advance duration = { k with
      now := k.now.after duration,
      reapers := k.reapers.map (Reaper.stopped [k.now.after duration]) } := by
  simp only [advance, runReapers, hk, runAll_of_released]

/-- All that happens once the store is gone is that reapers finish. -/
theorem advanceAll_of_released {k : Keyspace} (hk : k.held = false) (durations : List Nat) :
    k.advanceAll durations = { k with
      now := durations.foldl Instant.after k.now,
      reapers := k.reapers.map (Reaper.stopped (stepTimes k.now durations)) } := by
  induction durations generalizing k with
  | nil =>
      have hnil : Reaper.stopped [] = id := by
        funext r
        simp only [Reaper.stopped, List.any_nil, Bool.or_false, id]
      rw [stepTimes, hnil, List.map_id]
      rfl
  | cons duration durations ih =>
      have hcons : Reaper.stopped (stepTimes (k.now.after duration) durations) ∘
          Reaper.stopped [k.now.after duration] =
            Reaper.stopped (stepTimes k.now (duration :: durations)) := by
        funext r
        exact Reaper.stopped_stopped [k.now.after duration] _ r
      refine (ih (k := k.advance duration) hk).trans ?_
      rw [advance_of_released hk, List.map_map, hcons]
      rfl

theorem getElem?_advanceAll_of_released {k : Keyspace} (hk : k.held = false) {j : Nat}
    {r : Reaper} (hr : k.reapers[j]? = some r) (durations : List Nat) :
    (k.advanceAll durations).reapers[j]? = some (r.stopped (stepTimes k.now durations)) := by
  rw [advanceAll_of_released hk, List.getElem?_map, hr, Option.map_some]

theorem alive_new (now : Instant) (n : Nat) : (new now (Store.withBuckets n)).Alive where
  held := rfl
  running := nofun
  near := nofun

/-- A reaper lives as long as its store, and up to a period longer. A store of any number of
buckets is used and reapers are spawned; the clock goes on and the reapers run at any points.
No reaper finishes while the store is held, and they leave in it what its uses and single
sweeps leave, one at each point at which some reaper was due. A reaper is the same as in the
run where it is the only one, and its deadline is moved as an interval that delays moves it.
Once the store is gone, a reaper has finished if and only if it has been run at a time at or
after its deadline, which is at most a period after the time at which the store was dropped;
it stays finished. -/
theorem finished_iff_deadline_reached (n : Nat) (now : Instant) (before : List Event)
    (after : List Nat) :
    let start := new now (Store.withBuckets n)
    let k := start.occurAll before
    let gone := k.release.advanceAll after
    (∀ r ∈ k.reapers, r.finished = false) ∧
      k.store = (Store.withBuckets n).useAll (start.timeline before) ∧ gone.store = k.store ∧
      ∀ early millis late, before = early ++ .spawn millis :: late →
        let j := (early.filterMap Event.spawned?).length
        let period := max millis 1 * Instant.millisecond
        let born := (start.occurAll early).now
        let alone := start.occurAll (early.map Event.quiet ++ .spawn millis :: late.map Event.quiet)
        ∃ r r' : Reaper, k.reapers[j]? = some r ∧ gone.reapers[j]? = some r' ∧
          alone.reapers = [r] ∧ (alone.release.advanceAll after).reapers = [r'] ∧
          Reaper.Delays period (Event.runTimes born (.spawn millis :: late)) born r.deadline ∧
          r.deadline.nanos ≤ k.now.nanos + period ∧ r' = { r with finished := r'.finished } ∧
          (r'.finished = true ↔ ∃ t ∈ stepTimes k.now after, r.deadline.nanos ≤ t.nanos) ∧
          ((∃ t ∈ stepTimes k.now after, k.now.nanos + period ≤ t.nanos) → r'.finished = true) ∧
          (r'.finished = true → ∀ more, ∃ r'' : Reaper,
            (gone.advanceAll more).reapers[j]? = some r'' ∧ r''.finished = true) := by
  intro start k gone
  have hstart := alive_new now n
  have hk : k.Alive := hstart.occurAll before
  have hgone := advanceAll_of_released (k := k.release) rfl after
  refine ⟨hk.running, hstart.store_occurAll before, (congrArg Keyspace.store hgone).trans rfl, ?_⟩
  intro early millis late hbefore j period born alone
  let r := Event.reaper now early millis late
  let r' := r.stopped (stepTimes k.now after)
  have hperiod : r.period = period := Event.period_reaper now early millis late
  have hborn : born = early.foldl Event.clock now := now_occurAll start early
  have hr : k.reapers[j]? = some r := by
    rw [hstart.reapers_occurAll before, hbefore]
    exact Event.getElem?_reapers_append now early millis late
  have hr' : gone.reapers[j]? = some r' :=
    getElem?_advanceAll_of_released (k := k.release) rfl hr after
  have halone : alone.reapers = [r] := by
    rw [hstart.reapers_occurAll]
    exact Event.reapers_alone now early millis late
  have hnow : alone.now = k.now := by
    rw [now_occurAll, now_occurAll, hbefore, List.foldl_append, List.foldl_append, List.foldl_cons,
      List.foldl_cons, Event.foldl_clock_map_quiet, Event.foldl_clock_map_quiet]
  have hnear : r.deadline.nanos ≤ k.now.nanos + period := by
    rw [← hperiod]
    exact hk.near r (List.mem_of_getElem? hr)
  have hfinished : r'.finished = true ↔ ∃ t ∈ stepTimes k.now after, r.deadline.nanos ≤ t.nanos :=
    Reaper.finished_stopped_of_running (hk.running r (List.mem_of_getElem? hr)) _
  refine ⟨r, r', hr, hr', halone, ?_, ?_, hnear, rfl, hfinished, ?_, ?_⟩
  · rw [advanceAll_of_released rfl]
    change alone.reapers.map (Reaper.stopped (stepTimes alone.now after)) = [r']
    rw [halone, hnow, List.map_singleton]
  · rw [hborn]
    exact Event.delays_reaper now early millis late
  · rintro ⟨t, ht, hreached⟩
    exact hfinished.mpr ⟨t, ht, hnear.trans hreached⟩
  · intro h more
    have hheld : gone.held = false := congrArg Keyspace.held hgone
    exact ⟨_, getElem?_advanceAll_of_released hheld hr' more,
      Reaper.finished_stopped_of_finished h _⟩

/-- The first reaper is seven milliseconds late when the second one is spawned, so its next
tick is three milliseconds from there. At the first run behind the drop only the second one
is due. -/
theorem finished_iff_deadline_reached_twoReapers :
    let wait := fun duration => Event.use (.operate (.wait (duration * Instant.millisecond)))
    let early := [.spawn 3, .use (.operate (.setFor (asciiBytes "a") [1] 5)), wait 10]
    let late := [wait 1]
    let before := early ++ .spawn 0 :: late
    let start := new ⟨0⟩ (Store.withBuckets 1)
    let k := start.occurAll before
    let gone := k.release.advanceAll [Instant.millisecond]
    let first : Reaper := ⟨3, ⟨13000000⟩, false, none⟩
    let second : Reaper := ⟨0, ⟨11000000⟩, false, none⟩
    k.now = ⟨11000000⟩ ∧ k.reapers = [first, second] ∧
      (start.occurAll (early.map Event.quiet ++ .spawn 0 :: late.map Event.quiet)).reapers =
        [second] ∧
      k.store = (Store.withBuckets 1).useAll (start.timeline before) ∧ gone.store = k.store ∧
      gone.reapers[0]? = some first ∧ gone.reapers[1]? = some { second with finished := true } := by
  intro wait early late before start k gone first second
  have hnow : k.now = ⟨11000000⟩ := by decide +kernel
  have hreapers : k.reapers = [first, second] := by decide +kernel
  obtain ⟨-, hstore, hgone, hspawned⟩ :=
    finished_iff_deadline_reached 1 ⟨0⟩ before [Instant.millisecond]
  obtain ⟨r, r', hr, hr', -, -, -, -, hlast, hfinished, -⟩ :=
    hspawned [] 3 (early.tail ++ .spawn 0 :: late) rfl
  obtain ⟨u, u', hu, hu', halone, -, -, -, hlast', hfinished', -⟩ := hspawned early 0 late rfl
  have hfirst : first = r := Option.some.inj ((congrArg (·[0]?) hreapers).symm.trans hr)
  have hsecond : second = u := Option.some.inj ((congrArg (·[1]?) hreapers).symm.trans hu)
  subst hfirst hsecond
  have hruns : r'.finished = false := by
    rw [← Bool.not_eq_true, hfinished]
    decide +kernel
  have hstops : u'.finished = true := by
    rw [hfinished']
    decide +kernel
  rw [hruns] at hlast
  rw [hstops] at hlast'
  rw [hlast] at hr'
  rw [hlast'] at hu'
  exact ⟨hnow, hreapers, halone, hstore, hgone, hr', hu'⟩

end Keyspace

end RespServer
