import RespServer.Proofs.Keyspace.Replay
import RespServer.Proofs.Store.Usage

/-!
# Reapers at work

A keyspace is used, time passes and reapers are spawned; behind every act the reapers do
what is due. A tick puts the next one at most a period after now, so a reaper that has
caught up is ahead of the clock, and by no more than a period from its last sweep.
-/

namespace RespServer

namespace Reaper

variable {now : Instant} {r : Reaper}

/-- With a timer that can be set to any time, a late tick puts the next one a period after
now, and any other a period after its own deadline. -/
theorem deadline_reschedule (hreach : r.reach = none) :
    (r.reschedule now).deadline =
      if (r.deadline.after tolerance).nanos < now.nanos then now.after r.period
      else r.deadline.after r.period := by
  simp only [reschedule, hreach, Reach.firesAt_none]
  split
  · rfl
  · rfl

theorem deadline_reschedule_le (hdue : r.deadline.nanos ≤ now.nanos) :
    (r.reschedule now).deadline.nanos ≤ now.nanos + r.period := by
  let base := if (r.deadline.after tolerance).nanos < now.nanos then now else r.deadline
  have hbase : base.nanos ≤ now.nanos := by
    unfold base
    split
    · exact Int.le_refl now.nanos
    · exact hdue
  calc
    (r.reschedule now).deadline.nanos ≤ base.nanos + r.period :=
      Reach.firesAt_le r.reach now (base.after r.period)
    _ ≤ now.nanos + r.period := Int.add_le_add_right hbase r.period

/-- Catching up moves the deadline and nothing else. -/
theorem catchUp_fst_eq (now : Instant) (r : Reaper) (s : Store) :
    (r.catchUp now s).1 = { r with deadline := (r.catchUp now s).1.deadline } := by
  induction r, s using catchUp.induct now with
  | case1 r s hdue ih => rwa [catchUp_of_due s hdue]
  | case2 r s hdue => rw [catchUp_of_ahead s (Int.not_le.mp hdue)]

theorem millis_catchUp (now : Instant) (r : Reaper) (s : Store) :
    (r.catchUp now s).1.millis = r.millis := by
  rw [catchUp_fst_eq]

theorem finished_catchUp (now : Instant) (r : Reaper) (s : Store) :
    (r.catchUp now s).1.finished = r.finished := by
  rw [catchUp_fst_eq]

theorem reach_catchUp (now : Instant) (r : Reaper) (s : Store) :
    (r.catchUp now s).1.reach = r.reach := by
  rw [catchUp_fst_eq]

theorem run_of_running (hrunning : r.finished = false) (s : Store) :
    r.run true now s = r.catchUp now s := by
  rw [run, hrunning]
  rfl

/-- Catching up puts the next tick at most a period after now. -/
theorem deadline_catchUp_le {s : Store} (h : r.deadline.nanos ≤ now.nanos + r.period) :
    (r.catchUp now s).1.deadline.nanos ≤ now.nanos + r.period := by
  induction r, s using catchUp.induct now with
  | case1 r s hdue ih =>
      rw [catchUp_of_due s hdue]
      exact ih (deadline_reschedule_le hdue)
  | case2 r s hdue =>
      rw [catchUp_of_ahead s (Int.not_le.mp hdue)]
      exact h

end Reaper

namespace Store

/-- Nothing that has expired is linked. -/
def Swept (now : Instant) (s : Store) : Prop :=
  ∀ e ∈ s.entries, e.expired now = false

theorem swept_sweep (now : Instant) (s : Store) : (s.sweep now).2.Swept now := by
  intro e he
  rw [entries_sweep, Chain.live, List.mem_filter] at he
  simpa using he.2

/-- The clock after a use. -/
def Use.clock (now : Instant) : Use → Instant
  | operate op => op.clock now
  | request _ => now

theorem Use.nanos_le_clock (now : Instant) (u : Use) : now.nanos ≤ (u.clock now).nanos := by
  cases u with
  | operate op =>
      cases op with
      | wait duration => exact Int.le_add_of_nonneg_right (Int.natCast_nonneg duration)
      | _ => exact Int.le_refl now.nanos
  | request f => exact Int.le_refl now.nanos

end Store

namespace Keyspace

/-- What happens to a keyspace whose store is held. Time passes by the operation `wait`. -/
inductive Act where
  | use (u : Store.Use)
  | spawn (millis : Nat)

/-- The period of the reaper that an act spawns, in milliseconds. -/
def Act.spawned? : Act → Option Nat
  | use _ => none
  | spawn millis => some millis

/-- What an act does itself. -/
def apply (k : Keyspace) : Act → Keyspace
  | .use u => { k with now := u.clock k.now, store := k.store.use k.now u }
  | .spawn millis => { k with reapers := k.reapers ++ [Reaper.new millis k.now] }

/-- An act, and what the reapers do behind it. -/
def act (k : Keyspace) (a : Act) : Keyspace :=
  (k.apply a).runReapers

def actAll (k : Keyspace) (acts : List Act) : Keyspace :=
  acts.foldl act k

/-- Whether the next tick of a reaper has been reached. -/
def isDue (k : Keyspace) (j : Nat) : Bool :=
  k.reapers[j]?.any fun r => r.deadline.reached k.now

/-- The time of a reaper's sweep behind an act, if it is due then. -/
def sweepTime? (k : Keyspace) (j : Nat) (a : Act) : Option Instant :=
  if (k.apply a).isDue j then some (k.apply a).now else none

/-- The times of a reaper's sweeps, one for each act behind which it was due. -/
def sweepTimes (k : Keyspace) (j : Nat) : List Act → List Instant
  | [] => []
  | a :: acts => (k.sweepTime? j a).toList ++ sweepTimes (k.act a) j acts

section RunAll

variable {now : Instant}

/-- Reapers that run all catch up, each as if it were alone. -/
theorem runAll_fst {reapers : List Reaper} (hrunning : ∀ r ∈ reapers, r.finished = false)
    (s : Store) :
    (runAll true now reapers s).1 = reapers.map fun r => (r.catchUp now s).1 := by
  induction reapers generalizing s with
  | nil => rfl
  | cons r reapers ih =>
      have hr : r.run true now s = r.catchUp now s :=
        Reaper.run_of_running (hrunning r List.mem_cons_self) s
      have hrest := ih (fun x hx => hrunning x (List.mem_cons_of_mem r hx)) (r.run true now s).2
      rw [hr] at hrest
      simp only [runAll, List.map_cons, hr, hrest]
      congr 1
      apply List.map_congr_left
      intro x _
      exact (catchUp_congr (R := fun _ _ => True) (fun _ _ _ => trivial) x trivial).1

/-- Behind a reaper that was due, nothing that has expired is linked. -/
theorem swept_catchUp {r : Reaper} (hdue : r.deadline.nanos ≤ now.nanos) (s : Store) :
    (r.catchUp now s).2.Swept now := by
  rw [Reaper.catchUp_of_due s hdue]
  exact catchUp_induction (fun u _ => u.swept_sweep now) _ (s.swept_sweep now)

theorem swept_runAll {reapers : List Reaper} (hrunning : ∀ r ∈ reapers, r.finished = false)
    {r : Reaper} (hr : r ∈ reapers) (hdue : r.deadline.nanos ≤ now.nanos) (s : Store) :
    (runAll true now reapers s).2.Swept now := by
  induction reapers generalizing s with
  | nil => cases hr
  | cons x reapers ih =>
      rcases List.mem_cons.mp hr with rfl | hmem
      · have hfirst : (r.run true now s).2.Swept now := by
          rw [Reaper.run_of_running (hrunning r List.mem_cons_self)]
          exact swept_catchUp hdue s
        exact runAll_induction (fun u _ => u.swept_sweep now) true reapers hfirst
      · exact ih (fun y hy => hrunning y (List.mem_cons_of_mem x hy)) hmem _

/-- Reapers that are ahead of the clock do nothing. -/
theorem runAll_of_ahead {reapers : List Reaper} (hahead : ∀ r ∈ reapers,
    now.nanos < r.deadline.nanos) (s : Store) : runAll true now reapers s = (reapers, s) := by
  induction reapers with
  | nil => rfl
  | cons r reapers ih =>
      have hr : r.run true now s = (r, s) := by
        rw [Reaper.run, Reaper.catchUp_of_ahead s (hahead r List.mem_cons_self)]
        split
        · rfl
        · rfl
      simp only [runAll, hr, ih fun x hx => hahead x (List.mem_cons_of_mem r hx)]

end RunAll

theorem millis_run (held : Bool) (now : Instant) (r : Reaper) (s : Store) :
    (r.run held now s).1.millis = r.millis := by
  unfold Reaper.run
  split
  · rfl
  · split
    · exact r.millis_catchUp now s
    · split
      · rfl
      · rfl

theorem map_millis_runAll (held : Bool) (now : Instant) (reapers : List Reaper) (s : Store) :
    (runAll held now reapers s).1.map Reaper.millis = reapers.map Reaper.millis := by
  induction reapers generalizing s with
  | nil => rfl
  | cons r reapers ih =>
      simp only [runAll, List.map_cons]
      rw [millis_run, ih]

/-- The reapers are those that were there and those that have been spawned, in order. -/
theorem map_millis_actAll (k : Keyspace) (acts : List Act) :
    (k.actAll acts).reapers.map Reaper.millis =
      k.reapers.map Reaper.millis ++ acts.filterMap Act.spawned? := by
  induction acts generalizing k with
  | nil => exact (List.append_nil _).symm
  | cons a acts ih =>
      have hone : (k.act a).reapers.map Reaper.millis = (k.apply a).reapers.map Reaper.millis :=
        map_millis_runAll _ _ _ _
      have hrest := ih (k.act a)
      rw [hone] at hrest
      cases a with
      | use u => exact hrest
      | spawn millis =>
          refine hrest.trans ?_
          simp [apply, Reaper.new, Act.spawned?]

theorem runReapers_of_ahead {k : Keyspace} (hheld : k.held = true)
    (hahead : ∀ r ∈ k.reapers, k.now.nanos < r.deadline.nanos) : k.runReapers = k := by
  rw [runReapers, hheld, runAll_of_ahead hahead, ← hheld]

end Keyspace

end RespServer
