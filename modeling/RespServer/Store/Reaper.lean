import RespServer.Store.Basic

/-!
# Reapers

A reaper sweeps a store at a fixed period, first at once. A tick that comes more
than five milliseconds late puts the next one a whole period after now, any
other a whole period after its own deadline. It comes sooner only if the timer of
the reaper has a reach and does not reach so far ahead. A reaper notices at a tick
that its store is gone, and then finishes.
-/

namespace RespServer

structure Reaper where
  millis : Nat
  deadline : Instant
  finished : Bool
  /-- how far ahead its timer can be set, if not to any time -/
  reach : Option Reach
  deriving DecidableEq

namespace Reaper

/-- A reaper whose first tick is due now, with a timer that can be set to any time. -/
def new (millis : Nat) (now : Instant) : Reaper :=
  ⟨millis, now, false, none⟩

/-- The time between two ticks, at least one millisecond. -/
def period (r : Reaper) : Nat :=
  max r.millis 1 * Instant.millisecond

theorem period_pos (r : Reaper) : 0 < r.period := by
  unfold period Instant.millisecond
  omega

/-- How late a tick may come without moving those behind it. -/
def tolerance : Nat := 5 * Instant.millisecond

/-- The reaper with its next deadline, after a tick at `now`. -/
def reschedule (now : Instant) (r : Reaper) : Reaper :=
  let base := if (r.deadline.after tolerance).nanos < now.nanos then now else r.deadline
  { r with deadline := Reach.firesAt r.reach now (base.after r.period) }

theorem deadline_lt_reschedule {now : Instant} {r : Reaper}
    (h : r.deadline.nanos ≤ now.nanos) : r.deadline.nanos < (r.reschedule now).deadline.nanos := by
  have hp := r.period_pos
  unfold reschedule
  apply Reach.lt_firesAt r.reach h
  unfold Instant.after
  split <;> dsimp only <;> omega

/-- Ticks until the next deadline lies ahead, with a sweep at each tick. -/
def catchUp (now : Instant) (r : Reaper) (s : Store) : Reaper × Store :=
  if r.deadline.nanos ≤ now.nanos then catchUp now (r.reschedule now) (s.sweep now).2
  else (r, s)
termination_by (now.nanos + 1 - r.deadline.nanos).toNat
decreasing_by
  next h =>
    have := deadline_lt_reschedule h
    omega

theorem catchUp_of_due {now : Instant} {r : Reaper} (s : Store)
    (h : r.deadline.nanos ≤ now.nanos) :
    catchUp now r s = catchUp now (r.reschedule now) (s.sweep now).2 := by
  rw [catchUp, if_pos h]

theorem catchUp_of_ahead {now : Instant} {r : Reaper} (s : Store)
    (h : now.nanos < r.deadline.nanos) : catchUp now r s = (r, s) := by
  rw [catchUp, if_neg (Int.not_le.mpr h)]

/-- The next deadline lies ahead of a reaper that has caught up. -/
theorem lt_deadline_catchUp (now : Instant) (r : Reaper) (s : Store) :
    now.nanos < (catchUp now r s).1.deadline.nanos := by
  induction r, s using catchUp.induct now with
  | case1 r s h ih =>
      rw [catchUp_of_due s h]
      exact ih
  | case2 r s h =>
      rw [catchUp_of_ahead s (Int.not_le.mp h)]
      exact Int.not_le.mp h

/-- What a reaper does at `now`; `held` tells whether its store is still there. -/
def run (held : Bool) (now : Instant) (r : Reaper) (s : Store) : Reaper × Store :=
  if r.finished then (r, s)
  else if held then catchUp now r s
  else if r.deadline.reached now then ({ r with finished := true }, s)
  else (r, s)

end Reaper

end RespServer
