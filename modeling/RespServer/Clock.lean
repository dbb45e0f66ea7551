/-!
# Time

An instant counts nanoseconds on a clock of signed 64-bit seconds. Durations are
natural numbers of nanoseconds. A deadline past the end of the clock is no
deadline.
-/

namespace RespServer

structure Instant where
  nanos : Int
  deriving DecidableEq

namespace Instant

def microsecond : Nat := 1000

def millisecond : Nat := 1000000

def second : Nat := 1000000000

/-- The last instant of the clock, a nanosecond before its seconds run over. -/
def latest : Instant := ⟨9223372036854775808 * 1000000000 - 1⟩

def after (t : Instant) (duration : Nat) : Instant :=
  ⟨t.nanos + duration⟩

/-- The instant a duration later, if the clock reaches it. -/
def after? (t : Instant) (duration : Nat) : Option Instant :=
  if (t.after duration).nanos ≤ latest.nanos then some (t.after duration) else none

theorem after?_eq_some_iff {t u : Instant} {duration : Nat} :
    t.after? duration = some u ↔
      t.nanos + duration ≤ latest.nanos ∧ u = t.after duration := by
  unfold after?
  split
  · next h =>
      rw [Option.some.injEq]
      exact ⟨fun hu => ⟨h, hu.symm⟩, fun hu => hu.2.symm⟩
  · next h =>
      constructor
      · intro hu
        cases hu
      · intro hu
        exact absurd hu.1 h

/-- Whether the instant has been reached at the time `now`. -/
def reached (t now : Instant) : Bool :=
  decide (t.nanos ≤ now.nanos)

@[simp] theorem reached_iff {t now : Instant} : t.reached now = true ↔ t.nanos ≤ now.nanos := by
  simp [reached]

end Instant

/-- How far ahead of now a timer can be set. -/
structure Reach where
  nanos : Nat
  nanos_pos : 0 < nanos
  deriving DecidableEq

/-- When a timer fires that is set at `now` for the time `t`: there, or as far ahead as it
reaches. -/
def Reach.firesAt (reach : Option Reach) (now t : Instant) : Instant :=
  match reach with
  | none => t
  | some r => if t.nanos ≤ (now.after r.nanos).nanos then t else now.after r.nanos

theorem Reach.firesAt_none (now t : Instant) : firesAt none now t = t := rfl

theorem Reach.firesAt_le (reach : Option Reach) (now t : Instant) :
    (firesAt reach now t).nanos ≤ t.nanos := by
  unfold firesAt
  split
  · exact Int.le_refl t.nanos
  · split <;> omega

/-- A timer that is set for later goes off later. -/
theorem Reach.lt_firesAt {d now t : Instant} (reach : Option Reach) (hnow : d.nanos ≤ now.nanos)
    (ht : d.nanos < t.nanos) : d.nanos < (firesAt reach now t).nanos := by
  unfold firesAt
  split
  · exact ht
  · next r =>
      have hr := r.nanos_pos
      split
      · exact ht
      · unfold Instant.after
        dsimp only
        omega

end RespServer
