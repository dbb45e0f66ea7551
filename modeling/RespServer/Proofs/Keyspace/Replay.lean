import RespServer.Command.Execution
import RespServer.Keyspace

/-!
# Replaying a history

A history is a list of turns on one keyspace: whole requests, time that passes and
sweeps at any point. Requests are executed one at a time, each at the time at which
it stands in the history.
-/

namespace RespServer

/-- A request of a client, or what happens between requests. -/
inductive Turn where
  | request (connection : Nat) (f : Frame)
  | advance (duration : Nat)
  | sweep

namespace Turn

def request? : Turn → Option (Nat × Frame)
  | request i f => some (i, f)
  | _ => none

/-- The clock after a turn. -/
def clock (now : Instant) : Turn → Instant
  | advance duration => now.after duration
  | _ => now

end Turn

namespace Keyspace

/-- Unlinks what has expired by now. -/
def sweep (k : Keyspace) : Keyspace :=
  { k with store := (k.store.sweep k.now).2 }

/-- One turn: the replies with their connections, and the keyspace after it. -/
def turn (k : Keyspace) : Turn → List (Nat × Frame) × Keyspace
  | .request i f =>
    let (reply, store) := RespServer.execute k.now k.store f
    ([(i, reply)], { k with store })
  | .advance duration => ([], k.advance duration)
  | .sweep => ([], k.sweep)

/-- The replies to a history, and the keyspace after it. -/
def replay (k : Keyspace) : List Turn → List (Nat × Frame) × Keyspace
  | [] => ([], k)
  | t :: ts =>
    let (replies, k') := k.turn t
    let (later, k'') := k'.replay ts
    (replies ++ later, k'')

theorem replay_append (k : Keyspace) (ts us : List Turn) :
    k.replay (ts ++ us) =
      ((k.replay ts).1 ++ ((k.replay ts).2.replay us).1, ((k.replay ts).2.replay us).2) := by
  induction ts generalizing k with
  | nil => rfl
  | cons t ts ih => simp only [List.cons_append, replay, ih, List.append_assoc]

theorem now_turn (k : Keyspace) (t : Turn) : (k.turn t).2.now = t.clock k.now := by
  cases t with
  | request i f => rfl
  | advance duration => rfl
  | sweep => rfl

theorem now_replay (k : Keyspace) (ts : List Turn) :
    (k.replay ts).2.now = ts.foldl Turn.clock k.now := by
  induction ts generalizing k with
  | nil => rfl
  | cons t ts ih =>
      rw [List.foldl_cons, ← now_turn]
      exact ih (k.turn t).2

section Sweeps

variable {P : Store → Prop} {now : Instant} (hsweep : ∀ s, P s → P (s.sweep now).2)
include hsweep

theorem catchUp_induction (r : Reaper) {s : Store} (hs : P s) : P (r.catchUp now s).2 := by
  induction r, s using Reaper.catchUp.induct now with
  | case1 r s h ih =>
      rw [Reaper.catchUp_of_due s h]
      exact ih (hsweep s hs)
  | case2 r s h =>
      rw [Reaper.catchUp_of_ahead s (Int.not_le.mp h)]
      exact hs

/-- All that a reaper does to its store is to sweep it. -/
theorem run_induction (held : Bool) (r : Reaper) {s : Store} (hs : P s) :
    P (r.run held now s).2 := by
  unfold Reaper.run
  split
  · exact hs
  · split
    · exact catchUp_induction hsweep r hs
    · split
      · exact hs
      · exact hs

theorem runAll_induction (held : Bool) (reapers : List Reaper) {s : Store} (hs : P s) :
    P (runAll held now reapers s).2 := by
  induction reapers generalizing s with
  | nil => exact hs
  | cons r reapers ih => exact ih (run_induction hsweep held r hs)

end Sweeps

section Sides

variable {R : Store → Store → Prop} {now : Instant}
  (hsweep : ∀ s u, R s u → R (s.sweep now).2 (u.sweep now).2)
include hsweep

/-- A reaper ticks alike whatever its store holds. -/
theorem catchUp_congr (r : Reaper) {s u : Store} (h : R s u) :
    (r.catchUp now s).1 = (r.catchUp now u).1 ∧ R (r.catchUp now s).2 (r.catchUp now u).2 := by
  induction r, s using Reaper.catchUp.induct now generalizing u with
  | case1 r s hdue ih =>
      rw [Reaper.catchUp_of_due s hdue, Reaper.catchUp_of_due u hdue]
      exact ih (hsweep s u h)
  | case2 r s hdue =>
      have hahead := Int.not_le.mp hdue
      rw [Reaper.catchUp_of_ahead s hahead, Reaper.catchUp_of_ahead u hahead]
      exact ⟨rfl, h⟩

theorem run_congr (held : Bool) (r : Reaper) {s u : Store} (h : R s u) :
    (r.run held now s).1 = (r.run held now u).1 ∧ R (r.run held now s).2 (r.run held now u).2 := by
  unfold Reaper.run
  split
  · exact ⟨rfl, h⟩
  · split
    · exact catchUp_congr hsweep r h
    · split
      · exact ⟨rfl, h⟩
      · exact ⟨rfl, h⟩

theorem runAll_congr (held : Bool) (reapers : List Reaper) {s u : Store} (h : R s u) :
    (runAll held now reapers s).1 = (runAll held now reapers u).1 ∧
      R (runAll held now reapers s).2 (runAll held now reapers u).2 := by
  induction reapers generalizing s u with
  | nil => exact ⟨rfl, h⟩
  | cons r reapers ih =>
      obtain ⟨hreaper, hstore⟩ := run_congr hsweep held r h
      obtain ⟨hreapers, hstores⟩ := ih hstore
      simp only [runAll]
      rw [hreaper, hreapers]
      exact ⟨rfl, hstores⟩

end Sides

/-- When the clock goes on, the store is only swept, and at the new time. -/
theorem advance_induction {P : Store → Prop} (k : Keyspace) (duration : Nat)
    (hsweep : ∀ s, P s → P (s.sweep (k.now.after duration)).2) (hs : P k.store) :
    P (k.advance duration).store :=
  runAll_induction hsweep k.held k.reapers hs

end Keyspace

end RespServer
