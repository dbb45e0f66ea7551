import RespServer.Proofs.Frame.Arrival
import RespServer.Proofs.Keyspace.Replay
import RespServer.Session

/-!
# Histories of a session

The streams of the connections come in by chunks, each of them what one read brings,
in any interleaving, while the clock goes on and the store is swept. The history of a
session has whole requests instead, one at a time: each stands at the read that brings
its last byte, and the requests of one read stand in the order of the stream.
-/

namespace RespServer

namespace Session

open RespServer.Frame (frames leftover failure? completed)

/-- An event, or a sweep of the store at any point besides those of the reapers. -/
inductive Action where
  | event (e : Event)
  | sweep

/-- The bytes that an event makes the server write on a connection. -/
def delivered : Event → Response → List (Nat × Bytes)
  | .read i _, .replies bytes => [(i, bytes)]
  | _, _ => []

def act (s : Session) : Action → Except Fault (List (Nat × Bytes) × Session)
  | .event e =>
    match s.step e with
    | .error fault => .error fault
    | .ok (response, s') => .ok (delivered e response, s')
  | .sweep => .ok ([], { s with keyspace := s.keyspace.sweep })

/-- The bytes that are written on the connections, and the session after the actions. -/
def perform (s : Session) : List Action → Except Fault (List (Nat × Bytes) × Session)
  | [] => .ok ([], s)
  | action :: actions =>
    match s.act action with
    | .error fault => .error fault
    | .ok (sent, s') =>
      match perform s' actions with
      | .error fault => .error fault
      | .ok (later, s'') => .ok (sent ++ later, s'')

/-- The reads by which what is sent at once comes in on a connection. -/
def arrival (i : Nat) (reads : List Bytes) : List Action :=
  reads.map fun chunk => .event (.read i chunk)

/-- What every action preserves, of the session and the actions so far, holds behind all of
them. -/
theorem perform_induction {P : List Action → Session → Prop}
    (hact : ∀ before s action sent s', P before s → s.act action = .ok (sent, s') →
      P (before ++ [action]) s') (before : List Action) {actions : List Action} {s s' : Session}
    (hs : P before s) {sent : List (Nat × Bytes)} (h : s.perform actions = .ok (sent, s')) :
    P (before ++ actions) s' := by
  induction actions generalizing s before sent with
  | nil =>
      cases h
      rwa [List.append_nil]
  | cons action actions ih =>
      rw [perform] at h
      cases hfirst : s.act action with
      | error fault =>
          rw [hfirst] at h
          cases h
      | ok split =>
          obtain ⟨first, middle⟩ := split
          cases hmore : middle.perform actions with
          | error fault =>
              simp only [hfirst, hmore] at h
              cases h
          | ok split =>
              simp only [hfirst, hmore] at h
              cases h
              rw [List.append_cons]
              exact ih (before ++ [action]) (hact before s action first middle hs hfirst) hmore

/-- Without sweeps in between, the events are run. -/
theorem perform_map_event (s : Session) (events : List Event) :
    s.perform (events.map .event) = (s.runAll events).map fun p =>
      ((events.zip p.1).flatMap fun q => delivered q.1 q.2, p.2) := by
  induction events generalizing s with
  | nil => rfl
  | cons event events ih =>
      rw [List.map_cons, perform, runAll, act]
      cases s.step event with
      | error fault => rfl
      | ok split =>
          obtain ⟨response, s'⟩ := split
          simp only [ih s']
          cases s'.runAll events with
          | error fault => rfl
          | ok later => rfl

/-- The items of one connection, in order. -/
def ofConnection {α : Type} (i : Nat) (items : List (Nat × α)) : List α :=
  (items.filter fun p => p.1 = i).map Prod.snd

theorem ofConnection_append {α : Type} (i : Nat) (items more : List (Nat × α)) :
    ofConnection i (items ++ more) = ofConnection i items ++ ofConnection i more := by
  rw [ofConnection, List.filter_append, List.map_append, ofConnection, ofConnection]

/-- Items that all belong to one connection. -/
theorem ofConnection_map_pair {α : Type} (i j : Nat) (items : List α) :
    ofConnection i (items.map fun x => (j, x)) = if j = i then items else [] := by
  by_cases hj : j = i
  · simp [ofConnection, List.filter_map, hj, Function.comp_def]
  · simp [ofConnection, List.filter_map, hj, Function.comp_def]

/-- Whether clients can still connect, and which connections are open. -/
structure Roster where
  accepting : Bool
  opened : List Bool

namespace Roster

def start (network : Network) : Roster :=
  ⟨decide (network = .reachable), []⟩

/-- Bytes are read only on open connections, and only those are closed. -/
def allows (r : Roster) : Action → Bool
  | .event (.read i _) => decide (r.opened[i]? = some true)
  | .event (.close i) => decide (r.opened[i]? = some true)
  | _ => true

def after (r : Roster) : Action → Roster
  | .event .connect => if r.accepting then { r with opened := r.opened ++ [true] } else r
  | .event (.close i) => { r with opened := r.opened.set i false }
  | .event .shutdown => { r with accepting := false }
  | _ => r

def allowsAll (r : Roster) : List Action → Bool
  | [] => true
  | action :: actions => r.allows action && allowsAll (r.after action) actions

end Roster

def Action.chunk (i : Nat) : Action → Bytes
  | .event (.read j chunk) => if j = i then chunk else []
  | _ => []

theorem chunk_read (i : Nat) (bytes : Bytes) :
    (Action.event (.read i bytes)).chunk i = bytes :=
  if_pos rfl

/-- All bytes that are read on a connection. -/
def stream (i : Nat) (actions : List Action) : Bytes :=
  actions.flatMap (Action.chunk i)

theorem stream_append (i : Nat) (before after : List Action) :
    stream i (before ++ after) = stream i before ++ stream i after :=
  List.flatMap_append

theorem stream_concat (i : Nat) (before : List Action) (action : Action) :
    stream i (before ++ [action]) = stream i before ++ action.chunk i := by
  rw [stream_append]
  exact congrArg (stream i before ++ ·) (List.append_nil _)

theorem stream_append_cons (i : Nat) (before after : List Action) (action : Action) :
    stream i (before ++ action :: after) =
      stream i before ++ (action.chunk i ++ stream i after) :=
  stream_append i before (action :: after)

/-- The requests of one connection, in order. -/
def requests (i : Nat) (ts : List Turn) : List Frame :=
  ofConnection i (ts.filterMap Turn.request?)

/-- What an action contributes to the history; `streams` are the whole streams. A
read contributes the requests whose last byte it brings. -/
def turns (streams : Nat → Bytes) (before : List Action) : Action → List Turn
  | .event (.read i chunk) =>
    let start := (stream i before).length
    (completed (streams i) start (start + chunk.length)).map (.request i)
  | .event (.advance duration) => [.advance duration]
  | .sweep => [.sweep]
  | _ => []

def historyFrom (streams : Nat → Bytes) (before : List Action) : List Action → List Turn
  | [] => []
  | action :: actions =>
    turns streams before action ++ historyFrom streams (before ++ [action]) actions

/-- On a sound stream these are the frames read from the bytes left over before and
the chunk. -/
theorem turns_read {before rest : List Action} {i : Nat} {bytes : Bytes}
    (hsound : failure? (stream i (before ++ .event (.read i bytes) :: rest)) = none) :
    turns (fun j => stream j (before ++ .event (.read i bytes) :: rest)) before
        (.event (.read i bytes)) =
      (frames (leftover (stream i before) ++ bytes)).map (.request i) := by
  rw [stream_append_cons, chunk_read] at hsound
  simp only [turns, stream_append_cons, chunk_read]
  rw [Frame.completed_eq hsound]

/-- Requests one behind the other are answered as those of one read. -/
theorem replay_requests (k : Keyspace) (i : Nat) (requests : List Frame) :
    k.replay (requests.map (.request i)) =
      ((answerAll k.now (requests.map .ok) k.store).1.map fun reply => (i, reply),
        { k with store := (answerAll k.now (requests.map .ok) k.store).2 }) := by
  induction requests generalizing k with
  | nil => rfl
  | cons request requests ih =>
      rw [List.map_cons, Keyspace.replay, Keyspace.turn]
      simp only [ih]
      rfl

end Session

end RespServer
