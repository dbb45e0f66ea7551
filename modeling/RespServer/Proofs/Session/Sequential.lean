import RespServer.Proofs.Decoder.Drain
import RespServer.Proofs.Session.History

/-!
# Sessions are sequential

A session answers its connections as if whole requests came in one at a time. Behind
every action each open connection has buffered just the unfinished end of its
stream, and the keyspace is the one that the history so far leaves behind.
-/

namespace RespServer.Session

open RespServer.Frame (frames leftover failure? completed)
open Decoder (verdict residue)

/-- Clients connect while the machine can be reached and the server listens. -/
theorem connect_snd (s : Session) :
    s.connect.2 = if s.network = .reachable ∧ s.listening = true then
      { s with connections := s.connections ++ [some (Decoder.new s.limit)] } else s := by
  unfold Session.connect
  cases s.network with
  | unreachable => rfl
  | reachable =>
      cases s.listening with
      | false => rfl
      | true => rfl

/-- On an open connection what is read is decoded as far as it goes and answered. -/
theorem act_read_open {s : Session} {i : Nat} {d : Decoder} (hd : s.connection? i = some d)
    (chunk : Bytes) :
    let answers := answerAll s.keyspace.now (d.feed chunk).drain.1 s.keyspace.store
    s.act (.event (.read i chunk)) = .ok ([(i, Frame.encodeAll answers.1)],
      { s with
        keyspace := { s.keyspace with store := answers.2 }
        connections := s.connections.set i (some (d.feed chunk).drain.2) }) := by
  rw [act, step, hd]
  rfl

/-- A read that leaves no unfinished frame over the limit is answered by executing
its requests one behind the other. -/
theorem act_read {s : Session} {i limit : Nat} {seen : Bytes}
    (hd : s.connection? i = some ⟨limit, leftover seen⟩) (chunk : Bytes)
    (hv : verdict limit (seen ++ chunk) = none) (hseen : failure? seen = none) :
    let answers := s.keyspace.replay ((frames (leftover seen ++ chunk)).map (.request i))
    ∃ replies, answers.1 = replies.map (fun reply => (i, reply)) ∧
      s.act (.event (.read i chunk)) = .ok ([(i, Frame.encodeAll replies)],
        { s with
          keyspace := answers.2
          connections := s.connections.set i (some ⟨limit, leftover (seen ++ chunk)⟩) }) := by
  intro answers
  have hdrain := Decoder.drain_eq limit (leftover seen ++ chunk)
  rw [Decoder.verdict_append hseen, Decoder.residue_append hseen, hv,
    Decoder.residue_of_verdict hv, Option.toList_none, List.map_nil, List.append_nil] at hdrain
  have hanswers := replay_requests s.keyspace i (frames (leftover seen ++ chunk))
  refine ⟨_, congrArg Prod.fst hanswers, ?_⟩
  rw [act_read_open hd, Decoder.feed, hdrain, show answers.2 = _ from congrArg Prod.snd hanswers]

theorem act_close {s : Session} {i : Nat} {d : Decoder} (hd : s.connection? i = some d) :
    s.act (.event (.close i)) =
      .ok ([], { s with connections := s.connections.set i none }) := by
  rw [act, step, hd]
  rfl

/-- The replies to one read go to its connection. -/
theorem flatten_ofConnection (i j : Nat) (replies : List Frame) :
    (ofConnection j [(i, Frame.encodeAll replies)]).flatten =
      Frame.encodeAll (ofConnection j (replies.map fun reply => (i, reply))) := by
  have hone := ofConnection_map_pair j i [Frame.encodeAll replies]
  rw [List.map_cons, List.map_nil] at hone
  rw [hone, ofConnection_map_pair]
  by_cases hj : i = j
  · rw [if_pos hj, if_pos hj, List.flatten_singleton]
  · rw [if_neg hj, if_neg hj]
    rfl

/-- A session in which `before` has happened. -/
structure Follows (limit : Nat) (before : List Action) (r : Roster) (s : Session) : Prop where
  limit_eq : s.limit = limit
  accepting : r.accepting = decide (s.network = .reachable ∧ s.listening = true)
  opened : r.opened = s.connections.map Option.isSome
  buffered : ∀ (i : Nat) (d : Decoder), s.connections[i]? = some (some d) →
    d = ⟨limit, leftover (stream i before)⟩
  silent : ∀ i, s.connections.length ≤ i → stream i before = []

variable {limit : Nat} {before : List Action} {r : Roster} {s : Session}

namespace Follows

/-- An open connection of the roster has its decoder. -/
theorem connection?_eq (hs : Follows limit before r s) {i : Nat}
    (hi : r.opened[i]? = some true) :
    s.connection? i = some ⟨limit, leftover (stream i before)⟩ ∧ i < s.connections.length := by
  rw [hs.opened, List.getElem?_map, Option.map_eq_some_iff] at hi
  obtain ⟨slot, hslot, hopen⟩ := hi
  obtain ⟨d, rfl⟩ := Option.isSome_iff_exists.mp hopen
  obtain ⟨hlt, -⟩ := List.getElem?_eq_some_iff.mp hslot
  refine ⟨?_, hlt⟩
  rw [connection?, hslot, Option.join_some, hs.buffered i d hslot]

/-- What reads nothing leaves the streams as they are. -/
theorem of_quiet (hs : Follows limit before r s) {action : Action}
    (hquiet : ∀ i, action.chunk i = []) : Follows limit (before ++ [action]) r s where
  limit_eq := hs.limit_eq
  accepting := hs.accepting
  opened := hs.opened
  buffered := by
    intro i d hd
    rw [stream_concat, hquiet, List.append_nil]
    exact hs.buffered i d hd
  silent := by
    intro i hi
    rw [stream_concat, hquiet, List.append_nil]
    exact hs.silent i hi

theorem withKeyspace (hs : Follows limit before r s) (k : Keyspace) :
    Follows limit before r { s with keyspace := k } :=
  ⟨hs.limit_eq, hs.accepting, hs.opened, hs.buffered, hs.silent⟩

theorem shutdown (hs : Follows limit before r s) :
    Follows limit before { r with accepting := false } { s with listening := false } :=
  ⟨hs.limit_eq, by simp, hs.opened, hs.buffered, hs.silent⟩

theorem close (hs : Follows limit before r s) (i : Nat) :
    Follows limit before { r with opened := r.opened.set i false }
      { s with connections := s.connections.set i none } where
  limit_eq := hs.limit_eq
  accepting := hs.accepting
  opened := by
    rw [hs.opened, List.map_set]
    rfl
  buffered := by
    intro j d hd
    by_cases hj : i = j
    · rw [List.getElem?_set, if_pos hj] at hd
      split at hd <;> cases hd
    · rw [List.getElem?_set_ne hj] at hd
      exact hs.buffered j d hd
  silent := by
    intro j hj
    rw [List.length_set] at hj
    exact hs.silent j hj

/-- A new connection starts with an empty buffer. -/
theorem opening (hs : Follows limit before r s) :
    Follows limit before { r with opened := r.opened ++ [true] }
      { s with connections := s.connections ++ [some (Decoder.new s.limit)] } where
  limit_eq := hs.limit_eq
  accepting := hs.accepting
  opened := by
    rw [hs.opened, List.map_append]
    rfl
  buffered := by
    intro i d hd
    rcases Nat.lt_or_ge i s.connections.length with hi | hi
    · rw [List.getElem?_append_left hi] at hd
      exact hs.buffered i d hd
    · rw [List.getElem?_append_right hi] at hd
      rw [hs.silent i hi, Frame.leftover_of_error Frame.parse_nil, ← hs.limit_eq]
      have hmem := List.mem_of_getElem? hd
      rw [List.mem_singleton] at hmem
      exact Option.some.inj hmem
  silent := by
    intro i hi
    rw [List.length_append] at hi
    exact hs.silent i (Nat.le_of_add_right_le hi)

theorem connect (hs : Follows limit before r s) :
    Follows limit before (r.after (.event .connect)) s.connect.2 := by
  rw [Roster.after, connect_snd]
  by_cases hacc : s.network = .reachable ∧ s.listening = true
  · have hopen : r.accepting = true := hs.accepting.trans (decide_eq_true hacc)
    rw [if_pos hacc, if_pos hopen]
    exact hs.opening
  · have hshut : r.accepting = false := hs.accepting.trans (decide_eq_false hacc)
    rw [if_neg hacc, hshut]
    exact hs

/-- Behind a chunk its connection has buffered the new end of its stream. -/
theorem chunk (hs : Follows limit before r s) {i : Nat} (hi : i < s.connections.length)
    {bytes : Bytes} (hopen : r.opened[i]? = some true) (k : Keyspace) :
    Follows limit (before ++ [.event (.read i bytes)]) r
      { s with
        keyspace := k
        connections :=
          s.connections.set i (some ⟨limit, leftover (stream i before ++ bytes)⟩) } where
  limit_eq := hs.limit_eq
  accepting := hs.accepting
  opened := by
    obtain ⟨hlt, hget⟩ := List.getElem?_eq_some_iff.mp hopen
    rw [List.map_set, ← hs.opened, Option.isSome_some, ← hget, List.set_getElem_self]
  buffered := by
    intro j d hd
    rw [stream_concat, Action.chunk]
    by_cases hj : i = j
    · subst hj
      rw [List.getElem?_set_self hi] at hd
      rw [if_pos rfl]
      exact (Option.some.inj (Option.some.inj hd)).symm
    · rw [List.getElem?_set_ne hj] at hd
      rw [if_neg hj, List.append_nil]
      exact hs.buffered j d hd
  silent := by
    intro j hj
    rw [List.length_set] at hj
    rw [stream_concat, Action.chunk, if_neg (by omega), List.append_nil]
    exact hs.silent j hj

/-- One action does what the history has in its place. -/
theorem act (hs : Follows limit before r s) {action : Action} {rest : List Action}
    (hallows : r.allows action = true)
    (hsound : ∀ i, failure? (stream i (before ++ action :: rest)) = none)
    (hfits : ∀ i, (leftover (stream i (before ++ [action]))).length ≤ limit) :
    let answers := s.keyspace.replay
      (turns (fun i => stream i (before ++ action :: rest)) before action)
    ∃ sent s', s.act action = .ok (sent, s') ∧
      Follows limit (before ++ [action]) (r.after action) s' ∧ s'.keyspace = answers.2 ∧
      ∀ i, (ofConnection i sent).flatten = Frame.encodeAll (ofConnection i answers.1) := by
  intro answers
  cases action with
  | sweep =>
      refine ⟨[], _, rfl, ?_, rfl, fun _ => rfl⟩
      exact (hs.withKeyspace s.keyspace.sweep).of_quiet fun _ => rfl
  | event e =>
      cases e with
      | connect =>
          refine ⟨[], s.connect.2, rfl, hs.connect.of_quiet fun _ => rfl, ?_, fun _ => rfl⟩
          rw [connect_snd]
          split <;> rfl
      | read i bytes =>
          have hopen : r.opened[i]? = some true := of_decide_eq_true hallows
          obtain ⟨hd, hi⟩ := hs.connection?_eq hopen
          have hnow : failure? (stream i before ++ bytes) = none := by
            have hwhole := hsound i
            rw [stream_append_cons, chunk_read, ← List.append_assoc] at hwhole
            exact Frame.failure?_of_append hwhole
          have hv : verdict limit (stream i before ++ bytes) = none := by
            have hfit := hfits i
            rw [stream_concat, chunk_read] at hfit
            rw [verdict, hnow]
            exact if_neg (Nat.not_lt.mpr hfit)
          have hturns : answers = s.keyspace.replay
              ((frames (leftover (stream i before) ++ bytes)).map (.request i)) :=
            congrArg s.keyspace.replay (turns_read (hsound i))
          obtain ⟨replies, hreplies, hact⟩ :=
            act_read hd bytes hv (Frame.failure?_of_append hnow)
          refine ⟨_, _, hact, hs.chunk hi hopen _, congrArg Prod.snd hturns.symm, ?_⟩
          intro j
          rw [hturns, hreplies, flatten_ofConnection]
      | close i =>
          obtain ⟨hd, -⟩ := hs.connection?_eq (of_decide_eq_true hallows)
          refine ⟨[], _, act_close hd, ?_, rfl, fun _ => rfl⟩
          exact (hs.close i).of_quiet fun _ => rfl
      | advance duration =>
          refine ⟨[], _, rfl, ?_, rfl, fun _ => rfl⟩
          exact (hs.withKeyspace (s.keyspace.advance duration)).of_quiet fun _ => rfl
      | shutdown =>
          refine ⟨[], _, rfl, ?_, rfl, fun _ => rfl⟩
          exact hs.shutdown.of_quiet fun _ => rfl
      | run =>
          refine ⟨[], s, rfl, ?_, rfl, fun _ => rfl⟩
          exact hs.of_quiet fun _ => rfl

/-- A run does what its history does. -/
theorem perform (hs : Follows limit before r s) {actions : List Action}
    (hallows : r.allowsAll actions = true)
    (hsound : ∀ i, failure? (stream i (before ++ actions)) = none)
    (hfits : ∀ j i, (leftover (stream i (before ++ actions.take j))).length ≤ limit) :
    let answers := s.keyspace.replay
      (historyFrom (fun i => stream i (before ++ actions)) before actions)
    ∃ sent s', s.perform actions = .ok (sent, s') ∧ s'.keyspace = answers.2 ∧
      ∀ i, (ofConnection i sent).flatten = Frame.encodeAll (ofConnection i answers.1) := by
  induction actions generalizing before r s with
  | nil => exact ⟨[], s, rfl, rfl, fun _ => rfl⟩
  | cons action actions ih =>
      intro answers
      obtain ⟨hfirst, hlater⟩ := Bool.and_eq_true_iff.mp hallows
      obtain ⟨sent, s', hact, hs', hkeyspace, hsent⟩ := hs.act hfirst hsound (hfits 1)
      have hassoc : before ++ action :: actions = before ++ [action] ++ actions :=
        List.append_cons before action actions
      have hfitsRest : ∀ j i,
          (leftover (stream i (before ++ [action] ++ actions.take j))).length ≤ limit := by
        intro j
        have hj := hfits (j + 1)
        rwa [List.take_succ_cons, List.append_cons] at hj
      obtain ⟨later, s'', hperform, hkeyspace', hlater'⟩ :=
        ih hs' hlater (hassoc ▸ hsound) hfitsRest
      rw [hkeyspace, ← hassoc] at hkeyspace' hlater'
      refine ⟨sent ++ later, s'', ?_, ?_, ?_⟩
      · simp only [Session.perform, hact, hperform]
      · rw [hkeyspace']
        simp only [answers, historyFrom, Keyspace.replay_append]
      · intro i
        rw [ofConnection_append, List.flatten_append, hsent, hlater', ← Frame.encodeAll_append,
          ← ofConnection_append]
        simp only [answers, historyFrom, Keyspace.replay_append]

end Follows

end RespServer.Session
