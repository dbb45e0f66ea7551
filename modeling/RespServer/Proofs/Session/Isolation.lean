import RespServer.Proofs.Command.Effect
import RespServer.Proofs.Decoder.Calls
import RespServer.Proofs.Session.Answers

/-!
# Errors stay where they are

A read is answered with the replies to the frames that it completes and, if something is
wrong behind them, with one reply about that. The connection then goes on as a new one. In
no session does a connection keep more between two reads than the unfinished start of one
frame, and that keeps to the limit.
-/

namespace RespServer

theorem getElem?_toList_append {front text back : String} {n : Nat} (h : n < front.toList.length) :
    (front ++ text ++ back).toList[n]? = front.toList[n]? := by
  rw [String.toList_append, String.toList_append, List.append_assoc, List.getElem?_append_left h]

theorem Command.Refusal.message_ne_protocolError (r : Refusal) :
    r.message ≠ "ERR Protocol error" := by
  -- the fifth letter tells them apart
  have hletter : r.message.toList[4]? ≠ some 'P' := by
    cases r with
    | unknownCommand name => exact (getElem?_toList_append (by decide)).trans_ne (by decide)
    | wrongArity name => exact (getElem?_toList_append (by decide)).trans_ne (by decide)
    | _ => decide
  intro h
  rw [h] at hletter
  exact hletter (by decide)

/-- No request is answered as if it were no frame. -/
theorem execute_fst_ne_protocolError (now : Instant) (s : Store) (f : Frame) :
    (execute now s f).1 ≠ .error "ERR Protocol error" := by
  rw [execute]
  cases Command.ofFrame f with
  | ok command => exact command.execute_fst_ne_error now s _
  | error refusal => exact fun h => refusal.message_ne_protocolError (Frame.error.inj h)

namespace Session

/-- Replies to frames, each in the store that the requests before it leave. -/
theorem getElem?_answerAll_ok (now : Instant) (fs : List Frame) (s : Store) (j : Nat) :
    (answerAll now (fs.map .ok) s).1[j]? =
      fs[j]?.map fun f => (RespServer.execute now (executeAll now (fs.take j) s) f).1 := by
  have hbefore : requestsAmong ((fs.map .ok).take j) = fs.take j := by
    rw [← List.map_take, requestsAmong, List.filterMap_map]
    exact List.filterMap_some
  rw [getElem?_answerAll, hbefore, List.getElem?_map, Option.map_map]
  rfl

theorem protocolError_notMem_answerAll (now : Instant) (fs : List Frame) (s : Store) :
    .error "ERR Protocol error" ∉ (answerAll now (fs.map .ok) s).1 := by
  intro h
  obtain ⟨j, hj⟩ := List.mem_iff_getElem?.mp h
  rw [getElem?_answerAll_ok, Option.map_eq_some_iff] at hj
  obtain ⟨f, -, hf⟩ := hj
  exact execute_fst_ne_protocolError _ _ _ hf

theorem answerAll_append_errors (now : Instant) (fs : List Frame) (errors : List ProtocolError)
    (s : Store) :
    (answerAll now (fs.map .ok ++ errors.map .error) s).1 =
      (answerAll now (fs.map .ok) s).1 ++ errors.map fun _ => .error "ERR Protocol error" := by
  rw [answerAll_append]
  congr 1
  induction errors with
  | nil => rfl
  | cons e errors ih => exact congrArg (protocolErrorReply :: ·) ih

/-- Every connection waits for the rest of a frame or for a new one. -/
structure Settled (limit : Nat) (s : Session) : Prop where
  limit_eq : s.limit = limit
  waits : ∀ d, some d ∈ s.connections → d.Waits limit

variable {limit : Nat} {s s' : Session}

theorem settled_start (network : Network) (limit : Nat) (reaper : Option Nat) (now : Instant) :
    Settled limit (start network limit reaper now) where
  limit_eq := rfl
  waits := nofun

namespace Settled

theorem connect (h : Settled limit s) : Settled limit s.connect.2 := by
  rw [connect_snd]
  split
  · refine ⟨h.limit_eq, fun d hd => ?_⟩
    rcases List.mem_append.mp hd with hd | hd
    · exact h.waits d hd
    · rw [Option.some.inj (List.mem_singleton.mp hd), h.limit_eq]
      exact Decoder.waits_new limit
  · exact h

/-- A connection is drained or closed, and the others stay as they are. -/
theorem set (h : Settled limit s) (k : Keyspace) (i : Nat) {connection : Option Decoder}
    (hconnection : ∀ d, connection = some d → d.Waits limit) :
    Settled limit { s with keyspace := k, connections := s.connections.set i connection } where
  limit_eq := h.limit_eq
  waits := by
    intro d hd
    rcases List.mem_or_eq_of_mem_set hd with hd | hd
    · exact h.waits d hd
    · exact hconnection d hd.symm

theorem waits_of_connection? (h : Settled limit s) {i : Nat} {d : Decoder}
    (hd : s.connection? i = some d) : d.Waits limit :=
  h.waits d (List.mem_of_getElem? (getElem?_of_connection? hd))

theorem act (h : Settled limit s) {action : Action} {sent : List (Nat × Bytes)}
    (hact : s.act action = .ok (sent, s')) : Settled limit s' := by
  cases action with
  | sweep =>
      cases hact
      exact ⟨h.limit_eq, h.waits⟩
  | event e =>
      cases e with
      | connect =>
          cases hact
          exact h.connect
      | read i chunk =>
          obtain ⟨d, hd⟩ := exists_connection?_of_act hact (.inl ⟨chunk, rfl⟩)
          rw [act_read_executed hd] at hact
          cases hact
          obtain ⟨fs, failure, -, hdrained⟩ := (d.feed chunk).exists_drained
          have hwaits := hdrained.waits
          refine h.set _ i fun d' hd' => ?_
          cases hd'
          rwa [← (h.waits_of_connection? hd).limit_eq]
      | close i =>
          obtain ⟨d, hd⟩ := exists_connection?_of_act hact (.inr rfl)
          rw [act_close hd] at hact
          cases hact
          exact h.set _ i nofun
      | advance duration =>
          cases hact
          exact ⟨h.limit_eq, h.waits⟩
      | shutdown =>
          cases hact
          exact ⟨h.limit_eq, h.waits⟩
      | run =>
          cases hact
          exact h

theorem perform (h : Settled limit s) {actions : List Action} {sent : List (Nat × Bytes)}
    (hperform : s.perform actions = .ok (sent, s')) : Settled limit s' :=
  perform_induction (P := fun _ s => Settled limit s) (fun _ _ _ _ _ h hact => h.act hact) [] h
    hperform

end Settled

/-- A chunk on an open connection is answered with the replies to its frames, in order, and
behind them with one about an error, if there is one. -/
theorem step_read_of_drained {i : Nat} {d : Decoder} (hd : s.connection? i = some d)
    {chunk : Bytes} {fs : List Frame} {failure : Option ProtocolError}
    (hdrain : (d.feed chunk).drain.1 = fs.map .ok ++ failure.toList.map .error) :
    ∃ replies s', s.step (.read i chunk) = .ok (.replies (Frame.encodeAll
        (replies ++ failure.toList.map fun _ => .error "ERR Protocol error")), s') ∧
      (∀ j, replies[j]? = fs[j]?.map fun f => (RespServer.execute s.keyspace.now
        (executeAll s.keyspace.now (fs.take j) s.keyspace.store) f).1) ∧
      .error "ERR Protocol error" ∉ replies ∧
      s'.connection? i = some (d.feed chunk).drain.2 := by
  have hreplies := answerAll_append_errors s.keyspace.now fs failure.toList s.keyspace.store
  rw [← hdrain] at hreplies
  refine ⟨(answerAll s.keyspace.now (fs.map .ok) s.keyspace.store).1, (s.receive i d chunk).2, ?_,
    getElem?_answerAll_ok _ _ _, protocolError_notMem_answerAll _ _ _, ?_⟩
  · rw [← hreplies, step, hd]
    rfl
  · have hlt : i < s.connections.length :=
      (List.getElem?_eq_some_iff.mp (getElem?_of_connection? hd)).1
    change (s.connections.set i (some (d.feed chunk).drain.2))[i]?.join = _
    rw [List.getElem?_set_self hlt]
    rfl

/-- Errors are isolated. Whatever is buffered and whatever arrives, a decoder that is called
until it waits gives frames and behind them at most one error, and nothing else; the bytes of
the frames are what is taken off the buffer, and the rest stays if it is the start of a frame
within the limit. After an error the decoder is a new one. So a read is answered with the
replies to its frames and then with at most one about the protocol, and behind every action of
every session all connections keep the start of one frame at most. -/
theorem read_isolates_errors (network : Network) (limit : Nat) (reaper : Option Nat)
    (now : Instant) :
    (∀ (d : Decoder) (chunk : Bytes), ∃ fs failure,
      (d.feed chunk).drain.1 = fs.map .ok ++ failure.toList.map .error ∧
      (d.feed chunk).Drained fs failure (d.feed chunk).drain.2 ∧
      (∀ answers last, (d.feed chunk).Calls answers last →
        answers = fs.map .frame ++ failure.toList.map .failed ∧ last = (d.feed chunk).drain.2) ∧
      (failure ≠ none → (d.feed chunk).drain.2 = Decoder.new d.limit) ∧
      ∀ (s : Session) (i : Nat), s.connection? i = some d →
        ∃ replies s', s.step (.read i chunk) = .ok (.replies (Frame.encodeAll
            (replies ++ failure.toList.map fun _ => .error "ERR Protocol error")), s') ∧
          (∀ j, replies[j]? = fs[j]?.map fun f => (RespServer.execute s.keyspace.now
            (executeAll s.keyspace.now (fs.take j) s.keyspace.store) f).1) ∧
          .error "ERR Protocol error" ∉ replies ∧
          s'.connection? i = some (d.feed chunk).drain.2) ∧
      ∀ (actions : List Action) (sent : List (Nat × Bytes)) (s : Session),
        (start network limit reaper now).perform actions = .ok (sent, s) →
        ∀ i d, s.connection? i = some d → d.Waits limit := by
  constructor
  · intro d chunk
    obtain ⟨fs, failure, hdrain, hdrained⟩ := (d.feed chunk).exists_drained
    exact ⟨fs, failure, hdrain, hdrained, fun _ _ hcalls => hcalls.unique hdrained.calls,
      hdrained.eq_new, fun s i hd => step_read_of_drained hd hdrain⟩
  · intro actions sent s hperform i d hd
    exact ((settled_start network limit reaper now).perform hperform).waits_of_connection? hd

/-- A frame that is no request, and behind it the start of one over the limit of four bytes. -/
def oversizedStart : Bytes :=
  asciiBytes "+a\r\n$9\r\nxy"

theorem calls_oversizedStart : ((Decoder.new 4).feed oversizedStart).Calls
    ([Frame.simple "a"].map .frame ++ (some (ProtocolError.frameTooLarge 4)).toList.map .failed)
    (Decoder.new 4) := by
  let behind (n : Nat) : Decoder := ⟨4, oversizedStart.drop n⟩
  have hframe : (behind 0).next = (.frame (.simple "a"), behind 4) := rfl
  have hlast : (behind 4).next = (.failed (.frameTooLarge 4), Decoder.new 4) := rfl
  have hnew : (Decoder.new 4).next = (.more, Decoder.new 4) := rfl
  exact .answer hframe nofun (.answer hlast nofun (.wait hnew))

theorem read_oversizedStart :
    let opened := (start .reachable 4 none ⟨0⟩).connect.2
    (start .reachable 4 none ⟨0⟩).perform [.event .connect] = .ok ([], opened) ∧
      opened.connection? 0 = some (Decoder.new 4) ∧ (Decoder.new 4).Waits 4 ∧
      ((Decoder.new 4).feed oversizedStart).Calls
        [.frame (.simple "a"), .failed (.frameTooLarge 4)] (Decoder.new 4) ∧
      ∃ (fs : List Frame) (failure : Option ProtocolError) (replies : List Frame) (s' : Session),
        fs = [.simple "a"] ∧ failure = some (.frameTooLarge 4) ∧ failure ≠ none ∧
        opened.step (.read 0 oversizedStart) = .ok (.replies (Frame.encodeAll
          (replies ++ failure.toList.map fun _ => .error "ERR Protocol error")), s') ∧
        replies = [.error "ERR invalid command"] ∧
        opened.step (.read 0 oversizedStart) = .ok (.replies
          (asciiBytes "-ERR invalid command\r\n-ERR Protocol error\r\n"), s') ∧
        s'.connection? 0 = some (Decoder.new 4) := by
  intro opened
  obtain ⟨hdrain, hsessions⟩ := read_isolates_errors .reachable 4 none ⟨0⟩
  obtain ⟨fs, failure, -, -, hcalls, hnew, hread⟩ := hdrain (Decoder.new 4) oversizedStart
  obtain ⟨rfl, rfl⟩ := Decoder.answers_inj (hcalls _ _ calls_oversizedStart).1.symm
  obtain ⟨replies, s', hstep, hreplies, -, hconnection⟩ := hread opened 0 rfl
  obtain rfl : replies = [.error "ERR invalid command"] := by
    apply List.ext_getElem?
    intro j
    rw [hreplies]
    rcases j with _ | j
    · decide +kernel
    · rfl
  have hwritten : Frame.encodeAll [.error "ERR invalid command", .error "ERR Protocol error"] =
      asciiBytes "-ERR invalid command\r\n-ERR Protocol error\r\n" := by
    decide +kernel
  refine ⟨rfl, rfl, hsessions [.event .connect] [] opened rfl 0 _ rfl,
    calls_oversizedStart, _, _, _, s', rfl, rfl, nofun, hstep, rfl, ?_, ?_⟩
  · rw [← hwritten]
    exact hstep
  · rw [hconnection, hnew nofun]
    rfl

end Session

end RespServer
