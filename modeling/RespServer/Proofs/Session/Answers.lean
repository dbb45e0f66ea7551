import RespServer.Proofs.Session.Sequential

/-!
# The answers to a read

What a read completes is answered item by item: a request with what it is executed with,
in the store that the requests before it have left, an error with the same reply always.
Besides that, all that happens to the store of a session is that it is swept.
-/

namespace RespServer

/-- The store after requests that come in order at the same time. -/
def executeAll (now : Instant) (requests : List Frame) (s : Store) : Store :=
  requests.foldl (fun s f => (execute now s f).2) s

/-- What is decoded of several reads in a row, and the decoder behind them. -/
def Decoder.drainEach (d : Decoder) : List Bytes → List (Except ProtocolError Frame) × Decoder
  | [] => ([], d)
  | chunk :: reads =>
    let (items, d') := (d.feed chunk).drain
    let (later, d'') := d'.drainEach reads
    (items ++ later, d'')

namespace Session

/-- The requests among what has been decoded, in order. -/
def requestsAmong (items : List (Except ProtocolError Frame)) : List Frame :=
  items.filterMap Except.toOption

/-- The reply to a request or to an error of the protocol. -/
def replyTo (now : Instant) (s : Store) : Except ProtocolError Frame → Frame
  | .ok request => (RespServer.execute now s request).1
  | .error _ => .error "ERR Protocol error"

theorem answerAll_snd (now : Instant) (items : List (Except ProtocolError Frame)) (s : Store) :
    (answerAll now items s).2 = executeAll now (requestsAmong items) s := by
  induction items generalizing s with
  | nil => rfl
  | cons item items ih =>
      cases item with
      | error e => exact ih s
      | ok request => exact ih (RespServer.execute now s request).2

/-- What is decoded later is answered in the store that is left behind. -/
theorem answerAll_append (now : Instant) (items later : List (Except ProtocolError Frame))
    (s : Store) :
    (answerAll now (items ++ later) s).1 =
      (answerAll now items s).1 ++ (answerAll now later (answerAll now items s).2).1 := by
  induction items generalizing s with
  | nil => rfl
  | cons item items ih =>
      cases item with
      | error e => exact congrArg (protocolErrorReply :: ·) (ih s)
      | ok request => exact congrArg (_ :: ·) (ih (RespServer.execute now s request).2)

/-- Every reply is to the item at its place, with the requests before that executed. -/
theorem getElem?_answerAll (now : Instant) (items : List (Except ProtocolError Frame)) (s : Store)
    (j : Nat) : (answerAll now items s).1[j]? =
      items[j]?.map (replyTo now (executeAll now (requestsAmong (items.take j)) s)) := by
  induction items generalizing s j with
  | nil => rfl
  | cons item items ih =>
      cases item with
      | error e =>
          cases j with
          | zero => rfl
          | succ j => exact ih s j
      | ok request =>
          cases j with
          | zero => rfl
          | succ j => exact ih (RespServer.execute now s request).2 j

/-- The requests that a decoder yields are the frames of its buffer. -/
theorem requestsAmong_drain (d : Decoder) : requestsAmong d.drain.1 = Frame.frames d.buffer := by
  have hdrain := Decoder.drain_eq d.limit d.buffer
  rw [hdrain, requestsAmong, List.filterMap_append, List.filterMap_map, List.filterMap_map]
  simp [Except.toOption, Function.comp_def]

theorem requestsAmong_append (items later : List (Except ProtocolError Frame)) :
    requestsAmong (items ++ later) = requestsAmong items ++ requestsAmong later :=
  List.filterMap_append

/-- The requests that an action completes. -/
def arriving (s : Session) : Action → List Frame
  | .event (.read i chunk) =>
    match s.connection? i with
    | some d => Frame.frames (d.buffer ++ chunk)
    | none => []
  | _ => []

theorem arriving_read {s : Session} {i : Nat} {d : Decoder} (hd : s.connection? i = some d)
    (chunk : Bytes) : s.arriving (.event (.read i chunk)) = Frame.frames (d.buffer ++ chunk) := by
  rw [arriving, hd]

theorem getElem?_of_connection? {s : Session} {i : Nat} {d : Decoder}
    (h : s.connection? i = some d) : s.connections[i]? = some (some d) := by
  rwa [connection?, Option.join_eq_some_iff] at h

/-- Only on an open connection is a chunk read, and only an open one is closed. -/
theorem exists_connection?_of_act {s : Session} {i : Nat} {e : Event}
    {result : List (Nat × Bytes) × Session} (h : s.act (.event e) = .ok result)
    (he : (∃ chunk, e = .read i chunk) ∨ e = .close i) : ∃ d, s.connection? i = some d := by
  cases hd : s.connection? i with
  | some d => exact ⟨d, rfl⟩
  | none =>
      rcases he with ⟨chunk, rfl⟩ | rfl
      · rw [act, step, hd] at h
        cases h
      · rw [act, step, hd] at h
        cases h

/-- Behind a read the store is the one that the requests it completes leave behind. -/
theorem act_read_executed {s : Session} {i : Nat} {d : Decoder} (hd : s.connection? i = some d)
    (chunk : Bytes) : s.act (.event (.read i chunk)) =
      .ok ([(i, Frame.encodeAll
          (answerAll s.keyspace.now (d.feed chunk).drain.1 s.keyspace.store).1)],
        { s with
          keyspace := { s.keyspace with
            store := executeAll s.keyspace.now (Frame.frames (d.buffer ++ chunk))
              s.keyspace.store }
          connections := s.connections.set i (some (d.feed chunk).drain.2) }) := by
  have hstore : (answerAll s.keyspace.now (d.feed chunk).drain.1 s.keyspace.store).2 =
      executeAll s.keyspace.now (Frame.frames (d.buffer ++ chunk)) s.keyspace.store := by
    rw [answerAll_snd, requestsAmong_drain]
    rfl
  rw [act_read_open hd, hstore]

/-- What is sent at once is answered as what its reads bring, one read behind the other. -/
theorem perform_arrival {s : Session} {i : Nat} {d : Decoder} (hd : s.connection? i = some d)
    (reads : List Bytes) : ∃ written s', s.perform (arrival i reads) = .ok (written, s') ∧
      (∀ p ∈ written, p.1 = i) ∧ (written.map Prod.snd).flatten = Frame.encodeAll
        (answerAll s.keyspace.now (d.drainEach reads).1 s.keyspace.store).1 := by
  induction reads generalizing s d with
  | nil => exact ⟨[], s, rfl, nofun, rfl⟩
  | cons chunk reads ih =>
      let first := answerAll s.keyspace.now (d.feed chunk).drain.1 s.keyspace.store
      let behind : Session := { s with
        keyspace := { s.keyspace with store := first.2 }
        connections := s.connections.set i (some (d.feed chunk).drain.2) }
      have hact : s.act (.event (.read i chunk)) = .ok ([(i, Frame.encodeAll first.1)], behind) :=
        act_read_open hd chunk
      have hopen : behind.connection? i = some (d.feed chunk).drain.2 := by
        obtain ⟨hi, -⟩ := List.getElem?_eq_some_iff.mp (getElem?_of_connection? hd)
        rw [connection?, List.getElem?_set_self hi, Option.join_some]
      obtain ⟨later, s', hlater, hwhere, hbytes⟩ := ih hopen
      refine ⟨(i, Frame.encodeAll first.1) :: later, s', ?_, ?_, ?_⟩
      · change perform s (.event (.read i chunk) :: arrival i reads) = _
        simp only [perform, hact, hlater, List.singleton_append]
      · exact List.forall_mem_cons.mpr ⟨rfl, hwhere⟩
      · rw [List.map_cons, List.flatten_cons, hbytes, Decoder.drainEach, answerAll_append,
          Frame.encodeAll_append]

/-- An action reads on an open connection, or it leaves the store to the sweeps. -/
theorem store_act_induction {P : Store → Prop} {s s' : Session} {action : Action}
    {sent : List (Nat × Bytes)} (h : s.act action = .ok (sent, s'))
    (hsweep : ∀ now u, P u → P (u.sweep now).2)
    (hexecuted : P (executeAll s.keyspace.now (s.arriving action) s.keyspace.store)) :
    P s'.keyspace.store := by
  cases action with
  | sweep =>
      cases h
      exact hsweep s.keyspace.now s.keyspace.store hexecuted
  | event e =>
      cases e with
      | connect =>
          cases h
          change P s.connect.2.keyspace.store
          rw [connect_snd]
          split
          · exact hexecuted
          · exact hexecuted
      | read i chunk =>
          obtain ⟨d, hd⟩ := exists_connection?_of_act h (.inl ⟨chunk, rfl⟩)
          rw [act_read_executed hd] at h
          cases h
          rwa [arriving_read hd] at hexecuted
      | close i =>
          obtain ⟨d, hd⟩ := exists_connection?_of_act h (.inr rfl)
          rw [act_close hd] at h
          cases h
          exact hexecuted
      | advance duration =>
          cases h
          exact s.keyspace.advance_induction duration (fun u => hsweep _ u) hexecuted
      | shutdown =>
          cases h
          exact hexecuted
      | run =>
          cases h
          exact hexecuted

/-- A session begins with an empty store. -/
theorem store_start_induction {P : Store → Prop} (hsweep : ∀ now u, P u → P (u.sweep now).2)
    (hempty : P Store.empty) (network : Network) (limit : Nat) (reaper : Option Nat)
    (now : Instant) : P (start network limit reaper now).keyspace.store := by
  cases reaper with
  | none => exact hempty
  | some millis =>
      exact Keyspace.runAll_induction (fun u => hsweep now u) true [Reaper.new millis now] hempty

end Session

end RespServer
