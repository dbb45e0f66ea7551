import RespServer.Command.Execution
import RespServer.Decoder
import RespServer.Frame.Printer
import RespServer.Keyspace

/-!
# Sessions

A server with its clients, as a step function from events to responses. All
connections share one keyspace; each has a decoder of its own. The bytes that one
read brings in on a connection are decoded as far as they go and their requests
are executed one at a time, so that the replies come in the order of the requests.
What a client sends at once may well come in by several reads.
-/

namespace RespServer

/-- Whether the machine can reach its own address. -/
inductive Network where
  | reachable
  | unreachable
  deriving DecidableEq

inductive ConnectError where
  | refused
  | unreachable
  deriving DecidableEq

/-- Connections are numbered in the order they are made; `none` is a closed one. -/
structure Session where
  network : Network
  limit : Nat
  keyspace : Keyspace
  listening : Bool
  connections : List (Option Decoder)

namespace Session

inductive Event where
  | connect
  | read (connection : Nat) (chunk : Bytes)
  | close (connection : Nat)
  | advance (duration : Nat)
  | shutdown
  | run

inductive Response where
  | connected (connection : Nat)
  | notConnected (e : ConnectError)
  | replies (bytes : Bytes)
  | closed (rest : Bytes)
  | advanced
  | stopped
  | addressInUse
  deriving DecidableEq

inductive Fault where
  | noSuchConnection
  deriving DecidableEq

def Fault.message : Fault → String
  | noSuchConnection => "no such connection"

def addressInUseMessage : String := "Address already in use (os error 98)"

/-- The room in the buffer of a new connection, so the most that its first read brings. -/
def room : Nat := 4096

/-- The reply to bytes that are no frame. -/
def protocolErrorReply : Frame := .error "ERR Protocol error"

/-- A server that has just begun to listen, for a keyspace. -/
def listen (network : Network) (limit : Nat) (keyspace : Keyspace) : Session :=
  { network, limit, keyspace, listening := true, connections := [] }

/-- A server that has just begun to listen, with a reaper if a period is given. -/
def start (network : Network) (limit : Nat) (reaper : Option Nat) (now : Instant) : Session :=
  let keyspace := Keyspace.new now Store.empty
  listen network limit <| match reaper with
    | none => keyspace
    | some millis => keyspace.spawnReaper millis

def connection? (s : Session) (i : Nat) : Option Decoder :=
  s.connections[i]?.join

/-- The replies to what has been decoded, in order, and the store after them. -/
def answerAll (now : Instant) : List (Except ProtocolError Frame) → Store → List Frame × Store
  | [], s => ([], s)
  | .error _ :: items, s =>
    let (replies, s') := answerAll now items s
    (protocolErrorReply :: replies, s')
  | .ok request :: items, s =>
    let (reply, s') := RespServer.execute now s request
    let (replies, s'') := answerAll now items s'
    (reply :: replies, s'')

/-- Takes in what one read brings on a connection. -/
def receive (s : Session) (i : Nat) (d : Decoder) (chunk : Bytes) : List Frame × Session :=
  let (items, d') := (d.feed chunk).drain
  let (replies, store) := answerAll s.keyspace.now items s.keyspace.store
  (replies, { s with
    keyspace := { s.keyspace with store }
    connections := s.connections.set i (some d') })

def connect (s : Session) : Response × Session :=
  match s.network with
  | .unreachable => (.notConnected .unreachable, s)
  | .reachable =>
    if s.listening then
      (.connected s.connections.length,
        { s with connections := s.connections ++ [some (Decoder.new s.limit)] })
    else (.notConnected .refused, s)

/-- One event. Only an event on a connection that is not open has no response. -/
def step (s : Session) : Event → Except Fault (Response × Session)
  | .connect => .ok s.connect
  | .read i chunk =>
    match s.connection? i with
    | none => .error .noSuchConnection
    | some d =>
      let (replies, s') := s.receive i d chunk
      .ok (.replies (Frame.encodeAll replies), s')
  | .close i =>
    match s.connection? i with
    | none => .error .noSuchConnection
    | some _ => .ok (.closed [], { s with connections := s.connections.set i none })
  | .advance duration => .ok (.advanced, { s with keyspace := s.keyspace.advance duration })
  | .shutdown => .ok (.stopped, { s with listening := false })
  | .run => .ok (if s.listening then .addressInUse else .stopped, s)

/-- The responses to a sequence of events, and the session after them. -/
def runAll (s : Session) : List Event → Except Fault (List Response × Session)
  | [] => .ok ([], s)
  | event :: events =>
    match s.step event with
    | .error e => .error e
    | .ok (response, s') =>
      match runAll s' events with
      | .error e => .error e
      | .ok (responses, s'') => .ok (response :: responses, s'')

end Session

end RespServer
