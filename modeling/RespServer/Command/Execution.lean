import RespServer.Command.Reader
import RespServer.Store.Basic

/-!
# Executing commands

Every frame has a reply: a command is executed, any other frame is answered with
an error.
-/

namespace RespServer

namespace Command

/-- Removes the keys in order; counts those that were there. -/
def removeAll : List Bytes → Store → Nat × Store
  | [], s => (0, s)
  | key :: more, s =>
    let (found, s') := s.remove key
    let (n, s'') := removeAll more s'
    (n + found.toNat, s'')

/-- The seconds that a lifetime is shown as: to the nearest millisecond below,
then to the nearest second. -/
def shownSeconds (nanos : Nat) : Nat :=
  (nanos / Instant.millisecond + 500) / 1000

def ttlReply : Lifetime → Int64
  | .missing => -2
  | .persistent => -1
  | .remaining nanos => Int64.ofNat (shownSeconds nanos)

/-- The reply to a command at the time `now`, and the store after it. -/
def execute (now : Instant) (s : Store) : Command → Frame × Store
  | .dbSize => (.integer (Int64.ofNat s.size), s)
  | .delete targets =>
    let (n, s') := removeAll targets s
    (.integer (Int64.ofNat n), s')
  | .echo message => (.bulk message, s)
  | .existing targets => (.integer (Int64.ofNat (targets.countP (s.contains now))), s)
  | .get key =>
    match s.get? now key with
    | none => (.null, s)
    | some value => (.bulk value, s)
  | .keys _ => (.array ((s.keys now).map .bulk), s)
  | .ping none => (.simple "PONG", s)
  | .ping (some message) => (.bulk message, s)
  | .set key value none => (.simple "OK", s.set key value none)
  | .set key value (some seconds) =>
    (.simple "OK", s.setFor now key value (seconds * Instant.second))
  | .ttl key => (.integer (ttlReply (s.lifetime now key)), s)

end Command

/-- The reply to a request, and the store after it. -/
def execute (now : Instant) (s : Store) (request : Frame) : Frame × Store :=
  match Command.ofFrame request with
  | .ok command => command.execute now s
  | .error refusal => (.error refusal.message, s)

end RespServer
