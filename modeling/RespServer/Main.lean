import RespServer.CommandLine.Message
import RespServer.CommandLine.Reader
import RespServer.Session

/-!
# The program

Reads the configuration from the arguments and the environment, then serves one
client over standard input and output until it closes.
-/

namespace RespServer.Program

/-- How far the session's clock is behind the machine's, in nanoseconds. -/
def elapsed (origin now : Nat) (s : Session) : Nat :=
  now - origin - s.keyspace.now.nanos.toNat

/-- Answers the events in order; writes the replies. -/
def handle (output : IO.FS.Stream) (s : Session) (events : List Session.Event) : IO Session :=
  match s.runAll events with
  | .error fault => throw (IO.userError fault.message)
  | .ok (responses, s') => do
    for response in responses do
      if let .replies bytes := response then
        output.write ⟨bytes.toArray⟩
    output.flush
    pure s'

/-- Serves until the client has closed its side. -/
partial def serve (input output : IO.FS.Stream) (origin : Nat) (s : Session) : IO Unit := do
  let chunk ← input.read Session.room.toUSize
  let now ← IO.monoNanosNow
  let events := [.advance (elapsed origin now s)]
  if chunk.isEmpty then
    let _ ← handle output s (events ++ [.close 0])
  else
    serve input output origin (← handle output s (events ++ [.read 0 chunk.toList]))

def run (config : Config) : IO Unit := do
  let input ← IO.getStdin
  let output ← IO.getStdout
  let origin ← IO.monoNanosNow
  let start := Session.start .reachable config.maxFrameSize config.sweepMillis ⟨0⟩
  serve input output origin (← handle output start [.connect])

end RespServer.Program

def main (arguments : List String) : IO UInt32 := do
  let environment ← IO.getEnv "MAX_FRAME_SIZE"
  match RespServer.CommandLine.read arguments environment with
  | .ok config =>
    RespServer.Program.run config
    pure 0
  | .error stop =>
    let message := stop.message environment
    match stop with
    | .flag _ =>
      IO.print message
      pure 0
    | .usage _ =>
      IO.eprint message
      pure 1
