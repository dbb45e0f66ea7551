import RespServer.Decoder

/-!
# Reading frames from a peer

A connection reads until a frame is complete. When the peer has closed its side,
an empty buffer is a clean close and anything else a reset.
-/

namespace RespServer

/-- The reads that are still to come, up to the peer's close, and the decoder
that takes them. -/
structure Connection where
  decoder : Decoder
  incoming : List Bytes

namespace Connection

inductive Read where
  | frame (f : Frame)
  | failed (e : ProtocolError)
  | closed
  | reset

def Read.resetMessage : String := "connection reset by peer"

/-- Reads with the given decoder until it has an answer or the reads end. -/
def readFrom (d : Decoder) : List Bytes → Read × Connection
  | [] =>
    match d.next with
    | (.frame f, d') => (.frame f, ⟨d', []⟩)
    | (.failed e, d') => (.failed e, ⟨d', []⟩)
    | (.more, d') => (if d'.buffer.isEmpty then .closed else .reset, ⟨d', []⟩)
  | chunk :: incoming =>
    match d.next with
    | (.frame f, d') => (.frame f, ⟨d', chunk :: incoming⟩)
    | (.failed e, d') => (.failed e, ⟨d', chunk :: incoming⟩)
    | (.more, d') => readFrom (d'.feed chunk) incoming

/-- The next frame, or how the stream ended. A protocol error leaves the
connection usable. -/
def read (c : Connection) : Read × Connection :=
  readFrom c.decoder c.incoming

end Connection

end RespServer
