import RespServer.Proofs.Decoder.Limit
import RespServer.Proofs.Frame.Pipeline
import RespServer.Proofs.Session.Sequential

/-!
# Requests that come in by several reads

What a client sends at once comes in by one read or by more, as the buffer of the connection
has room. The limit is for what stays unfinished behind each of these reads, so a request can
be refused that is whole when all of them are done.
-/

namespace RespServer.Session

open RespServer.Frame (Derives frames leftover failure?)
open Decoder (verdict residue)

section Cut

variable {front back : Bytes} {f : Frame} (h : Derives 0 (front ++ back) f) (hback : back ≠ [])
include h

include hback

end Cut

/-- A request for the echo of a message. -/
def echo (message : Bytes) : Frame :=
  .array [.bulk (asciiBytes "ECHO"), .bulk message]

end RespServer.Session
