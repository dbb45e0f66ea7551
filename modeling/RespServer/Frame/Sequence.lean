import RespServer.Frame.Parser

/-!
# Frames one behind the other

A byte string is read frame by frame until it is used up or no frame can be
read.
-/

namespace RespServer.Frame

/-- The frames at the front of a byte string, each with the bytes behind it, and
the error that ended the reading before the bytes were used up. -/
def parseAll (bytes : Bytes) : List (Frame × Bytes) × Option ParseError :=
  match _h : parse bytes with
  | .error e => ([], some e)
  | .ok (f, []) => ([(f, [])], none)
  | .ok (f, b :: rest) =>
    let (fs, e) := parseAll (b :: rest)
    ((f, b :: rest) :: fs, e)
termination_by bytes.length
decreasing_by exact length_of_parse _h

theorem parseAll_of_error {bytes : Bytes} {e : ParseError} (h : parse bytes = .error e) :
    parseAll bytes = ([], some e) := by
  rw [parseAll]
  split <;> simp_all

theorem parseAll_of_last {bytes : Bytes} {f : Frame} (h : parse bytes = .ok (f, [])) :
    parseAll bytes = ([(f, [])], none) := by
  rw [parseAll]
  split <;> simp_all

theorem parseAll_of_more {bytes rest : Bytes} {f : Frame} (h : parse bytes = .ok (f, rest))
    (hrest : rest ≠ []) :
    parseAll bytes = ((f, rest) :: (parseAll rest).1, (parseAll rest).2) := by
  rw [parseAll]
  split <;> simp_all

end RespServer.Frame
