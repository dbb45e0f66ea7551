import RespServer.Proofs.Frame.Steady

/-!
# Positions in a buffer

A frame is read from a position of a buffer, and the reading stops at the position
behind its last byte. Bytes in front of the position play no part.
-/

namespace RespServer.Frame

/-- Reads the frame at a position, with the position behind it. -/
def parseAt (buffer : Bytes) (position : Nat) : Except ParseError (Frame × Nat) :=
  match parse (buffer.drop position) with
  | .error e => .error e
  | .ok (f, rest) => .ok (f, buffer.length - rest.length)

variable {buffer : Bytes} {start stop : Nat} {f : Frame} {e : ParseError}

theorem parseAt_eq_error_iff :
    parseAt buffer start = .error e ↔ parse (buffer.drop start) = .error e := by
  rw [parseAt]
  cases parse (buffer.drop start) with
  | error e' => simp
  | ok split => simp

/-- The reading stops within the buffer, with the rest of it still to be read. -/
theorem parseAt_eq_ok_iff :
    parseAt buffer start = .ok (f, stop) ↔
      start ≤ stop ∧ stop ≤ buffer.length ∧
        parse (buffer.drop start) = .ok (f, buffer.drop stop) := by
  constructor
  · intro h
    cases hp : parse (buffer.drop start) with
    | error e =>
        rw [parseAt, hp] at h
        cases h
    | ok split =>
        obtain ⟨g, rest⟩ := split
        rw [parseAt, hp] at h
        cases h
        obtain ⟨used, hused, -⟩ := steady_parse.taken hp
        have hlen := congrArg List.length hused
        have hlt := length_of_parse hp
        rw [List.length_drop, List.length_append] at hlen
        rw [List.length_drop] at hlt
        have hstop : buffer.length - rest.length = start + used.length := by omega
        refine ⟨by omega, by omega, ?_⟩
        rw [hstop, ← List.drop_drop, hused, List.drop_left]
  · rintro ⟨hle, hstop, hp⟩
    rw [parseAt, hp]
    simp only [List.length_drop]
    rw [Nat.sub_sub_self hstop]

end RespServer.Frame
