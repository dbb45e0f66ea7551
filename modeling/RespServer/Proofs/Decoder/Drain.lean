import RespServer.Decoder
import RespServer.Proofs.Frame.Stream

/-!
# Draining a buffer

What a decoder yields from its buffer is said by the frames that can be read
there, the error behind them and the bytes that are left over.
-/

namespace RespServer.Decoder

open RespServer.Frame (parse frames leftover failure?)

/-- The error behind the frames of a buffer: bytes that can never become a frame,
or an unfinished frame over the limit. -/
def verdict (limit : Nat) (bytes : Bytes) : Option ProtocolError :=
  match failure? bytes with
  | some e => some (.malformed e)
  | none =>
    if limit < (leftover bytes).length then some (.frameTooLarge limit) else none

/-- The bytes that a drained buffer keeps. -/
def residue (limit : Nat) (bytes : Bytes) : Bytes :=
  match verdict limit bytes with
  | none => leftover bytes
  | some _ => []

variable {d : Decoder}

theorem next_of_ok {f : Frame} {rest : Bytes} (h : parse d.buffer = .ok (f, rest)) :
    d.next = (.frame f, { d with buffer := rest }) := by
  unfold next
  split
  · next hnil =>
      rw [hnil] at h
      cases h
  · rw [h]

theorem next_of_incomplete (h : parse d.buffer = .error .incomplete) :
    d.next = if d.limit < d.buffer.length then (.failed (.frameTooLarge d.limit), d.clear)
      else (.more, d) := by
  unfold next
  split
  · next hnil => rw [hnil, List.length_nil, if_neg (Nat.not_lt_zero _)]
  · rw [h]

theorem next_of_malformed {e : Frame.ParseError} (h : parse d.buffer = .error e)
    (he : e ≠ .incomplete) : d.next = (.failed (.malformed e), d.clear) := by
  unfold next
  split
  · next hnil =>
      rw [hnil] at h
      cases h
      exact absurd rfl he
  · rw [h]
    cases e
    · exact absurd rfl he
    all_goals rfl

/-- Where no frame can be read, the verdict is the answer. -/
theorem next_of_error {e : Frame.ParseError} (h : parse d.buffer = .error e) :
    d.next = match verdict d.limit d.buffer with
      | none => (.more, d)
      | some e => (.failed e, d.clear) := by
  rw [verdict, Frame.failure?_of_error h, Frame.leftover_of_error h]
  by_cases he : e = .incomplete
  · subst he
    rw [next_of_incomplete h, if_pos rfl]
    by_cases hlimit : d.limit < d.buffer.length
    · simp only [if_pos hlimit]
    · simp only [if_neg hlimit]
  · rw [next_of_malformed h he, if_neg he]

theorem verdict_of_ok {limit : Nat} {bytes rest : Bytes} {f : Frame}
    (h : parse bytes = .ok (f, rest)) : verdict limit bytes = verdict limit rest := by
  rw [verdict, verdict, Frame.failure?_of_ok h, Frame.leftover_of_ok h]

theorem residue_of_ok {limit : Nat} {bytes rest : Bytes} {f : Frame}
    (h : parse bytes = .ok (f, rest)) : residue limit bytes = residue limit rest := by
  rw [residue, residue, verdict_of_ok h, Frame.leftover_of_ok h]

section Append

variable {limit : Nat} {stream : Bytes}

theorem residue_of_verdict (h : verdict limit stream = none) :
    residue limit stream = leftover stream := by
  rw [residue, h]

/-- Behind a chunk the verdict on the buffer is the one on the whole stream. -/
theorem verdict_append (h : failure? stream = none) (more : Bytes) :
    verdict limit (leftover stream ++ more) = verdict limit (stream ++ more) := by
  rw [verdict, verdict, Frame.failure?_append more h, Frame.leftover_append more h]

theorem residue_append (h : failure? stream = none) (more : Bytes) :
    residue limit (leftover stream ++ more) = residue limit (stream ++ more) := by
  rw [residue, residue, verdict_append h, Frame.leftover_append more h]

end Append

theorem drain_clear (d : Decoder) : d.clear.drain = ([], d.clear) := by
  apply drain_of_more
  rw [next_of_incomplete Frame.parse_nil]
  exact if_neg (Nat.not_lt_zero _)

/-- Draining yields the frames of the buffer and at most one error behind them. -/
theorem drain_eq (limit : Nat) (bytes : Bytes) :
    (Decoder.mk limit bytes).drain =
      ((frames bytes).map .ok ++ (verdict limit bytes).toList.map .error,
        ⟨limit, residue limit bytes⟩) := by
  induction bytes using Frame.stream_induction with
  | stopped bytes e h =>
      have hnext := next_of_error (d := ⟨limit, bytes⟩) h
      rw [Frame.frames_of_error h, residue, Frame.leftover_of_error h]
      cases hv : verdict limit bytes with
      | none =>
          rw [hv] at hnext
          exact drain_of_more hnext
      | some err =>
          rw [hv] at hnext
          rw [drain_of_failed hnext, drain_clear]
          rfl
  | frame bytes f rest h ih =>
      rw [drain_of_frame (next_of_ok (d := ⟨limit, bytes⟩) h), ih, verdict_of_ok h,
        residue_of_ok h, Frame.frames_of_ok h]
      rfl

end RespServer.Decoder
