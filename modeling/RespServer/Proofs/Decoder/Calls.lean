import RespServer.Proofs.Decoder.Drain
import RespServer.Proofs.Frame.Grammar

/-!
# Calls until a decoder waits

A decoder is called until it waits for more bytes, also behind an error. The calls take
frames off the front of the buffer and end in one of three ways: the rest waits for more,
or it can never become a frame, or it is an unfinished frame over the limit. In the last
two cases there is one error, no frame comes behind it, and nothing stays buffered.
-/

namespace RespServer.Decoder

open RespServer.Frame (parse Derives frames leftover failure?)

/-- The answers of a decoder that is called until it waits, and what it is then. -/
inductive Calls : Decoder → List Decoded → Decoder → Prop
  | wait {d last : Decoder} (h : d.next = (.more, last)) : Calls d [] last
  | answer {d d' last : Decoder} {a : Decoded} {answers : List Decoded} (h : d.next = (a, d'))
      (ha : a ≠ .more) (hrest : Calls d' answers last) : Calls d (a :: answers) last

/-- How the calls end behind the last frame, with the error and the bytes that are kept. -/
inductive Exit (limit : Nat) (rest : Bytes) : Option ProtocolError → Bytes → Prop
  | waiting (hparse : parse rest = .error .incomplete) (hlimit : rest.length ≤ limit) :
      Exit limit rest none rest
  | malformed {e : Frame.ParseError} (hparse : parse rest = .error e) (he : e ≠ .incomplete) :
      Exit limit rest (some (.malformed e)) []
  | oversized (hparse : parse rest = .error .incomplete) (hlimit : limit < rest.length) :
      Exit limit rest (some (.frameTooLarge limit)) []

/-- A decoder that is called until it waits gives frames and at most one error, behind them.
The frames are what the front of the buffer consists of; the rest decides how the calls end. -/
structure Drained (d : Decoder) (fs : List Frame) (failure : Option ProtocolError)
    (last : Decoder) : Prop where
  calls : Calls d (fs.map .frame ++ failure.toList.map .failed) last
  length_le : fs.length + failure.toList.length ≤ d.buffer.length
  limit_eq : last.limit = d.limit
  split : ∃ (parts : List Bytes) (rest : Bytes), d.buffer = parts.flatten ++ rest ∧
    List.Forall₂ (Derives 0) parts fs ∧ Exit d.limit rest failure last.buffer

/-- The calls have one outcome. -/
theorem Calls.unique {d last last' : Decoder} {answers answers' : List Decoded}
    (h : Calls d answers last) (h' : Calls d answers' last') :
    answers = answers' ∧ last = last' := by
  induction h generalizing answers' last' with
  | wait h =>
      cases h' with
      | wait h' =>
          rw [h] at h'
          cases h'
          exact ⟨rfl, rfl⟩
      | answer h' ha _ =>
          rw [h] at h'
          cases h'
          exact absurd rfl ha
  | answer h ha _ ih =>
      cases h' with
      | wait h' =>
          rw [h] at h'
          cases h'
          exact absurd rfl ha
      | answer h' _ hrest' =>
          rw [h] at h'
          cases h'
          obtain ⟨rfl, rfl⟩ := ih hrest'
          exact ⟨rfl, rfl⟩

/-- Frames and an error behind them can be told from the answers. -/
theorem answers_inj {fs gs : List Frame} {failure failure' : Option ProtocolError}
    (h : fs.map .frame ++ failure.toList.map .failed =
      gs.map Decoded.frame ++ failure'.toList.map Decoded.failed) :
    fs = gs ∧ failure = failure' := by
  induction fs generalizing gs with
  | nil => cases gs <;> cases failure <;> cases failure' <;> simp_all
  | cons f fs ih =>
      cases gs with
      | nil => cases failure' <;> simp at h
      | cons g gs =>
          obtain ⟨hhead, htail⟩ := List.cons.inj h
          obtain ⟨rfl, rfl⟩ := ih htail
          exact ⟨congrArg (· :: fs) (Decoded.frame.inj hhead), rfl⟩

/-- An error needs a byte that it is about. -/
theorem Exit.length_le {limit : Nat} {rest kept : Bytes} {failure : Option ProtocolError}
    (h : Exit limit rest failure kept) : failure.toList.length ≤ rest.length := by
  cases h with
  | waiting => exact Nat.zero_le _
  | malformed hparse he =>
      refine List.length_pos_iff.mpr ?_
      rintro rfl
      cases hparse
      exact he rfl
  | oversized _ hlimit => exact Nat.lt_of_le_of_lt (Nat.zero_le limit) hlimit

theorem exit_of_error {limit : Nat} {bytes : Bytes} {e : Frame.ParseError}
    (h : parse bytes = .error e) :
    Exit limit bytes (verdict limit bytes) (residue limit bytes) := by
  rw [residue, verdict, Frame.failure?_of_error h, Frame.leftover_of_error h]
  by_cases he : e = .incomplete
  · subst he
    by_cases hlimit : limit < bytes.length
    · simp only [if_pos hlimit]
      exact .oversized h hlimit
    · simp only [if_neg hlimit]
      exact .waiting h (Nat.not_lt.mp hlimit)
  · simp only [if_neg he]
    exact .malformed h he

/-- Behind bytes that no frame can be read from, the decoder waits at the next call at latest. -/
theorem calls_of_error {limit : Nat} {bytes : Bytes} {e : Frame.ParseError}
    (h : parse bytes = .error e) :
    Calls ⟨limit, bytes⟩ ((verdict limit bytes).toList.map .failed)
      ⟨limit, residue limit bytes⟩ := by
  have hnext := next_of_error (d := ⟨limit, bytes⟩) h
  rw [residue]
  cases hv : verdict limit bytes with
  | none =>
      rw [hv] at hnext
      rw [Frame.leftover_of_error h]
      exact .wait hnext
  | some err =>
      rw [hv] at hnext
      have hclear : Decoder.next ⟨limit, []⟩ = (.more, ⟨limit, []⟩) := rfl
      exact .answer hnext Decoded.noConfusion (.wait hclear)

/-- Draining calls the decoder until it waits. -/
theorem drained_mk (limit : Nat) (bytes : Bytes) :
    Drained ⟨limit, bytes⟩ (frames bytes) (verdict limit bytes) ⟨limit, residue limit bytes⟩ := by
  induction bytes using Frame.stream_induction with
  | stopped bytes e h =>
      have hexit : Exit limit bytes (verdict limit bytes) (residue limit bytes) := exit_of_error h
      rw [Frame.frames_of_error h]
      refine ⟨calls_of_error h, ?_, rfl, [], bytes, rfl, .nil, hexit⟩
      rw [List.length_nil, Nat.zero_add]
      exact hexit.length_le
  | frame bytes f rest h ih =>
      obtain ⟨used, rfl, hused⟩ := (Frame.readsAt_parse _ _ _).mp h
      have hlt := Frame.length_of_parse h
      obtain ⟨hcalls, hle, -, parts, rest', hsplit, hparts, hexit⟩ := ih
      rw [Frame.frames_of_ok h, verdict_of_ok h, residue_of_ok h]
      refine ⟨.answer (next_of_ok (d := ⟨limit, used ++ rest⟩) h) nofun hcalls, ?_, rfl,
        used :: parts, rest', ?_, .cons hused hparts, hexit⟩
      · simp only [List.length_cons] at hle ⊢
        omega
      · simp only at hsplit ⊢
        rw [hsplit, List.flatten_cons, List.append_assoc]

/-- Every buffer is drained: frames come off its front, and at most one error behind them. -/
theorem exists_drained (d : Decoder) :
    ∃ fs failure, d.drain.1 = fs.map .ok ++ failure.toList.map .error ∧
      d.Drained fs failure d.drain.2 := by
  obtain ⟨limit, bytes⟩ := d
  refine ⟨frames bytes, verdict limit bytes, ?_, ?_⟩
  · rw [drain_eq]
  · rw [drain_eq]
    exact drained_mk limit bytes

/-- What is buffered is the unfinished start of a frame, within the limit, or nothing. -/
structure Waits (limit : Nat) (d : Decoder) : Prop where
  limit_eq : d.limit = limit
  incomplete : parse d.buffer = .error .incomplete
  length_le : d.buffer.length ≤ limit

theorem waits_new (limit : Nat) : (Decoder.new limit).Waits limit :=
  ⟨rfl, Frame.parse_nil, Nat.zero_le limit⟩

section Outcome

variable {d last : Decoder} {fs : List Frame} {failure : Option ProtocolError}

/-- After an error the decoder is as it was at the beginning. -/
theorem Drained.eq_new (h : d.Drained fs failure last) (hfailure : failure ≠ none) :
    last = Decoder.new d.limit := by
  obtain ⟨limit, kept⟩ := last
  obtain ⟨-, -, rfl, parts, rest, -, -, hexit⟩ := h
  cases hexit with
  | waiting => exact absurd rfl hfailure
  | malformed => rfl
  | oversized => rfl

theorem Drained.waits (h : d.Drained fs failure last) : last.Waits d.limit := by
  obtain ⟨limit, kept⟩ := last
  obtain ⟨-, -, rfl, parts, rest, -, -, hexit⟩ := h
  cases hexit with
  | waiting hparse hlimit => exact ⟨rfl, hparse, hlimit⟩
  | malformed => exact waits_new d.limit
  | oversized => exact waits_new d.limit

end Outcome

end RespServer.Decoder
