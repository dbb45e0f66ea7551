import RespServer.Frame.Sequence
import RespServer.Proofs.Frame.Steady

/-!
# The frames of a stream

A stream is read frame by frame from its front; positions count from there. The
reading stops at a position behind which the bytes are the start of a frame, or
none at all, or can never become a frame. What has been read of a stream stays
read, at the same positions, when more of it arrives.
-/

namespace RespServer.Frame

/-- Every stream is used up frame by frame until no frame can be read. -/
theorem stream_induction {motive : Bytes → Prop}
    (stopped : ∀ stream e, parse stream = .error e → motive stream)
    (frame : ∀ stream f rest, parse stream = .ok (f, rest) → motive rest → motive stream)
    (stream : Bytes) : motive stream := by
  induction hn : stream.length using Nat.strongRecOn generalizing stream with
  | ind n ih =>
      cases hp : parse stream with
      | error e => exact stopped stream e hp
      | ok split =>
          obtain ⟨f, rest⟩ := split
          have hlt : rest.length < n := hn ▸ length_of_parse hp
          exact frame stream f rest hp (ih rest.length hlt rest rfl)

/-- The frames of a stream in order, each with the position behind it. -/
def frameEnds (stream : Bytes) : List (Frame × Nat) :=
  (parseAll stream).1.map fun p => (p.1, stream.length - p.2.length)

def frames (stream : Bytes) : List Frame :=
  (frameEnds stream).map Prod.fst

/-- The position behind the last frame. -/
def stop (stream : Bytes) : Nat :=
  ((frameEnds stream).getLast?.map Prod.snd).getD 0

/-- The bytes behind the last frame. -/
def leftover (stream : Bytes) : Bytes :=
  stream.drop (stop stream)

/-- The error behind the last frame, unless only bytes are missing there. -/
def failure? (stream : Bytes) : Option ParseError :=
  (parseAll stream).2.filter fun e => e ≠ .incomplete

section Stopped

variable {stream : Bytes} {e : ParseError} (h : parse stream = .error e)
include h

theorem frameEnds_of_error : frameEnds stream = [] := by
  rw [frameEnds, parseAll_of_error h]
  rfl

theorem frames_of_error : frames stream = [] := by
  rw [frames, frameEnds_of_error h]
  rfl

theorem stop_of_error : stop stream = 0 := by
  rw [stop, frameEnds_of_error h]
  rfl

theorem leftover_of_error : leftover stream = stream := by
  rw [leftover, stop_of_error h, List.drop_zero]

theorem failure?_of_error :
    failure? stream = if e = .incomplete then none else some e := by
  rw [failure?, parseAll_of_error h]
  by_cases he : e = .incomplete
  · simp [he]
  · simp [he]

end Stopped

theorem parse_nil : parse [] = .error .incomplete := rfl

/-- What `parseAll` reads behind the first frame. -/
theorem parseAll_of_ok {stream rest : Bytes} {f : Frame} (h : parse stream = .ok (f, rest)) :
    (parseAll stream).1 = (f, rest) :: (parseAll rest).1 ∧ failure? stream = failure? rest := by
  by_cases hrest : rest = []
  · subst hrest
    rw [failure?, failure?, parseAll_of_last h, parseAll_of_error parse_nil]
    exact ⟨rfl, rfl⟩
  · rw [failure?, failure?, parseAll_of_more h hrest]
    exact ⟨rfl, rfl⟩

theorem length_le_of_mem_parseAll {stream : Bytes} {p : Frame × Bytes}
    (hp : p ∈ (parseAll stream).1) : p.2.length < stream.length := by
  induction stream using stream_induction with
  | stopped stream e h =>
      rw [parseAll_of_error h] at hp
      cases hp
  | frame stream f rest h ih =>
      have hlt := length_of_parse h
      rw [(parseAll_of_ok h).1] at hp
      rcases List.mem_cons.mp hp with rfl | hp
      · exact hlt
      · exact Nat.lt_trans (ih hp) hlt

section Next

variable {used rest : Bytes} {f : Frame} (h : parse (used ++ rest) = .ok (f, rest))
include h

theorem frameEnds_of_ok :
    frameEnds (used ++ rest) =
      (f, used.length) :: (frameEnds rest).map fun p => (p.1, used.length + p.2) := by
  rw [frameEnds, (parseAll_of_ok h).1, List.map_cons, List.length_append, Nat.add_sub_cancel,
    frameEnds, List.map_map]
  congr 1
  apply List.map_congr_left
  intro p hp
  have hlt := length_le_of_mem_parseAll hp
  simp only [Function.comp_apply, Nat.add_sub_assoc (Nat.le_of_lt hlt)]

theorem stop_of_ok : stop (used ++ rest) = used.length + stop rest := by
  rw [stop, frameEnds_of_ok h, stop, List.getLast?_cons, List.getLast?_map]
  cases (frameEnds rest).getLast? <;> rfl

end Next

section NextFrame

variable {stream rest : Bytes} {f : Frame} (h : parse stream = .ok (f, rest))
include h

theorem frames_of_ok : frames stream = f :: frames rest := by
  obtain ⟨used, rfl, -⟩ := steady_parse.taken h
  rw [frames, frameEnds_of_ok h, List.map_cons, List.map_map]
  rfl

theorem leftover_of_ok : leftover stream = leftover rest := by
  obtain ⟨used, rfl, -⟩ := steady_parse.taken h
  rw [leftover, stop_of_ok h, List.drop_length_add_append, leftover]

theorem failure?_of_ok : failure? stream = failure? rest :=
  (parseAll_of_ok h).2

end NextFrame

/-- Behind the last frame no frame can be read. -/
theorem parse_leftover (stream : Bytes) :
    parse (leftover stream) = .error ((failure? stream).getD .incomplete) := by
  induction stream using stream_induction with
  | stopped stream e h =>
      rw [leftover_of_error h, h, failure?_of_error h]
      split_ifs with he
      · rw [he]
        rfl
      · rfl
  | frame stream f rest h ih =>
      rw [leftover_of_ok h, failure?_of_ok h, ih]

section Append

variable {stream : Bytes} (more : Bytes)

/-- A stream that has not gone wrong is read on from where the reading stopped. -/
theorem frameEnds_append (h : failure? stream = none) :
    frameEnds (stream ++ more) = frameEnds stream ++
      (frameEnds (leftover stream ++ more)).map fun p => (p.1, stop stream + p.2) := by
  induction stream using stream_induction with
  | stopped stream e he =>
      rw [frameEnds_of_error he, leftover_of_error he, stop_of_error he]
      simp
  | frame stream f rest hp ih =>
      obtain ⟨used, rfl, hused⟩ := steady_parse.taken hp
      rw [failure?_of_ok hp] at h
      rw [List.append_assoc, frameEnds_of_ok (hused (rest ++ more)), ih h, frameEnds_of_ok hp,
        leftover_of_ok hp, stop_of_ok hp, List.map_append, List.map_map]
      simp only [List.cons_append, Function.comp_def, Nat.add_assoc]

theorem frames_append (h : failure? stream = none) :
    frames (stream ++ more) = frames stream ++ frames (leftover stream ++ more) := by
  rw [frames, frameEnds_append more h, List.map_append, List.map_map]
  rfl

theorem leftover_append (h : failure? stream = none) :
    leftover (stream ++ more) = leftover (leftover stream ++ more) := by
  induction stream using stream_induction with
  | stopped stream e he => rw [leftover_of_error he]
  | frame stream f rest hp ih =>
      obtain ⟨used, rfl, hused⟩ := steady_parse.taken hp
      rw [failure?_of_ok hp] at h
      rw [List.append_assoc, leftover_of_ok (hused (rest ++ more)), ih h, leftover_of_ok hp]

theorem failure?_append (h : failure? stream = none) :
    failure? (stream ++ more) = failure? (leftover stream ++ more) := by
  induction stream using stream_induction with
  | stopped stream e he => rw [leftover_of_error he]
  | frame stream f rest hp ih =>
      obtain ⟨used, rfl, hused⟩ := steady_parse.taken hp
      rw [failure?_of_ok hp] at h
      rw [List.append_assoc, failure?_of_ok (hused (rest ++ more)), ih h, leftover_of_ok hp]

/-- A stream that has gone wrong stays as it is, whatever else arrives. -/
theorem append_of_failure {e : ParseError} (h : failure? stream = some e) :
    frameEnds (stream ++ more) = frameEnds stream ∧ failure? (stream ++ more) = some e := by
  induction stream using stream_induction with
  | stopped stream e' he =>
      rw [failure?_of_error he] at h
      split_ifs at h with hinc
      cases h
      have hmore := steady_parse.refused he hinc more
      rw [frameEnds_of_error hmore, frameEnds_of_error he, failure?_of_error hmore, if_neg hinc]
      exact ⟨rfl, rfl⟩
  | frame stream f rest hp ih =>
      obtain ⟨used, rfl, hused⟩ := steady_parse.taken hp
      rw [failure?_of_ok hp] at h
      obtain ⟨hends, hfail⟩ := ih h
      rw [List.append_assoc, frameEnds_of_ok (hused (rest ++ more)), frameEnds_of_ok hp, hends,
        failure?_of_ok (hused (rest ++ more)), hfail]
      exact ⟨rfl, rfl⟩

/-- The frames that can be read stay the first ones. -/
theorem frameEnds_prefix_append (stream more : Bytes) :
    frameEnds stream <+: frameEnds (stream ++ more) := by
  cases h : failure? stream with
  | none =>
      rw [frameEnds_append more h]
      exact List.prefix_append _ _
  | some e =>
      have hends := (append_of_failure more h).1
      exact ⟨[], by rw [List.append_nil, hends]⟩

end Append

end RespServer.Frame
