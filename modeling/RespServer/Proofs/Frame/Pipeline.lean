import RespServer.Proofs.Frame.RoundTrip
import RespServer.Proofs.Frame.Stream

/-!
# Frames written one behind the other

Frames that can be written are read back in order from their wire forms, one behind the
other, and nothing is left over. Whatever has been read from a stream can be written.
-/

namespace RespServer.Frame

/-- What is written for a frame is read as that frame, whatever follows it. -/
theorem Writable.parse_encode_append {f : Frame} (h : f.Writable 0) (rest : Bytes) :
    parse (f.encode ++ rest) = .ok (f, rest) :=
  (readsAt_parse _ _ _).mpr ⟨f.encode, rfl, derives_encode f h⟩

theorem frames_encodeAll {fs : List Frame} (h : ∀ f ∈ fs, f.Writable 0) :
    frames (encodeAll fs) = fs ∧ leftover (encodeAll fs) = [] := by
  induction fs with
  | nil => exact ⟨frames_of_error parse_nil, leftover_of_error parse_nil⟩
  | cons f fs ih =>
      have hfirst := (h f List.mem_cons_self).parse_encode_append (encodeAll fs)
      obtain ⟨hframes, hleftover⟩ := ih fun g hg => h g (List.mem_cons_of_mem f hg)
      rw [encodeAll, frames_of_ok hfirst, leftover_of_ok hfirst, hframes]
      exact ⟨rfl, hleftover⟩

theorem writable_of_parse {bytes rest : Bytes} {f : Frame} (h : parse bytes = .ok (f, rest)) :
    f.Writable 0 := by
  obtain ⟨used, -, hused⟩ := (readsAt_parse _ _ _).mp h
  exact hused.writable

theorem writable_of_mem_frames {stream : Bytes} {f : Frame} (hf : f ∈ frames stream) :
    f.Writable 0 := by
  induction stream using stream_induction with
  | stopped stream e h =>
      rw [frames_of_error h] at hf
      cases hf
  | frame stream g rest h ih =>
      rw [frames_of_ok h] at hf
      rcases List.mem_cons.mp hf with rfl | hf
      · exact writable_of_parse h
      · exact ih hf

end RespServer.Frame
