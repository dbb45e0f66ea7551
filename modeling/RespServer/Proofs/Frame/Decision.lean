import Mathlib.Data.Nat.Find
import RespServer.Proofs.Frame.Cursor

/-!
# Where an answer is decided

The reader asks for more bytes up to one point of a buffer. From there on it gives one
answer, a frame or an error, whatever comes behind. For a frame the point is its end.
-/

namespace RespServer.Frame

/-- An answer stays when more bytes arrive. -/
theorem parseAt_append {buffer : Bytes} (h : parseAt buffer 0 ≠ .error .incomplete)
    (more : Bytes) : parseAt (buffer ++ more) 0 = parseAt buffer 0 := by
  cases hp : parseAt buffer 0 with
  | error e =>
      rw [hp] at h
      rw [parseAt_eq_error_iff] at hp ⊢
      apply steady_parse.refused hp
      rintro rfl
      exact h rfl
  | ok answer =>
      obtain ⟨f, stop⟩ := answer
      rw [parseAt_eq_ok_iff] at hp ⊢
      obtain ⟨-, hstop, hparse⟩ := hp
      obtain ⟨used, hused, hmore⟩ := steady_parse.taken hparse
      refine ⟨Nat.zero_le _, by rw [List.length_append]; omega, ?_⟩
      rw [List.drop_append_of_le_length hstop, List.drop_zero, ← hmore, ← List.append_assoc,
        ← hused, List.drop_zero]

/-- A frame can be read as soon as its last byte is there. -/
theorem parseAt_take_stop {buffer : Bytes} {f : Frame} {stop : Nat}
    (h : parseAt buffer 0 = .ok (f, stop)) : parseAt (buffer.take stop) 0 = .ok (f, stop) := by
  rw [parseAt_eq_ok_iff] at h ⊢
  obtain ⟨-, hstop, hparse⟩ := h
  obtain ⟨used, hused, hmore⟩ := steady_parse.taken hparse
  have htake : buffer.take stop = used := by
    apply List.append_cancel_right
    calc
      buffer.take stop ++ buffer.drop stop = buffer.drop 0 := List.take_append_drop stop buffer
      _ = used ++ buffer.drop stop := hused
  have hlength : used.length = stop := by
    rw [← htake, List.length_take_of_le hstop]
  refine ⟨Nat.zero_le _, by rw [htake, hlength], ?_⟩
  rw [htake, List.drop_zero, ← hlength, List.drop_length]
  simpa using hmore []

/-- A buffer with an answer has one point before which more bytes are asked for and from
which on the answer is the same, for every part of the buffer and whatever follows it.
A frame is decided at its end; an error excludes every frame that could follow. -/
theorem exists_decision {buffer : Bytes} (h : parseAt buffer 0 ≠ .error .incomplete) :
    ∃ m ≤ buffer.length,
      (∀ n < m, parseAt (buffer.take n) 0 = .error .incomplete) ∧
      (∀ n ≥ m, parseAt (buffer.take n) 0 = parseAt buffer 0) ∧
      (∀ more, parseAt (buffer ++ more) 0 = parseAt buffer 0) ∧
      (∀ f stop, parseAt buffer 0 = .ok (f, stop) → m = stop) ∧
      (∀ e, parseAt buffer 0 = .error e →
        ∀ more f stop, parseAt (buffer ++ more) 0 ≠ .ok (f, stop)) := by
  classical
  have hex : ∃ n, parseAt (buffer.take n) 0 ≠ .error .incomplete :=
    ⟨buffer.length, by rwa [List.take_length]⟩
  -- the shortest part with an answer decides for every longer one
  have hfirst := Nat.find_spec hex
  have hbefore : ∀ n < Nat.find hex, parseAt (buffer.take n) 0 = .error .incomplete :=
    fun n hn => not_not.mp (Nat.find_min hex hn)
  have hwhole : parseAt (buffer.take (Nat.find hex)) 0 = parseAt buffer 0 := by
    conv_rhs => rw [← List.take_append_drop (Nat.find hex) buffer]
    exact (parseAt_append hfirst _).symm
  refine ⟨Nat.find hex, Nat.find_min' hex (by rwa [List.take_length]), hbefore, ?_,
    parseAt_append h, ?_, ?_⟩
  · intro n hn
    rw [← hwhole, ← parseAt_append hfirst ((buffer.take n).drop (Nat.find hex))]
    congr 1
    conv_lhs => rw [← List.take_append_drop (Nat.find hex) (buffer.take n)]
    rw [List.take_take, Nat.min_eq_left hn]
  · intro f stop hok
    apply Nat.le_antisymm
    · apply Nat.find_min' hex
      rw [parseAt_take_stop hok]
      exact nofun
    · rw [hok, parseAt_eq_ok_iff] at hwhole
      exact Nat.le_trans hwhole.2.1 (List.length_take_le _ _)
  · intro e herror more f stop
    rw [parseAt_append h, herror]
    exact nofun

/-- A bad number is noticed at the end of its line, within an array as elsewhere. -/
theorem exists_decision_badNumber :
    let buffer := asciiBytes "*3\r\n$1\r\na\r\n:1a\r\n+"
    parseAt buffer 0 = .error .invalidInteger ∧
      (∃ m ≤ buffer.length,
        (∀ n < m, parseAt (buffer.take n) 0 = .error .incomplete) ∧
        ∀ n ≥ m, parseAt (buffer.take n) 0 = .error .invalidInteger) ∧
      ∀ more f stop, parseAt (buffer ++ more) 0 ≠ .ok (f, stop) := by
  intro buffer
  have hanswer : parseAt buffer 0 = .error .invalidInteger := rfl
  have hdecided : parseAt buffer 0 ≠ .error .incomplete := by
    rw [hanswer]
    exact nofun
  obtain ⟨m, hm, hbefore, hafter, -, -, hnever⟩ := exists_decision hdecided
  rw [hanswer] at hafter
  exact ⟨hanswer, ⟨m, hm, hbefore, hafter⟩, hnever _ hanswer⟩

end RespServer.Frame
