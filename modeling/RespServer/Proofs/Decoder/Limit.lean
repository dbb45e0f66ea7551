import Mathlib.Data.List.Forall2
import RespServer.Proofs.Decoder.Cutting
import RespServer.Proofs.Frame.Arrival
import RespServer.Proofs.Frame.Grammar

/-!
# The limit and the cutting

A decoder looks at its limit only while a frame is unfinished. So a frame over the limit is
refused if a chunk ends in it behind more bytes of it than the limit allows, and is taken
otherwise. Frames within the limit are never refused for their length.
-/

namespace RespServer.Frame

/-- Frames at the front of a stream are read first. -/
theorem frames_flatten_append {parts : List Bytes} {fs : List Frame}
    (h : List.Forall₂ (Derives 0) parts fs) (rest : Bytes) :
    frames (parts.flatten ++ rest) = fs ++ frames rest ∧
      leftover (parts.flatten ++ rest) = leftover rest ∧
      failure? (parts.flatten ++ rest) = failure? rest := by
  induction h with
  | nil => exact ⟨rfl, rfl, rfl⟩
  | @cons part f parts fs hpart _ ih =>
      have hread : parse (part ++ (parts.flatten ++ rest)) = .ok (f, parts.flatten ++ rest) :=
        (readsAt_parse _ _ _).mpr ⟨part, rfl, hpart⟩
      obtain ⟨hframes, hleft, hfail⟩ := ih
      rw [List.flatten_cons, List.append_assoc, frames_of_ok hread,
        leftover_of_ok hread, failure?_of_ok hread, hframes]
      exact ⟨rfl, hleft, hfail⟩

/-- A frame that is not all there is waited for. -/
theorem Derives.parse_unfinished {used more : Bytes} {f : Frame} (h : Derives 0 (used ++ more) f)
    (hmore : more ≠ []) : parse used = .error .incomplete := by
  have hwhole : parse (used ++ more) = .ok (f, []) :=
    (readsAt_parse _ _ _).mpr ⟨used ++ more, (List.append_nil _).symm, h⟩
  cases hused : parse used with
  | ok split =>
      obtain ⟨g, rest⟩ := split
      obtain ⟨taken, rfl, htaken⟩ := steady_parse.taken hused
      rw [List.append_assoc, htaken] at hwhole
      have hnil : rest ++ more = [] := congrArg Prod.snd (Except.ok.inj hwhole)
      exact absurd (List.append_eq_nil_iff.mp hnil).2 hmore
  | error e =>
      by_cases he : e = .incomplete
      · rw [he]
      · rw [steady_parse.refused hused he] at hwhole
        cases hwhole

end RespServer.Frame

namespace RespServer.Decoder

open RespServer.Frame (parse Derives frames leftover failure?)

/-- A chunk ends in part `i` of the stream, and more than `limit` bytes of that part are in. -/
def Overruns (limit : Nat) (chunks parts : List Bytes) (i : Nat) : Prop :=
  ∃ j, (parts.take i).flatten.length + limit < (received chunks j).length ∧
    (received chunks j).length < (parts.take (i + 1)).flatten.length

theorem length_flatten_take_le {i k : Nat} (h : i ≤ k) (parts : List Bytes) :
    (parts.take i).flatten.length ≤ (parts.take k).flatten.length := by
  obtain ⟨more, hmore⟩ := List.take_prefix_take_left (l := parts) h
  rw [← hmore, List.flatten_append, List.length_append]
  exact Nat.le_add_right _ _

/-- A position behind the start of one part and in front of the end of another. -/
theorem le_of_length_flatten_take_lt {i k : Nat} {parts : List Bytes}
    (h : (parts.take i).flatten.length < (parts.take (k + 1)).flatten.length) : i ≤ k :=
  Nat.le_of_not_lt fun hk => Nat.not_lt.mpr (length_flatten_take_le hk parts) h

theorem length_flatten_take_le_length (i : Nat) (parts : List Bytes) :
    (parts.take i).flatten.length ≤ parts.flatten.length := by
  rcases Nat.le_total i parts.length with h | h
  · have hle := length_flatten_take_le h parts
    rwa [List.take_length] at hle
  · rw [List.take_of_length_le h]

theorem length_flatten_take_succ {parts : List Bytes} {i : Nat} {part : Bytes}
    (h : parts[i]? = some part) :
    (parts.take (i + 1)).flatten.length = (parts.take i).flatten.length + part.length := by
  rw [List.take_add_one, h, Option.toList_some, List.flatten_append, List.length_append,
    List.flatten_singleton]

/-- A stream that ends before its last part does ends in one of the parts. -/
theorem exists_unfinished {front back rest : Bytes} {parts : List Bytes}
    (h : front ++ back = parts.flatten ++ rest) (hlt : front.length < parts.flatten.length) :
    ∃ i used more, parts[i]? = some (used ++ more) ∧ more ≠ [] ∧
      front = (parts.take i).flatten ++ used := by
  induction parts generalizing front with
  | nil => exact absurd hlt (Nat.not_lt_zero _)
  | cons part parts ih =>
      rw [List.flatten_cons, List.append_assoc] at h
      have hpart : part <+: front ++ back := h ▸ List.prefix_append _ _
      rcases Nat.lt_or_ge front.length part.length with hin | hbehind
      · obtain ⟨more, rfl⟩ : front <+: part :=
          List.prefix_of_prefix_length_le (List.prefix_append _ _) hpart (Nat.le_of_lt hin)
        refine ⟨0, front, more, rfl, ?_, rfl⟩
        rintro rfl
        rw [List.append_nil] at hin
        exact Nat.lt_irrefl _ hin
      · obtain ⟨front, rfl⟩ : part <+: front :=
          List.prefix_of_prefix_length_le hpart (List.prefix_append _ _) hbehind
        rw [List.append_assoc] at h
        rw [List.flatten_cons, List.length_append, List.length_append] at hlt
        obtain ⟨i, used, more, hi, hmore, rfl⟩ :=
          ih (List.append_cancel_left h) (Nat.lt_of_add_lt_add_left hlt)
        refine ⟨i + 1, used, more, hi, hmore, ?_⟩
        rw [List.take_succ_cons, List.flatten_cons, List.append_assoc]

section Front

variable {parts : List Bytes} {fs : List Frame} {rest : Bytes} {chunks : List Bytes}
  (hparts : List.Forall₂ (Derives 0) parts fs) (hstream : chunks.flatten = parts.flatten ++ rest)
include hparts hstream

/-- Where a chunk ends in the frame `i`, the frames before it have been read, and what has
arrived of it is left over. -/
theorem received_unfinished (limit : Nat) {j : Nat}
    (hlt : (received chunks j).length < parts.flatten.length) :
    ∃ i < fs.length, (parts.take i).flatten.length ≤ (received chunks j).length ∧
      (received chunks j).length < (parts.take (i + 1)).flatten.length ∧
      frames (received chunks j) = fs.take i ∧
      (oversized limit (received chunks j) = true ↔
        (parts.take i).flatten.length + limit < (received chunks j).length) := by
  obtain ⟨back, hback⟩ := exists_received_append chunks j
  rw [hstream] at hback
  obtain ⟨i, used, more, hi, hmore, hreceived⟩ := exists_unfinished hback.symm hlt
  obtain ⟨hpart, hi'⟩ := List.getElem?_eq_some_iff.mp hi
  have hlength := hparts.length_eq
  have hpart : Derives 0 (used ++ more) fs[i] := by
    have hget := hparts.get (i := i) hpart (hlength ▸ hpart)
    rwa [List.get_eq_getElem, hi'] at hget
  have hunfinished := hpart.parse_unfinished hmore
  obtain ⟨hframes, hleft, hfail⟩ := Frame.frames_flatten_append (List.forall₂_take i hparts) used
  have hlen : (received chunks j).length = (parts.take i).flatten.length + used.length := by
    rw [hreceived, List.length_append]
  have hpos := List.length_pos_iff.mpr hmore
  refine ⟨i, by omega, by omega, ?_, ?_, ?_⟩
  · rw [length_flatten_take_succ hi, List.length_append]
    omega
  · rw [hreceived, hframes, Frame.frames_of_error hunfinished, List.append_nil]
  · rw [oversized, hreceived, hfail, hleft, Frame.failure?_of_error hunfinished,
      Frame.leftover_of_error hunfinished, List.length_append, decide_eq_true_iff]
    simp

theorem oversized_of_overrun {limit i j : Nat}
    (hover : (parts.take i).flatten.length + limit < (received chunks j).length)
    (hlt : (received chunks j).length < (parts.take (i + 1)).flatten.length) :
    oversized limit (received chunks j) = true := by
  have hend := length_flatten_take_le_length (i + 1) parts
  obtain ⟨k, -, hle, hlt', -, hiff⟩ :=
    received_unfinished hparts hstream limit (Nat.lt_of_lt_of_le hlt hend)
  -- a chunk ends in one part only
  have hki : k = i := by
    apply Nat.le_antisymm
    · exact le_of_length_flatten_take_lt (Nat.lt_of_le_of_lt hle hlt)
    · have hstart : (parts.take i).flatten.length ≤ (received chunks j).length := by omega
      exact le_of_length_flatten_take_lt (Nat.lt_of_le_of_lt hstart hlt')
  subst hki
  exact hiff.mpr hover

theorem overruns_of_oversized {limit j : Nat} (hover : oversized limit (received chunks j) = true)
    (hlt : (received chunks j).length < parts.flatten.length) :
    ∃ i < fs.length, frames (received chunks j) = fs.take i ∧
      (parts.take i).flatten.length ≤ (received chunks j).length ∧
      Overruns limit chunks parts i := by
  obtain ⟨i, hi, hle, hlt', hframes, hiff⟩ := received_unfinished hparts hstream limit hlt
  exact ⟨i, hi, hframes, hle, j, hiff.mp hover, hlt'⟩

end Front

/-- The decoding goes through the stream, or stops where an unfinished frame is over the limit
first. -/
theorem readChunks_new_cases (limit : Nat) (chunks : List Bytes) :
    let out := (Decoder.new limit).readChunks chunks
    (∀ j ≤ chunks.length, oversized limit (received chunks j) = false) ∧
        out.frames = frames chunks.flatten ∨
      ∃ j ≤ chunks.length, (∀ i < j, oversized limit (received chunks i) = false) ∧
        oversized limit (received chunks j) = true ∧ out.frames = frames (received chunks j) ∧
        out.error = some (.frameTooLarge limit) := by
  intro out
  have hnil : failure? [] = none := Frame.failure?_of_error Frame.parse_nil
  have hleft : leftover [] = [] := Frame.leftover_of_error Frame.parse_nil
  have hframes : frames [] = [] := Frame.frames_of_error Frame.parse_nil
  by_cases hex : ∃ j, j ≤ chunks.length ∧ oversized limit (received chunks j) = true
  · right
    obtain ⟨hj, hover⟩ := Nat.find_spec hex
    have hbefore : ∀ i < Nat.find hex, oversized limit (received chunks i) = false := by
      intro i hi
      have hnot := Nat.find_min hex hi
      rw [not_and, Bool.not_eq_true] at hnot
      exact hnot (Nat.le_trans (Nat.le_of_lt hi) hj)
    have hpos : 0 < Nat.find hex := by
      rw [Nat.find_pos]
      rintro ⟨-, hover⟩
      simp [received, oversized, hleft] at hover
    have hstop := readChunks_of_oversized hnil chunks hj hover hbefore hpos
    rw [hframes, hleft, List.nil_append, List.nil_append] at hstop
    exact ⟨Nat.find hex, hj, hbefore, hover, hstop.1, hstop.2.1⟩
  · left
    have hfits : ∀ j ≤ chunks.length, oversized limit (received chunks j) = false := by
      intro j hj
      rw [← Bool.not_eq_true]
      exact fun hover => hex ⟨j, hj, hover⟩
    have hgo := (readChunks_of_fits hnil chunks hfits).1
    rw [hframes, hleft, List.nil_append, List.nil_append] at hgo
    exact ⟨hfits, hgo⟩

theorem length_received_le {i j : Nat} (h : i ≤ j) (chunks : List Bytes) :
    (received chunks i).length ≤ (received chunks j).length :=
  length_flatten_take_le h chunks

theorem received_of_length_le {chunks : List Bytes} {j : Nat} (h : chunks.length ≤ j) :
    received chunks j = received chunks chunks.length := by
  rw [received, received, List.take_of_length_le h, List.take_length]

section Taken

variable {parts : List Bytes} {fs : List Frame} {rest : Bytes} {chunks : List Bytes}
  (hparts : List.Forall₂ (Derives 0) parts fs) (hstream : chunks.flatten = parts.flatten ++ rest)
include hparts hstream

/-- The decoding stops in the first frame that is overrun, if there is one. -/
theorem taken_cases (limit : Nat) :
    let out := (Decoder.new limit).readChunks chunks
    (∀ i, ¬ Overruns limit chunks parts i) ∧ fs <+: out.frames ∨
      ∃ i < fs.length, (∀ k < i, ¬ Overruns limit chunks parts k) ∧
        Overruns limit chunks parts i ∧ out.frames = fs.take i ∧
        out.error = some (.frameTooLarge limit) := by
  intro out
  rcases readChunks_new_cases limit chunks with ⟨hfits, hframes⟩ | hstop
  · left
    constructor
    · rintro i ⟨j, hover, hlt⟩
      have hj := oversized_of_overrun hparts hstream hover hlt
      rcases Nat.le_total j chunks.length with h | h
      · exact absurd hj (Bool.eq_false_iff.mp (hfits j h))
      · rw [received_of_length_le h] at hj
        exact absurd hj (Bool.eq_false_iff.mp (hfits _ (Nat.le_refl _)))
    · rw [hframes, hstream, (Frame.frames_flatten_append hparts rest).1]
      exact List.prefix_append _ _
  · obtain ⟨j, -, hbefore, hover, hframes, herror⟩ := hstop
    -- no frame that ends before the chunk does is overrun
    have hlater : ∀ i, Overruns limit chunks parts i →
        (received chunks j).length < (parts.take (i + 1)).flatten.length := by
      rintro i ⟨k, hk, hlt⟩
      have hj := oversized_of_overrun hparts hstream hk hlt
      have hjk : j ≤ k := by
        rcases Nat.lt_or_ge k j with h | h
        · exact absurd hj (Bool.eq_false_iff.mp (hbefore k h))
        · exact h
      exact Nat.lt_of_le_of_lt (length_received_le hjk chunks) hlt
    rcases Nat.lt_or_ge (received chunks j).length parts.flatten.length with hlt | hge
    · right
      obtain ⟨i, hi, htake, hle, hi'⟩ := overruns_of_oversized hparts hstream hover hlt
      refine ⟨i, hi, fun k hk hk' => ?_, hi', hframes.trans htake, herror⟩
      have hik := le_of_length_flatten_take_lt (Nat.lt_of_le_of_lt hle (hlater k hk'))
      exact Nat.not_lt.mpr hik hk
    · left
      constructor
      · intro i hi
        have hend := length_flatten_take_le_length (i + 1) parts
        exact absurd (hlater i hi) (Nat.not_lt.mpr (Nat.le_trans hend hge))
      · obtain ⟨back, hback⟩ := exists_received_append chunks j
        rw [hstream] at hback
        obtain ⟨more, hmore⟩ : parts.flatten <+: received chunks j := by
          refine List.prefix_of_prefix_length_le (List.prefix_append _ rest) ?_ hge
          rw [hback]
          exact List.prefix_append _ _
        rw [hframes, ← hmore, (Frame.frames_flatten_append hparts more).1]
        exact List.prefix_append _ _

end Taken

/-- Up to one byte over the limit, a frame is in before any of it is refused. -/
theorem not_overruns_of_length_le {limit i : Nat} {parts chunks : List Bytes} {part : Bytes}
    (hi : parts[i]? = some part) (h : part.length ≤ limit + 1) :
    ¬ Overruns limit chunks parts i := by
  rintro ⟨j, hover, hlt⟩
  rw [length_flatten_take_succ hi] at hlt
  omega

/-- A longer frame is overrun if a chunk ends behind as much of it as the limit allows and one
byte. -/
theorem exists_overruns_of_length_gt {limit i : Nat} {parts : List Bytes} {part : Bytes}
    (rest : Bytes) (hi : parts[i]? = some part) (h : limit + 1 < part.length) :
    ∃ cutting : List Bytes, cutting.flatten = parts.flatten ++ rest ∧
      Overruns limit cutting parts i := by
  let m := (parts.take i).flatten.length + (limit + 1)
  refine ⟨[(parts.flatten ++ rest).take m, (parts.flatten ++ rest).drop m], ?_, 1, ?_⟩
  · rw [List.flatten_cons, List.flatten_singleton, List.take_append_drop]
  · have hend := length_flatten_take_le_length (i + 1) parts
    rw [length_flatten_take_succ hi] at hend ⊢
    rw [received_one, List.length_take, List.length_append]
    omega

theorem not_overruns_whole {limit i : Nat} {parts : List Bytes} {rest : Bytes} :
    ¬ Overruns limit [parts.flatten ++ rest] parts i := by
  rintro ⟨j, hover, hlt⟩
  have hend := length_flatten_take_le_length (i + 1) parts
  cases j with
  | zero => exact absurd hover (Nat.not_lt_zero _)
  | succ j =>
      rw [received_cons, List.length_append, List.length_append] at hlt
      omega

/-- Frames at the front of a stream are taken up to the first that is overrun, however long
they are. No frame with up to one byte more than the limit ever is, a longer one is in some
cutting of the stream, and none is if the stream arrives whole. -/
theorem taken_iff_not_overrun (limit : Nat) {chunks parts : List Bytes} {fs : List Frame}
    {rest : Bytes} (hparts : List.Forall₂ (Derives 0) parts fs)
    (hstream : chunks.flatten = parts.flatten ++ rest) :
    let out := (Decoder.new limit).readChunks chunks
    (∀ n ≤ fs.length, fs.take n <+: out.frames ↔ ∀ i < n, ¬ Overruns limit chunks parts i) ∧
      (∀ i, Overruns limit chunks parts i → out.error = some (.frameTooLarge limit)) ∧
      (∀ i part, parts[i]? = some part → (part.length ≤ limit + 1 ↔
        ∀ cutting, cutting.flatten = chunks.flatten → ¬ Overruns limit cutting parts i)) ∧
      fs <+: ((Decoder.new limit).readChunks [chunks.flatten]).frames := by
  intro out
  have hcases := taken_cases hparts hstream limit
  refine ⟨fun n hn => ?_, fun i hi => ?_, fun i part hi => ?_, ?_⟩
  · rcases hcases with ⟨hnever, hall⟩ | ⟨i, hi, hbefore, hover, hframes, -⟩
    · exact ⟨fun _ i _ => hnever i, fun _ => (List.take_prefix n fs).trans hall⟩
    · change out.frames = fs.take i at hframes
      rw [hframes]
      constructor
      · intro hprefix k hk hk'
        have hle := hprefix.length_le
        rw [List.length_take, List.length_take] at hle
        exact hbefore k (by omega) hk'
      · intro hnone
        have hni : n ≤ i := Nat.le_of_not_lt fun h => hnone i h hover
        exact List.take_prefix_take_left hni
  · rcases hcases with ⟨hnever, -⟩ | ⟨-, -, -, -, -, herror⟩
    · exact absurd hi (hnever i)
    · exact herror
  · constructor
    · intro h cutting _
      exact not_overruns_of_length_le hi h
    · intro hnever
      by_contra h
      obtain ⟨cutting, hcutting, hover⟩ :=
        exists_overruns_of_length_gt rest hi (Nat.not_le.mp h)
      exact hnever cutting (hcutting.trans hstream.symm) hover
  · rw [hstream]
    have hwhole : [parts.flatten ++ rest].flatten = parts.flatten ++ rest := List.flatten_singleton
    rcases taken_cases hparts hwhole limit with ⟨-, hall⟩ | ⟨i, -, -, hover, -⟩
    · exact hall
    · exact absurd hover not_overruns_whole

/-- A frame of four bytes and one of nine. -/
def shortThenLong : List Bytes :=
  [asciiBytes "+a\r\n", asciiBytes "$3\r\nabc\r\n"]

theorem derives_shortThenLong :
    List.Forall₂ (Derives 0) shortThenLong [.simple "a", .bulk (asciiBytes "abc")] := by
  have hshort : parse (asciiBytes "+a\r\n") = .ok (.simple "a", []) := by decide +kernel
  have hlong : parse (asciiBytes "$3\r\nabc\r\n") = .ok (.bulk (asciiBytes "abc"), []) := by
    decide +kernel
  obtain ⟨short, hshort, hderives⟩ := (Frame.readsAt_parse _ _ _).mp hshort
  obtain ⟨long, hlong, hderives'⟩ := (Frame.readsAt_parse _ _ _).mp hlong
  rw [List.append_nil] at hshort hlong
  rw [shortThenLong, hshort, hlong]
  exact .cons hderives (.cons hderives' .nil)

/-- Under a limit of four bytes the first frame is taken. The second is refused where five of
its bytes have arrived, and is taken if it arrives whole. -/
theorem taken_shortThenLong :
    let stream := shortThenLong.flatten ++ asciiBytes "*1"
    let chunks := [stream.take 9, stream.drop 9]
    let out := (Decoder.new 4).readChunks chunks
    List.Forall₂ (Derives 0) shortThenLong [.simple "a", .bulk (asciiBytes "abc")] ∧
      chunks.flatten = shortThenLong.flatten ++ asciiBytes "*1" ∧
      [.simple "a"] <+: out.frames ∧
      ¬ [.simple "a", .bulk (asciiBytes "abc")] <+: out.frames ∧
      out.error = some (.frameTooLarge 4) ∧
      [.simple "a", .bulk (asciiBytes "abc")] <+: ((Decoder.new 4).readChunks [stream]).frames := by
  intro stream chunks out
  have hstream : chunks.flatten = shortThenLong.flatten ++ asciiBytes "*1" := by decide
  obtain ⟨htaken, herror, hlength, hwhole⟩ :=
    taken_iff_not_overrun 4 derives_shortThenLong hstream
  have hshort : ¬ Overruns 4 chunks shortThenLong 0 :=
    (hlength 0 _ rfl).mp (by decide) chunks rfl
  have hlong : Overruns 4 chunks shortThenLong 1 := ⟨1, by decide, by decide⟩
  refine ⟨derives_shortThenLong, hstream, ?_, ?_, herror 1 hlong, hwhole⟩
  · refine (htaken 1 (by decide)).mpr fun i hi => ?_
    rwa [Nat.lt_one_iff.mp hi]
  · intro hall
    exact (htaken 2 (by decide)).mp hall 1 (by decide) hlong

/-- A limit of four bytes does not keep out a frame of nine that arrives whole, and does keep
it out if five bytes of it arrive first. -/
theorem next_longer_than_limit :
    let stream := asciiBytes "$3\r\nabc\r\n"
    stream.length = 9 ∧
      ((Decoder.new 4).feed stream).next = (.frame (.bulk (asciiBytes "abc")), Decoder.new 4) ∧
      ((Decoder.new 4).readChunks [stream]).frames = [.bulk (asciiBytes "abc")] ∧
      ((Decoder.new 4).readChunks [stream.take 5, stream.drop 5]).frames = [] ∧
      ((Decoder.new 4).readChunks [stream.take 5, stream.drop 5]).error =
        some (.frameTooLarge 4) := by
  intro stream
  have hwhole : ((Decoder.new 4).feed stream).next =
      (.frame (.bulk (asciiBytes "abc")), Decoder.new 4) := rfl
  have hfront : ((Decoder.new 4).feed (stream.take 5)).next =
      (.failed (.frameTooLarge 4), Decoder.new 4) := rfl
  have hnew : (Decoder.new 4).next = (.more, Decoder.new 4) := rfl
  refine ⟨by decide, hwhole, ?_, ?_, ?_⟩
  · rw [readChunks, takeFrames_of_frame hwhole, takeFrames_of_more hnew]
    rfl
  · rw [readChunks, takeFrames_of_failed hfront]
  · rw [readChunks, takeFrames_of_failed hfront]

end RespServer.Decoder
