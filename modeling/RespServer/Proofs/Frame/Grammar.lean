import Mathlib.Data.Set.Subsingleton
import RespServer.Proofs.Frame.Cursor
import RespServer.Proofs.Frame.Readers

/-!
# The grammar of frames

What the wire form of a frame is, said without the reader: a marker, a line of text
or a numeral, and behind a length a payload or elements one level deeper. The reader
accepts the wire forms and nothing else.
-/

namespace RespServer.Frame

open RespServer.Decimal (Numeral)

/-- The character in front of a frame. -/
def Kind.character : Kind → Char
  | simple => '+'
  | error => '-'
  | integer => ':'
  | bulk => '$'
  | array => '*'

theorem Kind.toUInt8_character (k : Kind) : k.character.toUInt8 = k.marker := by
  cases k <;> rfl

mutual

/-- The wire form of a frame at a depth, of which there are 513. -/
inductive Derives : Nat → Bytes → Frame → Prop
  | frame {depth : Nat} {k : Kind} {body : Bytes} {f : Frame} (hdepth : depth ≤ 512)
      (hbody : DerivesBody depth k body f) : Derives depth (k.character.toUInt8 :: body) f

/-- What stands behind the marker of a frame. -/
inductive DerivesBody : Nat → Kind → Bytes → Frame → Prop
  | simple {depth : Nat} {text : String} (hline : ¬ crlf <:+: text.toUTF8.data.toList) :
      DerivesBody depth .simple (text.toUTF8.data.toList ++ crlf) (.simple text)
  | error {depth : Nat} {text : String} (hline : ¬ crlf <:+: text.toUTF8.data.toList) :
      DerivesBody depth .error (text.toUTF8.data.toList ++ crlf) (.error text)
  | integer {depth : Nat} {line : Bytes} {i : Int64} (hi : Numeral line i.toInt) :
      DerivesBody depth .integer (line ++ crlf) (.integer i)
  | nullBulk {depth : Nat} {line : Bytes} (hnull : Numeral line (-1)) :
      DerivesBody depth .bulk (line ++ crlf) .null
  | bulk {depth : Nat} {line payload : Bytes} (hlength : Numeral line payload.length) :
      DerivesBody depth .bulk (line ++ crlf ++ (payload ++ crlf)) (.bulk payload)
  | nullArray {depth : Nat} {line : Bytes} (hnull : Numeral line (-1)) :
      DerivesBody depth .array (line ++ crlf) .null
  | array {depth : Nat} {line body : Bytes} {elements : List Frame}
      (hcount : Numeral line elements.length) (hbody : DerivesAll (depth + 1) body elements) :
      DerivesBody depth .array (line ++ crlf ++ body) (.array elements)

/-- The wire forms of several frames at a depth, one behind the other. -/
inductive DerivesAll : Nat → Bytes → List Frame → Prop
  | nil {depth : Nat} : DerivesAll depth [] []
  | cons {depth : Nat} {used more : Bytes} {f : Frame} {fs : List Frame}
      (hf : Derives depth used f) (hfs : DerivesAll depth more fs) :
      DerivesAll depth (used ++ more) (f :: fs)

end

theorem Derives.of_marker {depth : Nat} {k : Kind} {body : Bytes} {f : Frame}
    (hdepth : depth ≤ 512) (hbody : DerivesBody depth k body f) :
    Derives depth (k.marker :: body) f :=
  k.toUInt8_character ▸ .frame hdepth hbody

/-- The reader takes the bytes of the wire forms at a depth, and nothing else. -/
def ReadsAt (depth : Nat) (read : Bytes → Parsed Frame) : Prop :=
  ∀ bytes f rest, read bytes = .ok (f, rest) ↔ ∃ used, bytes = used ++ rest ∧ Derives depth used f

/-- As many elements as announced are read one behind the other. -/
theorem ReadsAt.readElements_eq_ok_iff {depth : Nat} {element : Bytes → Parsed Frame}
    (helement : ReadsAt depth element) {n : Nat} {done fs : List Frame} {bytes rest : Bytes} :
    readElements element n done bytes = .ok (fs, rest) ↔
      ∃ used more, bytes = used ++ rest ∧ fs = done.reverse ++ more ∧ more.length = n ∧
        DerivesAll depth used more := by
  induction n generalizing done bytes with
  | zero =>
      rw [readElements]
      constructor
      · intro h
        cases h
        exact ⟨[], [], rfl, (List.append_nil _).symm, rfl, .nil⟩
      · rintro ⟨used, more, rfl, rfl, hlen, hall⟩
        obtain rfl := List.length_eq_zero_iff.mp hlen
        cases hall
        rw [List.append_nil]
        rfl
  | succ n ih =>
      rw [readElements]
      constructor
      · intro h
        cases he : element bytes with
        | error e =>
            rw [he] at h
            cases h
        | ok split =>
            obtain ⟨f, middle⟩ := split
            rw [he] at h
            obtain ⟨used, rfl, hf⟩ := (helement _ _ _).mp he
            obtain ⟨used', more, rfl, rfl, hlen, hall⟩ := ih.mp h
            refine ⟨used ++ used', f :: more, (List.append_assoc ..).symm, ?_, ?_, .cons hf hall⟩
            · rw [List.reverse_cons, List.append_assoc, List.singleton_append]
            · rw [List.length_cons, hlen]
      · rintro ⟨used, more, rfl, rfl, hlen, hall⟩
        cases hall with
        | nil => cases hlen
        | @cons _ used used' f more hf hall =>
            rw [(helement _ _ _).mpr ⟨used, List.append_assoc .., hf⟩]
            refine ih.mpr ⟨used', more, rfl, ?_, Nat.succ.inj hlen, hall⟩
            rw [List.reverse_cons, List.append_assoc, List.singleton_append]

/-- Frames that are a line of text, whatever their kind. -/
theorem readText_as_eq_ok_iff {make : String → Frame} {bytes rest : Bytes} {f : Frame} :
    (readText bytes).as make = .ok (f, rest) ↔
      ∃ text : String, bytes = text.toUTF8.data.toList ++ crlf ++ rest ∧
        ¬ crlf <:+: text.toUTF8.data.toList ∧ f = make text := by
  rw [Parsed.as_eq_ok_iff]
  apply exists_congr
  intro text
  rw [readText_eq_ok_iff, Utf8.encode_eq_toUTF8, List.append_assoc, and_assoc]

/-- Behind a marker the reader takes the bytes of the bodies, and nothing else. -/
theorem ReadsAt.readBody_eq_ok_iff {depth levels : Nat}
    (helement : ReadsAt (depth + 1) (parseWithin levels)) {k : Kind} {f : Frame}
    {bytes rest : Bytes} :
    readBody levels k bytes = .ok (f, rest) ↔
      ∃ body, bytes = body ++ rest ∧ DerivesBody depth k body f := by
  cases k with
  | simple =>
      rw [readBody, readText_as_eq_ok_iff]
      constructor
      · rintro ⟨text, rfl, hline, rfl⟩
        exact ⟨_, rfl, .simple hline⟩
      · rintro ⟨body, rfl, hbody⟩
        cases hbody with
        | simple hline => exact ⟨_, rfl, hline, rfl⟩
  | error =>
      rw [readBody, readText_as_eq_ok_iff]
      constructor
      · rintro ⟨text, rfl, hline, rfl⟩
        exact ⟨_, rfl, .error hline⟩
      · rintro ⟨body, rfl, hbody⟩
        cases hbody with
        | error hline => exact ⟨_, rfl, hline, rfl⟩
  | integer =>
      rw [readBody, Parsed.as_eq_ok_iff]
      constructor
      · rintro ⟨i, hi, rfl⟩
        obtain ⟨line, rfl, hnumeral⟩ := readInteger_eq_ok_iff.mp hi
        exact ⟨line ++ crlf, (List.append_assoc ..).symm, .integer hnumeral⟩
      · rintro ⟨body, rfl, hbody⟩
        cases hbody with
        | integer hnumeral =>
            exact ⟨_, readInteger_eq_ok_iff.mpr ⟨_, List.append_assoc .., hnumeral⟩, rfl⟩
  | bulk =>
      rw [readBody, Parsed.andThen_eq_ok_iff]
      constructor
      · rintro ⟨_ | length, middle, hlength, h⟩
        · obtain ⟨line, rfl, hnull⟩ := readLength_eq_ok_iff.mp hlength
          cases h
          exact ⟨line ++ crlf, (List.append_assoc ..).symm, .nullBulk hnull⟩
        · obtain ⟨line, rfl, hnumeral⟩ := readLength_eq_ok_iff.mp hlength
          obtain ⟨payload, hpayload, rfl⟩ := Parsed.as_eq_ok_iff.mp h
          obtain ⟨rfl, rfl⟩ := readPayload_eq_ok_iff.mp hpayload
          exact ⟨line ++ crlf ++ (payload ++ crlf), by simp, .bulk hnumeral⟩
      · rintro ⟨body, rfl, hbody⟩
        cases hbody with
        | nullBulk hnull =>
            exact ⟨none, rest, readLength_eq_ok_iff.mpr ⟨_, List.append_assoc .., hnull⟩, rfl⟩
        | @bulk _ line payload hnumeral =>
            refine ⟨some payload.length, payload ++ (crlf ++ rest),
              readLength_eq_ok_iff.mpr ⟨line, by simp, hnumeral⟩, ?_⟩
            exact Parsed.as_eq_ok_iff.mpr ⟨payload, readPayload_eq_ok_iff.mpr ⟨rfl, rfl⟩, rfl⟩
  | array =>
      rw [readBody, Parsed.andThen_eq_ok_iff]
      constructor
      · rintro ⟨_ | count, middle, hlength, h⟩
        · obtain ⟨line, rfl, hnull⟩ := readLength_eq_ok_iff.mp hlength
          cases h
          exact ⟨line ++ crlf, (List.append_assoc ..).symm, .nullArray hnull⟩
        · obtain ⟨line, rfl, hnumeral⟩ := readLength_eq_ok_iff.mp hlength
          obtain ⟨elements, helements, rfl⟩ := Parsed.as_eq_ok_iff.mp h
          obtain ⟨body, more, rfl, rfl, rfl, hall⟩ := helement.readElements_eq_ok_iff.mp helements
          exact ⟨line ++ crlf ++ body, by simp, .array hnumeral hall⟩
      · rintro ⟨body, rfl, hbody⟩
        cases hbody with
        | nullArray hnull =>
            exact ⟨none, rest, readLength_eq_ok_iff.mpr ⟨_, List.append_assoc .., hnull⟩, rfl⟩
        | @array _ line body elements hnumeral hall =>
            refine ⟨some elements.length, body ++ rest,
              readLength_eq_ok_iff.mpr ⟨line, by simp, hnumeral⟩, ?_⟩
            refine Parsed.as_eq_ok_iff.mpr ⟨elements, ?_, rfl⟩
            exact helement.readElements_eq_ok_iff.mpr ⟨body, elements, rfl, rfl, rfl, hall⟩

/-- With the levels that a depth leaves, the reader accepts the wire forms there. -/
theorem readsAt_parseWithin {levels depth : Nat} (h : levels + depth = 513) :
    ReadsAt depth (parseWithin levels) := by
  induction levels generalizing depth with
  | zero =>
      intro bytes f rest
      constructor
      · intro h
        cases h
      · rintro ⟨used, -, hused⟩
        cases hused with
        | frame hdepth => omega
  | succ levels ih =>
      intro bytes f rest
      have helement : ReadsAt (depth + 1) (parseWithin levels) := ih (by omega)
      constructor
      · intro hparse
        cases bytes with
        | nil => cases hparse
        | cons marker bytes =>
            rw [parseWithin_cons] at hparse
            cases hk : Kind.ofMarker? marker with
            | none =>
                rw [hk] at hparse
                cases hparse
            | some k =>
                rw [hk] at hparse
                obtain ⟨body, rfl, hbody⟩ := helement.readBody_eq_ok_iff.mp hparse
                obtain rfl := Kind.marker_of_ofMarker? hk
                exact ⟨k.marker :: body, rfl, .of_marker (by omega) hbody⟩
      · rintro ⟨used, rfl, hused⟩
        cases hused with
        | @frame _ k body _ hdepth hbody =>
            rw [k.toUInt8_character, List.cons_append, parseWithin_cons, Kind.ofMarker?_marker]
            exact helement.readBody_eq_ok_iff.mpr ⟨body, rfl, hbody⟩

theorem readsAt_parse : ReadsAt 0 parse :=
  readsAt_parseWithin rfl

theorem drop_eq_extract_append (buffer : Bytes) {start stop : Nat} (h : start ≤ stop) :
    buffer.drop start = buffer.extract start stop ++ buffer.drop stop := by
  rw [List.extract_eq_take_drop, ← Nat.add_sub_cancel' h, ← List.drop_drop,
    Nat.add_sub_cancel_left, List.take_append_drop]

/-- The reader stops behind a wire form, and nowhere else. -/
theorem parseAt_eq_ok_iff_extract {buffer : Bytes} {start stop : Nat} {f : Frame} :
    parseAt buffer start = .ok (f, stop) ↔
      start ≤ stop ∧ stop ≤ buffer.length ∧ Derives 0 (buffer.extract start stop) f := by
  rw [parseAt_eq_ok_iff]
  refine and_congr_right fun hle => and_congr_right fun hstop => ?_
  rw [readsAt_parse, drop_eq_extract_append buffer hle]
  constructor
  · rintro ⟨used, hused, hderives⟩
    rwa [List.append_cancel_right hused]
  · intro hderives
    exact ⟨_, rfl, hderives⟩

/-- The reader stops at a position behind a frame exactly where the bytes up to there
are a wire form of it at depth 0. Such forms begin in at most one way. -/
theorem parseAt_eq_ok_iff_derives (buffer : Bytes) (start : Nat) :
    (∀ f stop, parseAt buffer start = .ok (f, stop) ↔
        start ≤ stop ∧ stop ≤ buffer.length ∧ Derives 0 (buffer.extract start stop) f) ∧
      {p : Frame × Nat | start ≤ p.2 ∧ p.2 ≤ buffer.length ∧
        Derives 0 (buffer.extract start p.2) p.1}.Subsingleton := by
  refine ⟨fun _ _ => parseAt_eq_ok_iff_extract, ?_⟩
  -- two readings from one position are the same reading
  rintro ⟨f, stop⟩ hf ⟨f', stop'⟩ hf'
  have hparse := parseAt_eq_ok_iff_extract.mpr hf
  rw [parseAt_eq_ok_iff_extract.mpr hf'] at hparse
  cases hparse
  rfl

end RespServer.Frame
