import RespServer.Proofs.Frame.RoundTrip
import RespServer.Proofs.Text.Plain

/-!
# Canonical wire forms

A frame can have many wire forms: numerals have spellings with signs and leading zeros, and
null has two markers. What is written for a frame is the canonical one. No other is shorter,
and of every frame that is read the canonical form is read back.
-/

namespace RespServer.Frame

open RespServer.Decimal (Plain Spells ofInt ofInt_natCast plain_iff)

mutual

/-- The wire form in which all numerals are plain and null is the null bulk string. -/
inductive Canonical : Bytes → Frame → Prop
  | simple {text : String} :
      Canonical (Kind.simple.character.toUInt8 :: (text.toUTF8.data.toList ++ crlf)) (.simple text)
  | error {text : String} :
      Canonical (Kind.error.character.toUInt8 :: (text.toUTF8.data.toList ++ crlf)) (.error text)
  | integer {line : Bytes} {i : Int64} (hi : Plain line i.toInt) :
      Canonical (Kind.integer.character.toUInt8 :: (line ++ crlf)) (.integer i)
  | bulk {line payload : Bytes} (hlength : Plain line payload.length) :
      Canonical (Kind.bulk.character.toUInt8 :: (line ++ crlf ++ (payload ++ crlf))) (.bulk payload)
  | null {line : Bytes} (hnull : Plain line (-1)) :
      Canonical (Kind.bulk.character.toUInt8 :: (line ++ crlf)) .null
  | array {line body : Bytes} {elements : List Frame} (hcount : Plain line elements.length)
      (hbody : CanonicalAll body elements) :
      Canonical (Kind.array.character.toUInt8 :: (line ++ crlf ++ body)) (.array elements)

inductive CanonicalAll : Bytes → List Frame → Prop
  | nil : CanonicalAll [] []
  | cons {used more : Bytes} {f : Frame} {fs : List Frame} (hf : Canonical used f)
      (hfs : CanonicalAll more fs) : CanonicalAll (used ++ more) (f :: fs)

end

/-- The canonical wire form of the frame that the bytes begin with, if they begin with one. -/
def canonical? (bytes : Bytes) : Option Bytes :=
  match parse bytes with
  | .error _ => none
  | .ok (f, _) => some f.encode

theorem canonical?_of_ok {bytes rest : Bytes} {f : Frame} (h : parse bytes = .ok (f, rest)) :
    canonical? bytes = some f.encode := by
  rw [canonical?, h]

mutual

theorem Canonical.eq_encode {bytes : Bytes} {f : Frame} : Canonical bytes f → bytes = f.encode
  | .simple => by rw [encode, line, Utf8.encode_eq_toUTF8, Kind.toUInt8_character]
  | .error => by rw [encode, line, Utf8.encode_eq_toUTF8, Kind.toUInt8_character]
  | .integer hi => by rw [encode, line, plain_iff.mp hi, Kind.toUInt8_character]
  | .bulk hlength => by
      rw [encode, line, plain_iff.mp hlength, ofInt_natCast, Kind.toUInt8_character,
        List.cons_append, List.cons_append, List.append_assoc _ _ crlf]
  | .null hnull => by rw [encode, line, plain_iff.mp hnull, Kind.toUInt8_character]
  | .array hcount hbody => by
      rw [encode, line, plain_iff.mp hcount, ofInt_natCast, Kind.toUInt8_character,
        List.cons_append, hbody.eq_encodeAll]

theorem CanonicalAll.eq_encodeAll {bytes : Bytes} {fs : List Frame} :
    CanonicalAll bytes fs → bytes = encodeAll fs
  | .nil => rfl
  | .cons hf hfs => by rw [encodeAll, hf.eq_encode, hfs.eq_encodeAll]

end

mutual

theorem canonical_encode : (f : Frame) → Canonical f.encode f
  | simple text => by
      rw [encode, line, Utf8.encode_eq_toUTF8, ← Kind.toUInt8_character]
      exact .simple
  | error text => by
      rw [encode, line, Utf8.encode_eq_toUTF8, ← Kind.toUInt8_character]
      exact .error
  | integer i => by
      rw [encode, line, ← Kind.toUInt8_character]
      exact .integer (plain_iff.mpr rfl)
  | bulk payload => by
      rw [encode, line, List.cons_append, List.cons_append, List.append_assoc _ payload,
        ← Kind.toUInt8_character]
      exact .bulk (plain_iff.mpr (ofInt_natCast _).symm)
  | null => by
      rw [encode, line, ← Kind.toUInt8_character]
      exact .null (plain_iff.mpr rfl)
  | array elements => by
      rw [encode, line, List.cons_append, ← Kind.toUInt8_character]
      exact .array (plain_iff.mpr (ofInt_natCast _).symm) (canonicalAll_encodeAll elements)

theorem canonicalAll_encodeAll : (fs : List Frame) → CanonicalAll (encodeAll fs) fs
  | [] => .nil
  | f :: fs => .cons (canonical_encode f) (canonicalAll_encodeAll fs)

end

/-- A frame has one canonical wire form, and that is what is written for it. -/
theorem canonical_iff {bytes : Bytes} {f : Frame} : Canonical bytes f ↔ bytes = f.encode := by
  constructor
  · exact Canonical.eq_encode
  · rintro rfl
    exact canonical_encode f

/-- A line with a numeral, written anew behind a marker. -/
theorem length_line_ofInt_le {k : Kind} {spelled : Bytes} {value : Int} (h : Spells spelled value) :
    (line k (ofInt value)).length ≤ (spelled ++ crlf).length + 1 := by
  have hnumeral := h.length_ofInt_le
  simp only [line, List.length_cons, List.length_append]
  omega

mutual

theorem Derives.length_encode_le {depth : Nat} {used : Bytes} {f : Frame} :
    Derives depth used f → f.encode.length ≤ used.length
  | .frame _ hbody => hbody.length_encode_le

/-- The marker takes one more byte. -/
theorem DerivesBody.length_encode_le {depth : Nat} {k : Kind} {body : Bytes} {f : Frame} :
    DerivesBody depth k body f → f.encode.length ≤ body.length + 1
  | .simple _ => by rw [encode, line, Utf8.encode_eq_toUTF8, List.length_cons]
  | .error _ => by rw [encode, line, Utf8.encode_eq_toUTF8, List.length_cons]
  | .integer hi => length_line_ofInt_le hi.spells
  | .nullBulk hnull => length_line_ofInt_le hnull.spells
  | .bulk hlength => by
      have hline := length_line_ofInt_le (k := .bulk) hlength.spells
      rw [ofInt_natCast] at hline
      rw [encode, List.append_assoc]
      simp only [List.length_append] at hline ⊢
      omega
  | .nullArray hnull => length_line_ofInt_le hnull.spells
  | .array hcount hbody => by
      have hline := length_line_ofInt_le (k := .array) hcount.spells
      have helements := hbody.length_encodeAll_le
      rw [ofInt_natCast] at hline
      rw [encode]
      simp only [List.length_append] at hline ⊢
      omega

theorem DerivesAll.length_encodeAll_le {depth : Nat} {used : Bytes} {fs : List Frame} :
    DerivesAll depth used fs → (encodeAll fs).length ≤ used.length
  | .nil => Nat.le_refl 0
  | .cons hf hfs => by
      rw [encodeAll, List.length_append, List.length_append]
      exact Nat.add_le_add hf.length_encode_le hfs.length_encodeAll_le

end

/-- Whatever is written for a frame that has been read is read as that frame. -/
theorem Derives.readsBack {used : Bytes} {f : Frame} (h : Derives 0 used f) (rest : Bytes) :
    f.ReadsBack rest :=
  readsBack_iff_derives.mpr (h.writable.derives_encode f)

/-- Frames that are read back from the same bytes are the same. -/
theorem ReadsBack.eq_of_encode_eq {f g : Frame} {rest : Bytes} (hf : f.ReadsBack rest)
    (hg : g.ReadsBack rest) (h : g.encode = f.encode) : g = f := by
  unfold ReadsBack at hf hg
  rw [h, hf] at hg
  cases hg
  rfl

theorem ReadsBack.canonical?_eq {f : Frame} {rest : Bytes} (h : f.ReadsBack rest) :
    canonical? (f.encode ++ rest) = some f.encode :=
  canonical?_of_ok (parseAt_eq_ok_iff.mp h).2.2

/-- The canonical wire form of a frame that has been read is no longer than the bytes it was
read from, and is read back as that frame, whatever follows it. So a second writing changes
nothing, and what is written for two readings is the same exactly if the frames are. -/
theorem encode_canonical_of_parseAt {buffer : Bytes} {start stop : Nat} {f : Frame}
    (h : parseAt buffer start = .ok (f, stop)) :
    f.encode.length ≤ stop - start ∧ (∀ rest, f.ReadsBack rest) ∧
      (∀ bytes, Canonical bytes f ↔ bytes = f.encode) ∧
      canonical? (buffer.drop start) = some f.encode ∧
      (∀ rest, canonical? (f.encode ++ rest) = some f.encode) ∧
      ∀ buffer' start' g stop', parseAt buffer' start' = .ok (g, stop') →
        (g.encode = f.encode ↔ g = f) := by
  obtain ⟨-, -, hused⟩ := parseAt_eq_ok_iff_extract.mp h
  have hback := hused.readsBack
  refine ⟨?_, hback, fun _ => canonical_iff, ?_, fun rest => (hback rest).canonical?_eq, ?_⟩
  · have hshorter := hused.length_encode_le
    rw [List.extract_eq_take_drop] at hshorter
    exact Nat.le_trans hshorter (List.length_take_le _ _)
  · exact canonical?_of_ok (parseAt_eq_ok_iff.mp h).2.2
  · intro buffer' start' g stop' hg
    have hback' := (parseAt_eq_ok_iff_extract.mp hg).2.2.readsBack
    constructor
    · exact (hback []).eq_of_encode_eq (hback' [])
    · rintro rfl
      rfl

/-- Signs, zeros and a null array are gone after one writing. -/
theorem encode_canonical_looseSpellings :
    let buffer := asciiBytes "+a\r\n*+03\r\n:-007\r\n*-01\r\n$+01\r\n*\r\n:"
    let f := array [integer (-7), null, bulk (asciiBytes "*")]
    let written := asciiBytes "*3\r\n:-7\r\n$-1\r\n$1\r\n*\r\n"
    parseAt buffer 4 = .ok (f, 32) ∧ written.length ≤ 32 - 4 ∧ f.ReadsBack crlf ∧
      canonical? (buffer.drop 4) = some written ∧ canonical? (written ++ crlf) = some written := by
  intro buffer f written
  have hread : parseAt buffer 4 = .ok (f, 32) := rfl
  have hwritten : f.encode = written := by decide +kernel
  obtain ⟨hlength, hback, -, hfirst, hagain, -⟩ := encode_canonical_of_parseAt hread
  rw [← hwritten]
  exact ⟨hread, hlength, hback crlf, hfirst, hagain crlf⟩

end RespServer.Frame
