import RespServer.Frame.Printer
import RespServer.Proofs.Frame.Grammar

/-!
# Reading back what was written

A frame is read back from its wire form, whatever follows, unless a text in it holds
a line end or an element lies too deep. In these two cases no bytes at all are read
as the frame, so what is written for it is read as something else or not at all.
-/

namespace RespServer.Frame

/-- A frame holds itself, and what its elements hold one level deeper. -/
inductive Holds : Frame → Nat → Frame → Prop
  | self {f : Frame} : Holds f 0 f
  | element {elements : List Frame} {f g : Frame} {depth : Nat} (hf : f ∈ elements)
      (hg : Holds f depth g) : Holds (array elements) (depth + 1) g

/-- A length or a count is a signed number of 64 bits. -/
def Fits : Frame → Prop
  | bulk payload => payload.length < 2 ^ 63
  | array elements => elements.length < 2 ^ 63
  | _ => True

/-- A text holds no line end. -/
def OneLine : Frame → Prop
  | simple text | error text => ¬ crlf <:+: text.toUTF8.data.toList
  | _ => True

/-- The wire form is read as the frame and used up, whatever follows it. -/
def ReadsBack (f : Frame) (rest : Bytes) : Prop :=
  parseAt (f.encode ++ rest) 0 = .ok (f, f.encode.length)

theorem DerivesAll.exists_derives {depth : Nat} {used : Bytes} {fs : List Frame} {f : Frame}
    (hall : DerivesAll depth used fs) (hf : f ∈ fs) : ∃ used', Derives depth used' f := by
  induction fs generalizing used with
  | nil => cases hf
  | cons g fs ih =>
      cases hall with
      | cons hg hfs =>
          rcases List.mem_cons.mp hf with rfl | hf
          · exact ⟨_, hg⟩
          · exact ih hfs hf

theorem DerivesBody.oneLine {depth : Nat} {k : Kind} {body : Bytes} {f : Frame}
    (hbody : DerivesBody depth k body f) : f.OneLine := by
  cases hbody with
  | simple hline => exact hline
  | error hline => exact hline
  | _ => trivial

/-- A length behind a marker is a numeral. -/
theorem DerivesBody.fits {depth : Nat} {k : Kind} {body : Bytes} {f : Frame}
    (hbody : DerivesBody depth k body f) : f.Fits := by
  cases hbody with
  | bulk hlength => exact Int.ofNat_lt.mp hlength.lt_max
  | array hcount _ => exact Int.ofNat_lt.mp hcount.lt_max
  | _ => trivial

/-- Whatever a frame with a wire form holds has a wire form of its own. -/
theorem Derives.exists_derives {depth inner : Nat} {used : Bytes} {f g : Frame}
    (hf : Derives depth used f) (hg : f.Holds inner g) :
    ∃ used', Derives (depth + inner) used' g := by
  induction hg generalizing depth used with
  | self => exact ⟨used, hf⟩
  | element he _ ih =>
      cases hf with
      | frame _ hbody =>
          cases hbody with
          | array _ hall =>
              obtain ⟨used', hused'⟩ := hall.exists_derives he
              rw [← Nat.add_assoc, Nat.add_right_comm]
              exact ih hused'

/-- Whatever a frame with a wire form holds is within the depths and on one line. -/
theorem Derives.of_holds {depth inner : Nat} {used : Bytes} {f g : Frame}
    (hf : Derives depth used f) (hg : f.Holds inner g) : depth + inner ≤ 512 ∧ g.OneLine := by
  obtain ⟨used', hused'⟩ := hf.exists_derives hg
  cases hused' with
  | frame hdepth hbody => exact ⟨hdepth, hbody.oneLine⟩

/-- All that a frame at a depth holds can be written. -/
def Writable (depth : Nat) (f : Frame) : Prop :=
  ∀ inner g, f.Holds inner g → g.Fits ∧ depth + inner ≤ 512 ∧ g.OneLine

/-- What has a wire form can be written. -/
theorem Derives.writable {depth : Nat} {used : Bytes} {f : Frame} (hf : Derives depth used f) :
    f.Writable depth := by
  intro inner g hg
  obtain ⟨used', hused'⟩ := hf.exists_derives hg
  cases hused' with
  | frame hdepth hbody => exact ⟨hbody.fits, hdepth, hbody.oneLine⟩

theorem Writable.self {depth : Nat} {f : Frame} (h : f.Writable depth) :
    f.Fits ∧ depth ≤ 512 ∧ f.OneLine :=
  h 0 f .self

theorem Writable.element {depth : Nat} {elements : List Frame}
    (h : (array elements).Writable depth) {f : Frame} (hf : f ∈ elements) :
    f.Writable (depth + 1) := by
  intro inner g hg
  have := h (inner + 1) g (.element hf hg)
  rwa [Nat.add_right_comm, Nat.add_assoc]

mutual

/-- What is written for a frame is a wire form of it. -/
theorem Writable.derives_encode {depth : Nat} :
    (f : Frame) → f.Writable depth → Derives depth f.encode f
  | simple text, h => by
      obtain ⟨-, hdepth, hline⟩ := h.self
      rw [encode, line, Utf8.encode_eq_toUTF8]
      exact .of_marker hdepth (.simple hline)
  | error text, h => by
      obtain ⟨-, hdepth, hline⟩ := h.self
      rw [encode, line, Utf8.encode_eq_toUTF8]
      exact .of_marker hdepth (.error hline)
  | integer i, h => by
      rw [encode, line]
      exact .of_marker h.self.2.1 (.integer (Decimal.numeral_ofInt i.le_toInt i.toInt_lt))
  | bulk payload, h => by
      obtain ⟨hfits, hdepth, -⟩ := h.self
      rw [encode, line, List.cons_append, List.cons_append, List.append_assoc _ payload]
      exact .of_marker hdepth (.bulk (Decimal.numeral_ofNat hfits))
  | null, h => by
      rw [encode, line]
      exact .of_marker h.self.2.1 (.nullBulk (Decimal.numeral_ofInt (by decide) (by decide)))
  | array elements, h => by
      obtain ⟨hfits, hdepth, -⟩ := h.self
      rw [encode, line, List.cons_append]
      exact .of_marker hdepth
        (.array (Decimal.numeral_ofNat hfits) (derivesAll_encodeAll elements fun _ => h.element))

theorem Writable.derivesAll_encodeAll {depth : Nat} :
    (fs : List Frame) → (∀ f ∈ fs, f.Writable depth) → DerivesAll depth (encodeAll fs) fs
  | [], _ => .nil
  | f :: fs, h => by
      rw [encodeAll]
      exact .cons (derives_encode f (h f List.mem_cons_self))
        (derivesAll_encodeAll fs fun g hg => h g (List.mem_cons_of_mem f hg))

end

theorem readsBack_iff_derives {f : Frame} {rest : Bytes} :
    f.ReadsBack rest ↔ Derives 0 f.encode f := by
  rw [ReadsBack, parseAt_eq_ok_iff_extract, List.extract_eq_take_drop, List.drop_zero,
    Nat.sub_zero, List.take_left, List.length_append]
  simp only [Nat.zero_le, Nat.le_add_right, true_and]

theorem readsBack_iff {f : Frame} {rest : Bytes} (hfits : ∀ depth g, f.Holds depth g → g.Fits) :
    f.ReadsBack rest ↔ ∀ depth g, f.Holds depth g → depth ≤ 512 ∧ g.OneLine := by
  rw [readsBack_iff_derives]
  constructor
  · intro h depth g hg
    obtain ⟨hdepth, hline⟩ := h.of_holds hg
    exact ⟨by omega, hline⟩
  · intro h
    apply Writable.derives_encode
    intro depth g hg
    obtain ⟨hdepth, hline⟩ := h depth g hg
    exact ⟨hfits depth g hg, by omega, hline⟩

/-- A frame without elements holds nothing but itself. -/
theorem forall_holds_iff {f : Frame} (hf : ∀ elements, f ≠ array elements)
    {P : Nat → Frame → Prop} : (∀ depth g, f.Holds depth g → P depth g) ↔ P 0 f := by
  constructor
  · intro h
    exact h 0 f .self
  · intro h depth g hg
    cases hg with
    | self => exact h
    | element _ _ => exact absurd rfl (hf _)

theorem forall_holds_array_iff {elements : List Frame} {P : Nat → Frame → Prop} :
    (∀ depth g, (array elements).Holds depth g → P depth g) ↔
      P 0 (array elements) ∧ ∀ f ∈ elements, ∀ depth g, f.Holds depth g → P (depth + 1) g := by
  constructor
  · intro h
    exact ⟨h 0 _ .self, fun f hf depth g hg => h (depth + 1) g (.element hf hg)⟩
  · rintro ⟨hself, helements⟩ depth g hg
    cases hg with
    | self => exact hself
    | element hf hg => exact helements _ hf _ _ hg

theorem readsBack_of_oneLine {f : Frame} {rest : Bytes} (hf : ∀ elements, f ≠ array elements)
    (hfits : f.Fits) (hline : f.OneLine) : f.ReadsBack rest := by
  apply (readsBack_iff ((forall_holds_iff hf).mpr hfits)).mpr
  exact (forall_holds_iff hf).mpr ⟨Nat.zero_le _, hline⟩

/-- A carriage return at the end of a text is no part of a line end in it. -/
theorem not_crlf_infix_concat {line : Bytes} (h : ¬ crlf <:+: line) :
    ¬ crlf <:+: line ++ [carriageReturn] := by
  rw [List.infix_concat_iff, not_or]
  refine ⟨?_, h⟩
  rintro ⟨front, hfront⟩
  have hlast : lineFeed = carriageReturn := by
    simpa [List.getLast?_append] using congrArg List.getLast? hfront
  exact absurd hlast (by decide)

theorem toUTF8_append_carriageReturn (text : String) :
    (text ++ "\r").toUTF8.data.toList = text.toUTF8.data.toList ++ [carriageReturn] := by
  rw [← Utf8.encode_eq_toUTF8, ← Utf8.encode_eq_toUTF8, Utf8.encode, String.toList_append,
    List.flatMap_append]
  rfl

/-- Frames with lengths and counts of 64 bits are read back exactly if they hold no text
with a line end in it and no element deeper than 512. A lone carriage return or line feed
in a text, one at its end, and any bytes of a payload do no harm. -/
theorem readsBack_iff_oneLine (rest : Bytes) :
    (∀ f : Frame, (∀ depth g, f.Holds depth g → g.Fits) →
      (f.ReadsBack rest ↔ ∀ depth g, f.Holds depth g → depth ≤ 512 ∧ g.OneLine)) ∧
    (∀ text : String, ¬ crlf <:+: text.toUTF8.data.toList →
      ∀ f ∈ [simple text, error text, simple (text ++ "\r"), error (text ++ "\r")],
        f.ReadsBack rest) ∧
    (∀ payload : Bytes, payload.length < 2 ^ 63 → (bulk payload).ReadsBack rest) := by
  refine ⟨fun f => readsBack_iff, ?_, ?_⟩
  · intro text hline f hf
    have hend := not_crlf_infix_concat hline
    rw [← toUTF8_append_carriageReturn] at hend
    simp only [List.mem_cons, List.not_mem_nil, or_false] at hf
    rcases hf with rfl | rfl | rfl | rfl
    · exact readsBack_of_oneLine nofun trivial hline
    · exact readsBack_of_oneLine nofun trivial hline
    · exact readsBack_of_oneLine nofun trivial hend
    · exact readsBack_of_oneLine nofun trivial hend
  · intro payload hlength
    exact readsBack_of_oneLine nofun hlength trivial

/-- Stray bytes of a line end are read back where a line end is not. -/
theorem readsBack_strayBreaks :
    (∀ depth g, (array [simple "a\rb\nc\r", bulk crlf, array [integer (-7)]]).Holds depth g →
        g.Fits) ∧
      (array [simple "a\rb\nc\r", bulk crlf, array [integer (-7)]]).ReadsBack crlf ∧
      ¬ crlf <:+: "b\nc".toUTF8.data.toList ∧ (error ("b\nc" ++ "\r")).ReadsBack crlf ∧
      crlf.length < 2 ^ 63 ∧ (bulk crlf).ReadsBack crlf ∧
      (∀ depth g, (array [null, error "b\r\nc"]).Holds depth g → g.Fits) ∧
      ¬ (array [null, error "b\r\nc"]).ReadsBack crlf := by
  obtain ⟨hframes, htexts, hpayloads⟩ := readsBack_iff_oneLine crlf
  have hstray : ∀ depth g,
      (array [simple "a\rb\nc\r", bulk crlf, array [integer (-7)]]).Holds depth g → g.Fits := by
    simp [forall_holds_array_iff, forall_holds_iff, Fits]
  have hbreak : ∀ depth g, (array [null, error "b\r\nc"]).Holds depth g → g.Fits := by
    simp [forall_holds_array_iff, forall_holds_iff, Fits]
  have hline : ¬ crlf <:+: "b\nc".toUTF8.data.toList := by decide
  have hmixed : ¬ crlf <:+: "a\rb\nc\r".toUTF8.data.toList := by decide
  have hbroken : crlf <:+: "b\r\nc".toUTF8.data.toList := by decide
  refine ⟨hstray, (hframes _ hstray).mpr ?_, hline, htexts _ hline _ (by simp), by decide,
    hpayloads _ (by decide), hbreak, ?_⟩
  · simpa [forall_holds_array_iff, forall_holds_iff, OneLine] using hmixed
  · intro hback
    have herror : Holds (array [null, error "b\r\nc"]) 1 (error "b\r\nc") :=
      .element (by simp) .self
    exact ((hframes _ hbreak).mp hback 1 _ herror).2 hbroken

end RespServer.Frame
