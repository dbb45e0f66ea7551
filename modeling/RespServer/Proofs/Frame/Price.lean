import RespServer.Proofs.Frame.Grammar

/-!
# The price of a frame

Every wire form pays for the frame it stands for: three bytes for each frame in it, and one
for each byte of its texts and payloads. The shortest wire form of all is an empty line of
text, and it costs just that.
-/

namespace RespServer.Frame

mutual

/-- The number of frames in a frame, itself and all nested ones. -/
def frameCount : Frame → Nat
  | simple _ | error _ | integer _ | bulk _ | null => 1
  | array elements => frameCountAll elements + 1

def frameCountAll : List Frame → Nat
  | [] => 0
  | f :: fs => frameCount f + frameCountAll fs

end

mutual

/-- The total length in bytes of all texts and payloads in a frame. -/
def contentLength : Frame → Nat
  | simple text | error text => text.utf8ByteSize
  | bulk payload => payload.length
  | integer _ | null => 0
  | array elements => contentLengthAll elements

def contentLengthAll : List Frame → Nat
  | [] => 0
  | f :: fs => contentLength f + contentLengthAll fs

end

/-- What a wire form of a frame has to pay. -/
def price (f : Frame) : Nat :=
  3 * f.frameCount + f.contentLength

def priceAll (fs : List Frame) : Nat :=
  3 * frameCountAll fs + contentLengthAll fs

theorem priceAll_cons (f : Frame) (fs : List Frame) :
    priceAll (f :: fs) = f.price + priceAll fs := by
  rw [priceAll, frameCountAll, contentLengthAll, price, priceAll]
  omega

theorem price_array (elements : List Frame) : (array elements).price = priceAll elements + 3 := by
  rw [price, frameCount, contentLength, priceAll]
  omega

/-- No frame is for less than three bytes. -/
theorem three_le_price (f : Frame) : 3 ≤ f.price := by
  cases f with
  | array elements => exact price_array elements ▸ Nat.le_add_left 3 _
  | _ => exact Nat.le_add_right 3 _

/-- A line of text pays for each of its bytes and, with its marker, for a frame. -/
theorem length_line_of_text (text : String) :
    (text.toUTF8.data.toList ++ crlf).length + 1 = text.utf8ByteSize + 3 :=
  congrArg Nat.succ List.length_append

/-- A line with a numeral pays for a frame, its marker included. -/
theorem length_line_of_spells {line : Bytes} {value : Int} (h : Decimal.Spells line value) :
    3 ≤ (line ++ crlf).length := by
  have hpos := List.length_pos_iff.mpr h.ne_nil
  rw [List.length_append, List.length_cons, List.length_singleton]
  omega

mutual

/-- A wire form is at least as long as the price of its frame. -/
theorem Derives.price_le {depth : Nat} {used : Bytes} {f : Frame} :
    Derives depth used f → f.price ≤ used.length
  | .frame _ hbody => hbody.price_le

/-- The marker pays one more byte. -/
theorem DerivesBody.price_le {depth : Nat} {k : Kind} {body : Bytes} {f : Frame} :
    DerivesBody depth k body f → f.price ≤ body.length + 1
  | .simple _ => (Nat.add_comm ..).trans_le (length_line_of_text _).symm.le
  | .error _ => (Nat.add_comm ..).trans_le (length_line_of_text _).symm.le
  | .integer hi => Nat.le_succ_of_le (length_line_of_spells hi.spells)
  | .nullBulk hnull => Nat.le_succ_of_le (length_line_of_spells hnull.spells)
  | .bulk hlength => by
      have hline := length_line_of_spells hlength.spells
      simp only [price, frameCount, contentLength, List.length_append] at hline ⊢
      omega
  | .nullArray hnull => Nat.le_succ_of_le (length_line_of_spells hnull.spells)
  | .array hcount hbody => by
      have hline := length_line_of_spells hcount.spells
      have helements := hbody.priceAll_le
      rw [price_array, List.length_append]
      omega

theorem DerivesAll.priceAll_le {depth : Nat} {used : Bytes} {fs : List Frame} :
    DerivesAll depth used fs → priceAll fs ≤ used.length
  | .nil => Nat.le_refl 0
  | .cons hf hfs => by
      rw [priceAll_cons, List.length_append]
      exact Nat.add_le_add hf.price_le hfs.priceAll_le

end

end RespServer.Frame
