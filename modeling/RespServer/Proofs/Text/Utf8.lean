import Mathlib.Algebra.Ring.Nat
import Mathlib.Data.List.Basic
import RespServer.Text.Utf8

/-!
# Texts in UTF-8

The strict reader accepts the bytes of a text and nothing else: `decode?` is the
inverse of `encode`, which is the encoding of the standard library. A character
outside ASCII is a leading byte, which starts a sequence, and the bytes behind it
that the sequence admits.
-/

namespace RespServer.Utf8

theorem toNat_char_ofNat {n : Nat} (h : n.isValidChar) : (Char.ofNat n).toNat = n := by
  rw [Char.ofNat, dif_pos h]
  rfl

theorem toNat_ofNat_of_lt {n : Nat} (h : n < 256) : (UInt8.ofNat n).toNat = n := by
  rw [UInt8.toNat_ofNat', Nat.mod_eq_of_lt h]

theorem encodeChar_eq_utf8EncodeChar (c : Char) : encodeChar c = String.utf8EncodeChar c := by
  have hvalid : c.toNat < 0xD800 ∨ (0xDFFF < c.toNat ∧ c.toNat < 0x110000) := c.valid
  simp only [encodeChar, String.utf8EncodeChar, Char.toNat] at hvalid ⊢
  split_ifs
  any_goals omega
  · rfl
  · simp only [List.cons.injEq, and_true]
    refine ⟨congrArg UInt8.ofNat ?_, congrArg UInt8.ofNat ?_⟩ <;> omega
  · simp only [List.cons.injEq, and_true]
    refine ⟨congrArg UInt8.ofNat ?_, congrArg UInt8.ofNat ?_, congrArg UInt8.ofNat ?_⟩ <;> omega
  · simp only [List.cons.injEq, and_true]
    refine ⟨congrArg UInt8.ofNat ?_, congrArg UInt8.ofNat ?_, congrArg UInt8.ofNat ?_,
      congrArg UInt8.ofNat ?_⟩ <;> omega

/-- The bytes of a text are those that the text itself is made of. -/
theorem encode_eq_toUTF8 (text : String) : encode text = text.toUTF8.data.toList := by
  have hchar : encodeChar = String.utf8EncodeChar := funext encodeChar_eq_utf8EncodeChar
  rw [encode, hchar, String.toUTF8_eq_toByteArray, ← String.utf8Encode_toList, List.utf8Encode]
  simp

/-- A byte of the ASCII range is the encoding of its own character. -/
theorem toNat_eq_of_mem_encodeChar {c : Char} {b : UInt8} (h : b ∈ encodeChar c)
    (hb : b.toNat < 0x80) : b.toNat = c.toNat := by
  have hvalid : c.toNat < 0xD800 ∨ (0xDFFF < c.toNat ∧ c.toNat < 0x110000) := c.valid
  simp only [encodeChar] at h
  split_ifs at h with h80
  · rw [List.mem_singleton.mp h, toNat_ofNat_of_lt (by omega)]
  -- The bytes of a longer character are all outside of the range.
  all_goals
    simp only [List.mem_cons, List.not_mem_nil, or_false] at h
    rcases h with rfl | rfl | rfl | rfl <;> rw [toNat_ofNat_of_lt (by omega)] at hb <;> omega

/-- The last `k` bytes of a longer character of number `n`, six bits in each. -/
def continuation : Nat → Nat → Bytes
  | 0, _ => []
  | k + 1, n => UInt8.ofNat (0x80 + n / 64 ^ k % 64) :: continuation k n

theorem continuation_succ (k n : Nat) :
    continuation (k + 1) n = UInt8.ofNat (0x80 + n / 64 ^ k % 64) :: continuation k n := rfl

/-- The sequence can go on to the character of number `n`. -/
structure Pending.Admits (p : Pending) (n : Nat) : Prop where
  bits_eq : n / 64 ^ (p.after + 1) = p.bits
  low_le : p.low ≤ 0x80 + n / 64 ^ p.after % 64
  le_high : 0x80 + n / 64 ^ p.after % 64 ≤ p.high

/-- What a leading byte admits are characters that begin with it. -/
theorem encodeChar_of_admits {b : UInt8} {p : Pending} (hp : Pending.ofLead? b.toNat = some p)
    {n : Nat} (hn : p.Admits n) :
    n.isValidChar ∧ encodeChar (Char.ofNat n) = b :: continuation (p.after + 1) n := by
  obtain ⟨hbits, hlow, hhigh⟩ := hn
  rw [Pending.ofLead?] at hp
  split at hp
  · next hb =>
      obtain rfl := Option.some.inj hp
      simp only at hbits hlow hhigh
      have hvalid : n.isValidChar := Or.inl (by omega)
      have h80 : ¬ n < 0x80 := by omega
      have h800 : n < 0x800 := by omega
      have hlead : 0xC0 + n / 64 = b.toNat := by omega
      refine ⟨hvalid, ?_⟩
      simp only [encodeChar, toNat_char_ofNat hvalid, if_neg h80, if_pos h800, hlead,
        UInt8.ofNat_toNat, continuation, Nat.pow_zero, Nat.div_one]
  split at hp
  · next hb =>
      obtain rfl := Option.some.inj hp
      simp only at hbits hlow hhigh
      have hvalid : n.isValidChar := by
        rw [Nat.isValidChar]
        split at hhigh <;> omega
      have h800 : ¬ n < 0x800 := by
        split at hlow <;> omega
      have h80 : ¬ n < 0x80 := by omega
      have h10000 : n < 0x10000 := by omega
      have hlead : 0xE0 + n / 4096 = b.toNat := by omega
      refine ⟨hvalid, ?_⟩
      simp only [encodeChar, toNat_char_ofNat hvalid, if_neg h80, if_neg h800, if_pos h10000, hlead,
        UInt8.ofNat_toNat, continuation, Nat.pow_zero, Nat.div_one, Nat.pow_one]
  split at hp
  · next hb =>
      obtain rfl := Option.some.inj hp
      simp only at hbits hlow hhigh
      have hvalid : n.isValidChar := by
        rw [Nat.isValidChar]
        split at hlow <;> split at hhigh <;> omega
      have h10000 : ¬ n < 0x10000 := by
        split at hlow <;> omega
      have h800 : ¬ n < 0x800 := by omega
      have h80 : ¬ n < 0x80 := by omega
      have hlead : 0xF0 + n / 262144 = b.toNat := by omega
      refine ⟨hvalid, ?_⟩
      simp only [encodeChar, toNat_char_ofNat hvalid, if_neg h80, if_neg h800, if_neg h10000, hlead,
        UInt8.ofNat_toNat, continuation, Nat.pow_zero, Nat.div_one, Nat.pow_one, Nat.reducePow]
  · cases hp

/-- Every character outside ASCII is admitted behind some leading byte. -/
theorem exists_lead {n : Nat} (hvalid : n.isValidChar) (h80 : ¬ n < 0x80) :
    ∃ (b : UInt8) (p : Pending), ¬ b.toNat < 0x80 ∧ Pending.ofLead? b.toNat = some p ∧
      p.Admits n := by
  rw [Nat.isValidChar] at hvalid
  by_cases h800 : n < 0x800
  · have hb : (UInt8.ofNat (0xC0 + n / 64)).toNat = 0xC0 + n / 64 := toNat_ofNat_of_lt (by omega)
    refine ⟨UInt8.ofNat (0xC0 + n / 64), _, by omega,
      (congrArg Pending.ofLead? hb).trans (if_pos (by omega)), ?_⟩
    constructor <;> simp only <;> omega
  by_cases h10000 : n < 0x10000
  · have hb : (UInt8.ofNat (0xE0 + n / 4096)).toNat = 0xE0 + n / 4096 :=
      toNat_ofNat_of_lt (by omega)
    refine ⟨UInt8.ofNat (0xE0 + n / 4096), _, by omega,
      (congrArg Pending.ofLead? hb).trans ((if_neg (by omega)).trans (if_pos (by omega))), ?_⟩
    constructor <;> simp only
    · omega
    · split <;> omega
    · split <;> omega
  · have hb : (UInt8.ofNat (0xF0 + n / 262144)).toNat = 0xF0 + n / 262144 :=
      toNat_ofNat_of_lt (by omega)
    refine ⟨UInt8.ofNat (0xF0 + n / 262144), _, by omega,
      (congrArg Pending.ofLead? hb).trans
        ((if_neg (by omega)).trans ((if_neg (by omega)).trans (if_pos (by omega)))), ?_⟩
    constructor <;> simp only
    · omega
    · split <;> omega
    · split <;> omega

section Feed

variable {read : List (Option Char)} {b : UInt8} {p : Pending}

theorem feed_ascii (h : b.toNat < 0x80) :
    Scanner.feed ⟨read, none⟩ b = ⟨some (Char.ofNat b.toNat) :: read, none⟩ := by
  simp only [Scanner.feed, Scanner.start, if_pos h]

theorem feed_lead (h80 : ¬ b.toNat < 0x80) (h : Pending.ofLead? b.toNat = some p) :
    Scanner.feed ⟨read, none⟩ b = ⟨read, some p⟩ := by
  simp only [Scanner.feed, Scanner.start, if_neg h80, h]

theorem feed_last {bits low high : Nat} (h : low ≤ b.toNat ∧ b.toNat ≤ high) :
    Scanner.feed ⟨read, some ⟨bits, 0, low, high⟩⟩ b =
      ⟨some (Char.ofNat (bits * 64 + (b.toNat - 0x80))) :: read, none⟩ := by
  simp only [Scanner.feed, if_pos h]

theorem feed_continuation {bits after low high : Nat} (h : low ≤ b.toNat ∧ b.toNat ≤ high) :
    Scanner.feed ⟨read, some ⟨bits, after + 1, low, high⟩⟩ b =
      ⟨read, some ⟨bits * 64 + (b.toNat - 0x80), after, 0x80, 0xBF⟩⟩ := by
  simp only [Scanner.feed, if_pos h]

theorem feed_refused {bits after low high : Nat} (h : ¬ (low ≤ b.toNat ∧ b.toNat ≤ high)) :
    Scanner.feed ⟨read, some ⟨bits, after, low, high⟩⟩ b =
      Scanner.start (none :: read) b.toNat := by
  simp only [Scanner.feed, if_neg h]

end Feed

/-- The number of a character, split behind its first six bits. -/
theorem eq_div_mul_add (n k : Nat) : n / 64 ^ k = n / 64 ^ (k + 1) * 64 + n / 64 ^ k % 64 := by
  rw [Nat.pow_succ, ← Nat.div_div_eq_div_mul]
  omega

theorem foldl_feed_continuation (read : List (Option Char)) {p : Pending} {n : Nat}
    (hn : p.Admits n) :
    (continuation (p.after + 1) n).foldl Scanner.feed ⟨read, some p⟩ =
      ⟨some (Char.ofNat n) :: read, none⟩ := by
  obtain ⟨bits, after, low, high⟩ := p
  obtain ⟨hbits, hlow, hhigh⟩ := hn
  simp only at hbits hlow hhigh ⊢
  induction after generalizing bits low high with
  | zero =>
      have hb : (UInt8.ofNat (0x80 + n / 64 ^ 0 % 64)).toNat = 0x80 + n / 64 ^ 0 % 64 :=
        toNat_ofNat_of_lt (by omega)
      have hsum := eq_div_mul_add n 0
      rw [continuation_succ, continuation, List.foldl_cons, feed_last (by omega), List.foldl_nil,
        hb, ← hbits, Nat.add_sub_cancel_left, ← hsum, Nat.pow_zero, Nat.div_one]
  | succ k ih =>
      have hb : (UInt8.ofNat (0x80 + n / 64 ^ (k + 1) % 64)).toNat =
          0x80 + n / 64 ^ (k + 1) % 64 := toNat_ofNat_of_lt (by omega)
      have hsum := eq_div_mul_add n (k + 1)
      rw [continuation_succ, List.foldl_cons, feed_continuation (by omega), hb, ← hbits,
        Nat.add_sub_cancel_left, ← hsum]
      exact ih (n / 64 ^ (k + 1)) 0x80 0xBF rfl (by omega) (by omega)

/-- Scanning the bytes of a character reads that character. -/
theorem foldl_feed_encodeChar (read : List (Option Char)) (c : Char) :
    (encodeChar c).foldl Scanner.feed ⟨read, none⟩ = ⟨some c :: read, none⟩ := by
  by_cases h80 : c.toNat < 0x80
  · have hb : (UInt8.ofNat c.toNat).toNat = c.toNat := toNat_ofNat_of_lt (by omega)
    rw [encodeChar, if_pos h80, List.foldl_cons, feed_ascii (by omega), List.foldl_nil, hb,
      Char.ofNat_toNat]
  · obtain ⟨b, p, hb, hlead, hadmits⟩ := exists_lead c.valid h80
    have hchar := (encodeChar_of_admits hlead hadmits).2
    change encodeChar (Char.ofNat c.toNat) = _ at hchar
    rw [Char.ofNat_toNat] at hchar
    rw [hchar, List.foldl_cons, feed_lead hb hlead, foldl_feed_continuation read hadmits]
    exact congrArg (fun c => Scanner.mk (some c :: read) none) c.ofNat_toNat

theorem foldl_feed_flatMap (read : List (Option Char)) (cs : List Char) :
    (cs.flatMap encodeChar).foldl Scanner.feed ⟨read, none⟩ =
      ⟨(cs.map some).reverse ++ read, none⟩ := by
  induction cs generalizing read with
  | nil => rfl
  | cons c cs ih =>
      rw [List.flatMap_cons, List.foldl_append, foldl_feed_encodeChar, ih, List.map_cons,
        List.reverse_cons, List.append_assoc, List.singleton_append]

theorem mapM_id_eq_some_iff {marks : List (Option Char)} {cs : List Char} :
    marks.mapM id = some cs ↔ marks = cs.map some := by
  induction marks generalizing cs with
  | nil => cases cs <;> simp
  | cons mark marks ih =>
      rw [List.mapM_cons]
      cases mark with
      | none => cases cs <;> simp
      | some c =>
          cases cs with
          | nil => simp [Option.bind_eq_some_iff]
          | cons d ds => simp [Option.bind_eq_some_iff, ← ih, and_comm]

theorem decode?_eq_some_iff_scan {bytes : Bytes} {text : String} :
    decode? bytes = some text ↔ scan bytes = text.toList.map some := by
  rw [decode?, Option.map_eq_some_iff, ← mapM_id_eq_some_iff]
  constructor
  · rintro ⟨cs, hcs, rfl⟩
    rw [hcs, String.toList_ofList]
  · intro h
    exact ⟨text.toList, h, String.ofList_toList⟩

theorem mem_read_start {read : List (Option Char)} {mark : Option Char} (h : mark ∈ read)
    (n : Nat) : mark ∈ (Scanner.start read n).read := by
  unfold Scanner.start
  split
  · exact List.mem_cons_of_mem _ h
  · split
    · exact h
    · exact List.mem_cons_of_mem _ h

theorem mem_read_feed {s : Scanner} {mark : Option Char} (h : mark ∈ s.read) (b : UInt8) :
    mark ∈ (s.feed b).read := by
  obtain ⟨read, _ | ⟨bits, after, low, high⟩⟩ := s
  · exact mem_read_start h b.toNat
  · by_cases hb : low ≤ b.toNat ∧ b.toNat ≤ high
    · cases after with
      | zero =>
          rw [feed_last hb]
          exact List.mem_cons_of_mem _ h
      | succ after =>
          rw [feed_continuation hb]
          exact h
    · rw [feed_refused hb]
      exact mem_read_start (List.mem_cons_of_mem none h) b.toNat

/-- What has been read stays in the reading. -/
theorem mem_finish_foldl_feed {s : Scanner} {mark : Option Char} (h : mark ∈ s.read)
    (bytes : Bytes) : mark ∈ (bytes.foldl Scanner.feed s).finish := by
  induction bytes generalizing s with
  | nil =>
      rw [List.foldl_nil, Scanner.finish]
      split
      · exact List.mem_reverse.mpr h
      · exact List.mem_reverse.mpr (List.mem_cons_of_mem none h)
  | cons b bytes ih => exact ih (mem_read_feed h b)

theorem ofLead?_bounds {n : Nat} {p : Pending} (h : Pending.ofLead? n = some p) :
    0x80 ≤ p.low ∧ p.high ≤ 0xBF := by
  rw [Pending.ofLead?] at h
  split at h
  · obtain rfl := Option.some.inj h
    exact ⟨Nat.le_refl _, Nat.le_refl _⟩
  split at h
  · obtain rfl := Option.some.inj h
    constructor <;> simp only <;> split <;> omega
  split at h
  · obtain rfl := Option.some.inj h
    constructor <;> simp only <;> split <;> omega
  · cases h

/-- A started sequence that leaves no mark goes on to a character it admits. -/
theorem exists_admits_of_finish {read : List (Option Char)} {p : Pending} {bytes : Bytes}
    (hlow : 0x80 ≤ p.low) (hhigh : p.high ≤ 0xBF)
    (h : none ∉ (bytes.foldl Scanner.feed ⟨read, some p⟩).finish) :
    ∃ n rest, p.Admits n ∧ bytes = continuation (p.after + 1) n ++ rest := by
  obtain ⟨bits, after, low, high⟩ := p
  simp only at hlow hhigh ⊢
  induction after generalizing bits low high bytes with
  | zero =>
      cases bytes with
      | nil => simp [Scanner.finish] at h
      | cons b bytes =>
          rw [List.foldl_cons] at h
          by_cases hb : low ≤ b.toNat ∧ b.toNat ≤ high
          · have hmod : (bits * 64 + (b.toNat - 0x80)) % 64 = b.toNat - 0x80 := by omega
            have hsum : 0x80 + (b.toNat - 0x80) = b.toNat := by omega
            refine ⟨bits * 64 + (b.toNat - 0x80), bytes, ⟨?_, ?_, ?_⟩, ?_⟩
            · simp only
              omega
            · simp only [Nat.pow_zero, Nat.div_one, hmod]
              omega
            · simp only [Nat.pow_zero, Nat.div_one, hmod]
              omega
            · simp only [continuation, Nat.pow_zero, Nat.div_one, hmod, hsum, UInt8.ofNat_toNat,
                List.singleton_append]
          · rw [feed_refused hb] at h
            exact absurd (mem_finish_foldl_feed (mem_read_start List.mem_cons_self _) bytes) h
  | succ k ih =>
      cases bytes with
      | nil => simp [Scanner.finish] at h
      | cons b bytes =>
          rw [List.foldl_cons] at h
          by_cases hb : low ≤ b.toNat ∧ b.toNat ≤ high
          · rw [feed_continuation hb] at h
            obtain ⟨n, rest, ⟨hbits, -, -⟩, rfl⟩ := ih _ _ _ (Nat.le_refl _) (Nat.le_refl _) h
            have hmod : n / 64 ^ (k + 1) % 64 = b.toNat - 0x80 := by
              simp only at hbits
              omega
            have hsum : 0x80 + (b.toNat - 0x80) = b.toNat := by omega
            have hdiv := eq_div_mul_add n (k + 1)
            refine ⟨n, rest, ⟨?_, ?_, ?_⟩, ?_⟩
            · simp only at hbits ⊢
              omega
            · simp only [hmod]
              omega
            · simp only [hmod]
              omega
            · rw [continuation_succ (k + 1), hmod, hsum, UInt8.ofNat_toNat, List.cons_append]
          · rw [feed_refused hb] at h
            exact absurd (mem_finish_foldl_feed (mem_read_start List.mem_cons_self _) bytes) h

/-- A reading without a mark begins with a character. -/
theorem exists_encodeChar_append {read : List (Option Char)} {b : UInt8} {bytes : Bytes}
    (h : none ∉ ((b :: bytes).foldl Scanner.feed ⟨read, none⟩).finish) :
    ∃ c rest, b :: bytes = encodeChar c ++ rest := by
  rw [List.foldl_cons] at h
  by_cases h80 : b.toNat < 0x80
  · have hchar : encodeChar (Char.ofNat b.toNat) = [b] := by
      have hvalid : b.toNat.isValidChar := Or.inl (by omega)
      rw [encodeChar, toNat_char_ofNat hvalid, if_pos h80, UInt8.ofNat_toNat]
    exact ⟨Char.ofNat b.toNat, bytes, by rw [hchar, List.singleton_append]⟩
  · cases hlead : Pending.ofLead? b.toNat with
    | none =>
        refine absurd (mem_finish_foldl_feed ?_ bytes) h
        simp only [Scanner.feed, Scanner.start, if_neg h80, hlead, List.mem_cons_self]
    | some p =>
        obtain ⟨hlow, hhigh⟩ := ofLead?_bounds hlead
        rw [feed_lead h80 hlead] at h
        obtain ⟨n, rest, hadmits, rfl⟩ := exists_admits_of_finish hlow hhigh h
        exact ⟨Char.ofNat n, rest, by
          rw [(encodeChar_of_admits hlead hadmits).2, List.cons_append]⟩

theorem encodeChar_ne_nil (c : Char) : encodeChar c ≠ [] := by
  rw [encodeChar_eq_utf8EncodeChar]
  exact String.utf8EncodeChar_ne_nil

/-- A reading without a mark is one of whole characters. -/
theorem exists_flatMap_of_finish {read : List (Option Char)} {bytes : Bytes}
    (h : none ∉ (bytes.foldl Scanner.feed ⟨read, none⟩).finish) :
    ∃ cs : List Char, bytes = cs.flatMap encodeChar := by
  induction hn : bytes.length using Nat.strongRecOn generalizing read bytes with
  | ind n ih =>
      cases bytes with
      | nil => exact ⟨[], rfl⟩
      | cons b bytes =>
          obtain ⟨c, rest, hsplit⟩ := exists_encodeChar_append h
          have hlt : rest.length < n := by
            have hpos := List.length_pos_iff.mpr (encodeChar_ne_nil c)
            rw [← hn, hsplit, List.length_append]
            omega
          rw [hsplit, List.foldl_append, foldl_feed_encodeChar] at h
          obtain ⟨cs, rfl⟩ := ih rest.length hlt h rfl
          exact ⟨c :: cs, by rw [hsplit, List.flatMap_cons]⟩

theorem scan_encode (text : String) : scan (encode text) = text.toList.map some := by
  rw [scan, encode, foldl_feed_flatMap, Scanner.finish, List.append_nil, List.reverse_reverse]

/-- The strict reader undoes `encode` and accepts nothing else. -/
theorem decode?_eq_some_iff {bytes : Bytes} {text : String} :
    decode? bytes = some text ↔ bytes = encode text := by
  rw [decode?_eq_some_iff_scan]
  constructor
  · intro h
    have hmark : none ∉ scan bytes := by
      rw [h]
      simp
    obtain ⟨cs, rfl⟩ := exists_flatMap_of_finish hmark
    have hcs := scan_encode (String.ofList cs)
    rw [encode, String.toList_ofList, h] at hcs
    rw [encode, List.map_inj_right (fun _ _ => Option.some.inj) |>.mp hcs]
  · rintro rfl
    exact scan_encode text

end RespServer.Utf8
