import Mathlib.Data.List.Infix
import RespServer.Proofs.Frame.Steady
import RespServer.Proofs.Text.Decimal
import RespServer.Proofs.Text.Utf8

/-!
# What the readers accept

Each reader of a part of a frame accepts one form of bytes and nothing else, and
takes exactly those bytes: a line without a line end inside, a line of text, a
line with a numeral, a payload of known length with a line end behind it.
-/

namespace RespServer.Frame

open RespServer.Decimal (Numeral)

variable {α β : Type}

theorem Parsed.andThen_eq_ok_iff {p : Parsed α} {next : α → Bytes → Parsed β} {value : β}
    {rest : Bytes} :
    p.andThen next = .ok (value, rest) ↔
      ∃ first middle, p = .ok (first, middle) ∧ next first middle = .ok (value, rest) := by
  cases p with
  | error e => simp [Parsed.andThen]
  | ok split =>
      obtain ⟨first, middle⟩ := split
      simp [Parsed.andThen]

theorem Parsed.as_eq_ok_iff {p : Parsed α} {make : α → Frame} {f : Frame} {rest : Bytes} :
    p.as make = .ok (f, rest) ↔ ∃ value, p = .ok (value, rest) ∧ f = make value := by
  constructor
  · exact Parsed.exists_of_as
  · rintro ⟨value, rfl, rfl⟩
    rfl

theorem crlf_prefix_cons_iff {b : UInt8} {bytes : Bytes} :
    crlf <+: b :: bytes ↔ b = carriageReturn ∧ bytes.head? = some lineFeed := by
  rw [List.cons_prefix_cons, eq_comm]
  apply and_congr_right
  intro
  cases bytes with
  | nil => simp
  | cons c bytes => rw [List.cons_prefix_cons, List.head?_cons, Option.some.injEq, eq_comm]; simp

/-- The first line end is the one behind bytes that hold none. -/
theorem splitLineFrom_eq_some_iff {front bytes line rest : Bytes} :
    splitLineFrom front bytes = some (line, rest) ↔
      ∃ content, line = front.reverse ++ content ∧ bytes = content ++ (crlf ++ rest) ∧
        ¬ crlf <:+: content := by
  induction bytes generalizing front with
  | nil =>
      constructor
      · intro h
        cases h
      · rintro ⟨content, -, hbytes, -⟩
        exact absurd (congrArg List.length hbytes) (by simp)
  | cons b bytes ih =>
      rw [splitLineFrom_cons]
      by_cases hend : crlf <+: b :: bytes
      · rw [if_pos (crlf_prefix_cons_iff.mp hend)]
        obtain ⟨tail, htail⟩ := hend
        cases htail
        constructor
        · intro h
          cases h
          exact ⟨[], (List.append_nil _).symm, rfl, by simp⟩
        · rintro ⟨content, rfl, hbytes, hnone⟩
          -- a longer content would begin with the line end itself
          match content with
          | [] =>
              cases hbytes
              rw [List.append_nil]
              rfl
          | [c] => cases hbytes
          | c :: d :: content =>
              cases hbytes
              exact absurd (List.prefix_append crlf content).isInfix hnone
      · rw [if_neg (mt crlf_prefix_cons_iff.mpr hend), ih]
        constructor
        · rintro ⟨content, rfl, rfl, hnone⟩
          refine ⟨b :: content, by simp, rfl, ?_⟩
          rw [List.infix_cons_iff, not_or]
          refine ⟨?_, hnone⟩
          intro hbegin
          exact hend (hbegin.trans (List.prefix_append (b :: content) (crlf ++ rest)))
        · rintro ⟨content, rfl, hbytes, hnone⟩
          cases content with
          | nil => exact absurd ⟨rest, hbytes.symm⟩ hend
          | cons c content =>
              cases hbytes
              rw [List.infix_cons_iff, not_or] at hnone
              exact ⟨content, by simp, rfl, hnone.2⟩

theorem readLine_eq_ok_iff {bytes line rest : Bytes} :
    readLine bytes = .ok (line, rest) ↔ bytes = line ++ (crlf ++ rest) ∧ ¬ crlf <:+: line := by
  have hsplit : readLine bytes = .ok (line, rest) ↔ splitLine bytes = some (line, rest) := by
    rw [readLine]
    cases splitLine bytes <;> simp
  rw [hsplit, splitLine, splitLineFrom_eq_some_iff]
  constructor
  · rintro ⟨content, rfl, hbytes, hnone⟩
    exact ⟨hbytes, hnone⟩
  · rintro ⟨hbytes, hnone⟩
    exact ⟨line, rfl, hbytes, hnone⟩

theorem readText_eq_ok_iff {bytes rest : Bytes} {text : String} :
    readText bytes = .ok (text, rest) ↔
      bytes = Utf8.encode text ++ (crlf ++ rest) ∧ ¬ crlf <:+: Utf8.encode text := by
  rw [readText_eq, Parsed.andThen_eq_ok_iff]
  constructor
  · rintro ⟨line, middle, hline, htext⟩
    cases hdecode : Utf8.decode? line with
    | none =>
        rw [hdecode] at htext
        cases htext
    | some text' =>
        rw [hdecode] at htext
        cases htext
        rw [← Utf8.decode?_eq_some_iff.mp hdecode]
        exact readLine_eq_ok_iff.mp hline
  · intro h
    refine ⟨Utf8.encode text, rest, readLine_eq_ok_iff.mpr h, ?_⟩
    rw [Utf8.decode?_eq_some_iff.mpr rfl]

/-- No line end lies within a numeral. -/
theorem not_crlf_infix_of_numeral {line : Bytes} {value : Int} (h : Numeral line value) :
    ¬ crlf <:+: line :=
  fun hwithin => h.spells.carriageReturn_notMem (hwithin.subset List.mem_cons_self)

theorem readInteger_eq_ok_iff {invalid : ParseError} {bytes rest : Bytes} {i : Int64} :
    readInteger invalid bytes = .ok (i, rest) ↔
      ∃ line, bytes = line ++ (crlf ++ rest) ∧ Numeral line i.toInt := by
  rw [readInteger_eq, Parsed.andThen_eq_ok_iff]
  constructor
  · rintro ⟨line, middle, hline, hvalue⟩
    cases hread : Decimal.readInt64 line with
    | error e =>
        rw [hread] at hvalue
        cases hvalue
    | ok j =>
        rw [hread] at hvalue
        cases hvalue
        exact ⟨line, (readLine_eq_ok_iff.mp hline).1, Decimal.readInt64_eq_ok_iff.mp hread⟩
  · rintro ⟨line, hbytes, hnumeral⟩
    refine ⟨line, rest, readLine_eq_ok_iff.mpr ⟨hbytes, not_crlf_infix_of_numeral hnumeral⟩, ?_⟩
    rw [Decimal.readInt64_eq_ok_iff.mpr hnumeral]

/-- The number that announces a length, or null. -/
def announced : Option Nat → Int
  | none => -1
  | some length => length

theorem toInt_eq_neg_one_iff {i : Int64} : i.toInt = -1 ↔ i = -1 :=
  Int64.toInt_inj (y := -1)

/-- Of the numbers only -1 and those not below zero announce anything. -/
theorem checkLength_eq_ok_iff {i : Int64} {middle rest : Bytes} {length : Option Nat} :
    (if i = -1 then .ok (none, middle)
      else if i.toInt < 0 then .error .invalidLength
      else .ok (some i.toInt.toNat, middle) : Parsed (Option Nat)) = .ok (length, rest) ↔
        i.toInt = announced length ∧ middle = rest := by
  split
  · next hnull =>
      have hi := toInt_eq_neg_one_iff.mpr hnull
      constructor
      · intro h
        cases h
        exact ⟨hi, rfl⟩
      · rintro ⟨h, rfl⟩
        cases length with
        | none => rfl
        | some n =>
            rw [announced] at h
            omega
  · next hnull =>
      have hi := mt toInt_eq_neg_one_iff.mp hnull
      split
      · next hneg =>
          constructor
          · intro h
            cases h
          · rintro ⟨h, rfl⟩
            cases length with
            | none => exact absurd h hi
            | some n =>
                rw [announced] at h
                omega
      · next hpos =>
          constructor
          · intro h
            cases h
            exact ⟨(Int.toNat_of_nonneg (Int.not_lt.mp hpos)).symm, rfl⟩
          · rintro ⟨h, rfl⟩
            cases length with
            | none => exact absurd h hi
            | some n => rw [h, announced, Int.toNat_natCast]

theorem readLength_eq_ok_iff {bytes rest : Bytes} {length : Option Nat} :
    readLength bytes = .ok (length, rest) ↔
      ∃ line, bytes = line ++ (crlf ++ rest) ∧ Numeral line (announced length) := by
  rw [readLength_eq, Parsed.andThen_eq_ok_iff]
  constructor
  · rintro ⟨i, middle, hinteger, hlength⟩
    obtain ⟨hi, rfl⟩ := checkLength_eq_ok_iff.mp hlength
    rw [← hi]
    exact readInteger_eq_ok_iff.mp hinteger
  · rintro ⟨line, hbytes, hnumeral⟩
    have hi := Int64.toInt_ofInt_of_le hnumeral.ge_min hnumeral.lt_max
    refine ⟨Int64.ofInt (announced length), rest, ?_, checkLength_eq_ok_iff.mpr ⟨hi, rfl⟩⟩
    exact readInteger_eq_ok_iff.mpr ⟨line, hbytes, hi.symm ▸ hnumeral⟩

theorem readPayload_eq_ok_iff {length : Nat} {bytes payload rest : Bytes} :
    readPayload length bytes = .ok (payload, rest) ↔
      bytes = payload ++ (crlf ++ rest) ∧ payload.length = length := by
  constructor
  · intro h
    rw [readPayload] at h
    split at h
    · cases h
    · split at h
      · next hlen _ tail hdrop =>
          cases h
          have hlong : length ≤ bytes.length := by omega
          refine ⟨?_, List.length_take_of_le hlong⟩
          conv_lhs => rw [← List.take_append_drop length bytes, hdrop]
          rfl
      · cases h
  · rintro ⟨rfl, rfl⟩
    rw [readPayload, List.drop_left, List.take_left, if_neg (by simp)]
    rfl

end RespServer.Frame
