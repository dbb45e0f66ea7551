import Mathlib.Data.List.Basic
import Mathlib.Data.List.Induction
import RespServer.Proofs.Text.Decimal

/-!
# Plain numerals

Of the spellings of a number one is plain: it has no plus sign, no leading zeros and, for
zero, no sign at all. It is the one that is written, and no other spelling is shorter.
-/

namespace RespServer.Decimal

/-- A spelling without a plus sign, leading zeros and a sign of zero. -/
inductive Plain : Bytes → Int → Prop
  | zero : Plain [digitByte 0] 0
  | positive {digits : Bytes} (hdigits : Digits digits)
      (hhead : digits.head? ≠ some (digitByte 0)) :
      Plain digits (number digits)
  | negative {digits : Bytes} (hdigits : Digits digits)
      (hhead : digits.head? ≠ some (digitByte 0)) :
      Plain (45 :: digits) (-number digits)

theorem digitByte_of_isDigit {b : UInt8} (h : IsDigit b) : digitByte (b.toNat - 48) = b := by
  apply UInt8.toNat_inj.mp
  have hlt := b.toNat_lt
  simp only [digitByte, UInt8.toNat_ofNat', IsDigit] at h ⊢
  omega

theorem ofNat_of_lt {n : Nat} (h : n < 10) : ofNat n = [digitByte n] := by
  rw [ofNat, if_pos h]

theorem ofNat_mul_ten_add {n d : Nat} (hn : n ≠ 0) (hd : d < 10) :
    ofNat (n * 10 + d) = ofNat n ++ [digitByte d] := by
  have hquotient : (n * 10 + d) / 10 = n := by omega
  have hremainder : (n * 10 + d) % 10 = d := by omega
  rw [ofNat, if_neg (by omega), hquotient, hremainder]

theorem number_eq_zero_of_ofNat {digits : Bytes} (h : ofNat (number digits) = digits)
    (hzero : number digits = 0) : digits.head? = some (digitByte 0) := by
  rw [hzero, ofNat_of_lt (by decide)] at h
  rw [← h]
  rfl

/-- Digits that do not begin with zero are those that are written for their number. -/
theorem ofNat_number {digits : Bytes} (hdigits : Digits digits)
    (hhead : digits.head? ≠ some (digitByte 0)) : ofNat (number digits) = digits := by
  obtain ⟨hne, hall⟩ := hdigits
  induction digits using List.reverseRecOn with
  | nil => exact absurd rfl hne
  | append_singleton front b ih =>
      have hb : IsDigit b := hall b (List.mem_append_right front List.mem_cons_self)
      have hlt : b.toNat - 48 < 10 := by
        unfold IsDigit at hb
        omega
      by_cases hfront : front = []
      · subst hfront
        rw [number_concat, number_nil, Nat.zero_mul, Nat.zero_add, ofNat_of_lt hlt,
          digitByte_of_isDigit hb]
        rfl
      · have hhead' : front.head? ≠ some (digitByte 0) := by
          rwa [List.head?_append_of_ne_nil _ hfront] at hhead
        have hwritten := ih hhead' hfront fun c hc => hall c (List.mem_append_left [b] hc)
        have hpos : number front ≠ 0 := mt (number_eq_zero_of_ofNat hwritten) hhead'
        rw [number_concat, ofNat_mul_ten_add hpos hlt, hwritten, digitByte_of_isDigit hb]

/-- What is written for a number begins with zero only for zero itself. -/
theorem head?_ofNat_ne {n : Nat} (h : n ≠ 0) : (ofNat n).head? ≠ some (digitByte 0) := by
  induction n using ofNat.induct with
  | case1 n hlt =>
      rw [ofNat_of_lt hlt, List.head?_cons, Ne, Option.some.injEq]
      intro heq
      have hdigit := congrArg (fun b : UInt8 => b.toNat - 48) heq
      simp only [toNat_digitByte hlt, toNat_digitByte (d := 0) (by decide)] at hdigit
      exact h hdigit
  | case2 n hlt ih =>
      have hne := (digits_ofNat (n / 10)).1.1
      rw [ofNat, if_neg hlt, List.head?_append_of_ne_nil _ hne]
      exact ih (by omega)

/-- Leading zeros only make digits longer than what is written for their number. -/
theorem length_ofNat_number_le {digits : Bytes} (h : Digits digits) :
    (ofNat (number digits)).length ≤ digits.length := by
  obtain ⟨hne, hall⟩ := h
  induction digits with
  | nil => exact absurd rfl hne
  | cons b digits ih =>
      by_cases hzero : b = digitByte 0
      · subst hzero
        have hnumber : number (digitByte 0 :: digits) = number digits := by
          rw [number_cons, toNat_digitByte (by decide), Nat.zero_mul, Nat.zero_add]
        rw [hnumber]
        by_cases hdigits : digits = []
        · subst hdigits
          rw [number_nil, ofNat_of_lt (by decide), List.length_singleton]
        · exact Nat.le_succ_of_le (ih hdigits fun c hc => hall c (List.mem_cons_of_mem _ hc))
      · have hhead : (b :: digits).head? ≠ some (digitByte 0) := by simpa using hzero
        rw [ofNat_number ⟨hne, hall⟩ hhead]

theorem ofInt_zero : ofInt 0 = [digitByte 0] :=
  ofNat_of_lt (by decide)

theorem ofInt_natCast (n : Nat) : ofInt n = ofNat n :=
  if_neg (by omega)

theorem ofInt_neg_natCast {n : Nat} (h : n ≠ 0) : ofInt (-n) = 45 :: ofNat n := by
  rw [ofInt, if_pos (by omega), Int.natAbs_neg, Int.natAbs_natCast]

/-- What is written for a number is its one plain spelling. -/
theorem plain_iff {line : Bytes} {value : Int} : Plain line value ↔ line = ofInt value := by
  constructor
  · intro h
    cases h with
    | zero => exact ofInt_zero.symm
    | positive hdigits hhead => rw [ofInt_natCast, ofNat_number hdigits hhead]
    | negative hdigits hhead =>
        have hwritten := ofNat_number hdigits hhead
        rw [ofInt_neg_natCast (mt (number_eq_zero_of_ofNat hwritten) hhead), hwritten]
  · rintro rfl
    obtain ⟨hdigits, hnumber⟩ := digits_ofNat value.natAbs
    rcases Int.lt_trichotomy value 0 with hneg | rfl | hpos
    · have hplain := Plain.negative hdigits (head?_ofNat_ne (Int.natAbs_ne_zero.mpr hneg.ne))
      rwa [hnumber, show -(value.natAbs : Int) = value by omega,
        show 45 :: ofNat value.natAbs = ofInt value from (if_pos hneg).symm] at hplain
    · exact ofInt_zero ▸ .zero
    · have hplain := Plain.positive hdigits (head?_ofNat_ne (Int.natAbs_ne_zero.mpr hpos.ne'))
      rwa [hnumber, show (value.natAbs : Int) = value by omega,
        show ofNat value.natAbs = ofInt value from (if_neg (by omega)).symm] at hplain

/-- No spelling is shorter than the plain one. -/
theorem Spells.length_ofInt_le {line : Bytes} {value : Int} (h : Spells line value) :
    (ofInt value).length ≤ line.length := by
  cases h with
  | unsigned hdigits =>
      rw [ofInt_natCast]
      exact length_ofNat_number_le hdigits
  | plus hdigits =>
      rw [ofInt_natCast]
      exact Nat.le_succ_of_le (length_ofNat_number_le hdigits)
  | @minus digits hdigits =>
      by_cases hzero : number digits = 0
      · rw [hzero, Int.natCast_zero, Int.neg_zero, ofInt_zero]
        exact Nat.succ_le_succ (Nat.zero_le digits.length)
      · rw [ofInt_neg_natCast hzero]
        exact Nat.succ_le_succ (length_ofNat_number_le hdigits)

end RespServer.Decimal
