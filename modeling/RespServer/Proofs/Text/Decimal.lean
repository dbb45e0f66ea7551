import Mathlib.Data.Nat.Digits.Defs
import Mathlib.Tactic.Ring
import RespServer.Text.Decimal

/-!
# Numerals

A numeral is an optional sign and one or more ASCII digits, leading zeros allowed,
for a signed 64-bit number. The reader of such numbers accepts the numerals and
nothing else, and what is written for a number is one of its numerals.
-/

namespace RespServer.Decimal

def IsDigit (b : UInt8) : Prop :=
  48 ≤ b.toNat ∧ b.toNat ≤ 57

instance : DecidablePred IsDigit := fun b =>
  inferInstanceAs (Decidable (48 ≤ b.toNat ∧ b.toNat ≤ 57))

/-- One or more digits. -/
def Digits (digits : Bytes) : Prop :=
  digits ≠ [] ∧ ∀ b ∈ digits, IsDigit b

/-- The number that digits stand for, the first one being the highest. -/
def number (digits : Bytes) : Nat :=
  Nat.ofDigits 10 (digits.reverse.map fun b => b.toNat - 48)

/-- An optional sign and digits, for the number they stand for. -/
inductive Spells : Bytes → Int → Prop
  | unsigned {digits : Bytes} : Digits digits → Spells digits (number digits)
  | plus {digits : Bytes} : Digits digits → Spells (43 :: digits) (number digits)
  | minus {digits : Bytes} : Digits digits → Spells (45 :: digits) (-number digits)

/-- The spelling of a number of 64 bits. -/
structure Numeral (line : Bytes) (value : Int) : Prop where
  spells : Spells line value
  ge_min : -2 ^ 63 ≤ value
  lt_max : value < 2 ^ 63

theorem number_nil : number [] = 0 := rfl

theorem number_cons (b : UInt8) (digits : Bytes) :
    number (b :: digits) = (b.toNat - 48) * 10 ^ digits.length + number digits := by
  rw [number, List.reverse_cons, List.map_append, Nat.ofDigits_append, List.map_singleton,
    Nat.ofDigits_singleton, List.length_map, List.length_reverse, number, Nat.add_comm,
    Nat.mul_comm]

theorem number_concat (digits : Bytes) (b : UInt8) :
    number (digits ++ [b]) = number digits * 10 + (b.toNat - 48) := by
  rw [number, List.reverse_append, List.reverse_singleton, List.singleton_append, List.map_cons,
    Nat.ofDigits_cons, number, Nat.add_comm, Nat.mul_comm]

theorem digit?_eq_some_iff {b : UInt8} {d : Nat} :
    digit? b = some d ↔ IsDigit b ∧ d = b.toNat - 48 := by
  rw [digit?, IsDigit]
  split
  · next h => simp [h, eq_comm]
  · next h => simp [h]

section Read

variable {limit : Nat} {excess : ReadError}

/-- Digits may be read one by one behind the part that has been read. -/
theorem mul_pow_add_number_cons (acc : Nat) (b : UInt8) (digits : Bytes) :
    acc * 10 ^ (b :: digits).length + number (b :: digits) =
      (acc * 10 + (b.toNat - 48)) * 10 ^ digits.length + number digits := by
  rw [number_cons, List.length_cons, Nat.pow_succ]
  ring

theorem readDigits_eq_ok_iff {acc n : Nat} {digits : Bytes} (hacc : acc ≤ limit) :
    readDigits limit excess acc digits = .ok n ↔
      (∀ b ∈ digits, IsDigit b) ∧ n = acc * 10 ^ digits.length + number digits ∧ n ≤ limit := by
  induction digits generalizing acc with
  | nil =>
      rw [readDigits, Except.ok.injEq, List.length_nil, Nat.pow_zero, Nat.mul_one, number_nil,
        Nat.add_zero]
      constructor
      · rintro rfl
        exact ⟨fun b hb => absurd hb List.not_mem_nil, rfl, hacc⟩
      · rintro ⟨-, rfl, -⟩
        rfl
  | cons b digits ih =>
      rw [readDigits, mul_pow_add_number_cons, List.forall_mem_cons]
      cases hd : digit? b with
      | none =>
          constructor
          · intro h
            cases h
          · rintro ⟨⟨hdigit, -⟩, -⟩
            rw [digit?_eq_some_iff.mpr ⟨hdigit, rfl⟩] at hd
            cases hd
      | some d =>
          obtain ⟨hdigit, rfl⟩ := digit?_eq_some_iff.mp hd
          simp only
          split
          · next hover =>
              constructor
              · intro h
                cases h
              · rintro ⟨-, rfl, hle⟩
                have hpos : 0 < 10 ^ digits.length := Nat.pow_pos (by omega)
                have hge := Nat.le_mul_of_pos_right (acc * 10 + (b.toNat - 48)) hpos
                omega
          · next hfits =>
              rw [ih (Nat.not_lt.mp hfits)]
              simp only [hdigit, true_and]

theorem readMagnitude_eq_ok_iff {n : Nat} {digits : Bytes} :
    readMagnitude limit excess digits = .ok n ↔ Digits digits ∧ n = number digits ∧ n ≤ limit := by
  rw [Digits, and_assoc]
  cases digits with
  | nil => simp [readMagnitude]
  | cons b digits =>
      change readDigits limit excess 0 (b :: digits) = .ok n ↔ _
      rw [readDigits_eq_ok_iff (Nat.zero_le limit), Nat.zero_mul, Nat.zero_add]
      simp only [ne_eq, reduceCtorEq, not_false_eq_true, true_and]

end Read

theorem Spells.ne_nil {line : Bytes} {value : Int} (h : Spells line value) : line ≠ [] := by
  cases h with
  | unsigned h => exact h.1
  | plus _ => exact List.cons_ne_nil _ _
  | minus _ => exact List.cons_ne_nil _ _

theorem spells_plus_iff {digits : Bytes} {value : Int} :
    Spells (43 :: digits) value ↔ Digits digits ∧ value = number digits := by
  constructor
  · intro h
    cases h with
    | unsigned h => exact absurd (h.2 43 List.mem_cons_self) (by decide)
    | plus h => exact ⟨h, rfl⟩
  · rintro ⟨h, rfl⟩
    exact .plus h

theorem spells_minus_iff {digits : Bytes} {value : Int} :
    Spells (45 :: digits) value ↔ Digits digits ∧ value = -number digits := by
  constructor
  · intro h
    cases h with
    | unsigned h => exact absurd (h.2 45 List.mem_cons_self) (by decide)
    | minus h => exact ⟨h, rfl⟩
  · rintro ⟨h, rfl⟩
    exact .minus h

theorem spells_unsigned_iff {line : Bytes} {value : Int} (hplus : ∀ digits, line ≠ 43 :: digits)
    (hminus : ∀ digits, line ≠ 45 :: digits) :
    Spells line value ↔ Digits line ∧ value = number line := by
  constructor
  · intro h
    cases h with
    | unsigned h => exact ⟨h, rfl⟩
    | plus h => exact absurd rfl (hplus _)
    | minus h => exact absurd rfl (hminus _)
  · rintro ⟨h, rfl⟩
    exact .unsigned h

theorem numeral_toInt_iff {line : Bytes} {i : Int64} :
    Numeral line i.toInt ↔ Spells line i.toInt :=
  ⟨Numeral.spells, fun h => ⟨h, i.le_toInt, i.toInt_lt⟩⟩

/-- Digits within the limit are read as the number that is made of them. -/
theorem map_eq_ok_iff {read : Except ReadError Nat} {digits : Bytes} {limit : Nat}
    {make : Nat → Int64} {value : Nat → Int}
    (hread : ∀ n, read = .ok n ↔ Digits digits ∧ n = number digits ∧ n ≤ limit)
    (hmake : ∀ n ≤ limit, (make n).toInt = value n)
    (hlimit : ∀ (i : Int64) n, i.toInt = value n → n ≤ limit) {i : Int64} :
    make <$> read = .ok i ↔ Digits digits ∧ i.toInt = value (number digits) := by
  constructor
  · intro h
    cases hr : read with
    | error e =>
        rw [hr] at h
        cases h
    | ok n =>
        rw [hr] at h
        cases h
        obtain ⟨hdigits, rfl, hle⟩ := (hread n).mp hr
        exact ⟨hdigits, hmake _ hle⟩
  · rintro ⟨hdigits, hi⟩
    have hle := hlimit i _ hi
    rw [(hread _).mpr ⟨hdigits, rfl, hle⟩]
    exact congrArg Except.ok (Int64.toInt_inj.mp ((hmake _ hle).trans hi.symm))

theorem toInt_ofNat_of_le {n : Nat} (h : n ≤ maxInt64) : (Int64.ofNat n).toInt = n :=
  Int64.toInt_ofNat_of_lt (Nat.lt_succ_of_le h)

theorem toInt_ofInt_neg_of_le {n : Nat} (h : n ≤ maxInt64 + 1) :
    (Int64.ofInt (-n)).toInt = -n := by
  unfold maxInt64 at h
  exact Int64.toInt_ofInt_of_le (by omega) (by omega)

theorem le_maxInt64_of_toInt_eq (i : Int64) (n : Nat) (h : i.toInt = n) : n ≤ maxInt64 := by
  have hlt := i.toInt_lt
  unfold maxInt64
  omega

theorem le_of_toInt_eq_neg (i : Int64) (n : Nat) (h : i.toInt = -n) : n ≤ maxInt64 + 1 := by
  have hle := i.le_toInt
  unfold maxInt64
  omega

/-- The reader of 64-bit numbers accepts the numerals and nothing else. -/
theorem readInt64_eq_ok_iff {line : Bytes} {i : Int64} :
    readInt64 line = .ok i ↔ Numeral line i.toInt := by
  rw [numeral_toInt_iff]
  unfold readInt64
  split
  · constructor
    · intro h
      cases h
    · intro h
      exact absurd rfl h.ne_nil
  · rw [spells_plus_iff]
    exact map_eq_ok_iff (fun _ => readMagnitude_eq_ok_iff) (fun _ => toInt_ofNat_of_le)
      le_maxInt64_of_toInt_eq
  · next digits =>
    have hmap : ((fun n : Int => Int64.ofInt (-n)) <$> do
          let n ← readMagnitude (maxInt64 + 1) .tooSmall digits
          pure (n : Int)) =
        (fun n : Nat => Int64.ofInt (-n)) <$> readMagnitude (maxInt64 + 1) .tooSmall digits := by
      cases readMagnitude (maxInt64 + 1) .tooSmall digits <;> rfl
    rw [spells_minus_iff, hmap]
    exact map_eq_ok_iff (fun _ => readMagnitude_eq_ok_iff) (fun _ => toInt_ofInt_neg_of_le)
      le_of_toInt_eq_neg
  · next hnil hplus hminus =>
    rw [spells_unsigned_iff hplus hminus]
    refine map_eq_ok_iff (fun n => ?_) (fun _ => toInt_ofNat_of_le) le_maxInt64_of_toInt_eq
    rw [readDigits_eq_ok_iff (Nat.zero_le maxInt64), Nat.zero_mul, Nat.zero_add, Digits, and_assoc]
    exact (and_iff_right hnil).symm

/-- The reader of unsigned numbers accepts the spellings without a minus sign and nothing else. -/
theorem readNat_eq_ok_iff {limit n : Nat} {line : Bytes} :
    readNat limit line = .ok n ↔ Spells line n ∧ line.head? ≠ some 45 ∧ n ≤ limit := by
  unfold readNat
  split
  · constructor
    · intro h
      cases h
    · rintro ⟨h, -⟩
      exact absurd rfl h.ne_nil
  · next digits =>
    rw [readMagnitude_eq_ok_iff, spells_plus_iff, Int.natCast_inj, and_assoc]
    simp
  · next hnil hplus =>
    rw [readDigits_eq_ok_iff (Nat.zero_le limit), Nat.zero_mul, Nat.zero_add]
    constructor
    · rintro ⟨hall, rfl, hle⟩
      refine ⟨.unsigned ⟨hnil, hall⟩, ?_, hle⟩
      intro hhead
      exact absurd (hall 45 (List.mem_of_mem_head? hhead)) (by decide)
    · rintro ⟨hspells, hhead, hle⟩
      have hminus : ∀ digits, line ≠ 45 :: digits := by
        rintro digits rfl
        exact hhead rfl
      obtain ⟨hdigits, hn⟩ := (spells_unsigned_iff hplus hminus).mp hspells
      exact ⟨hdigits.2, Int.natCast_inj.mp hn, hle⟩

theorem isDigit_digitByte {d : Nat} (h : d < 10) : IsDigit (digitByte d) :=
  (digit?_eq_some_iff.mp (digit?_digitByte h)).1

theorem toNat_digitByte {d : Nat} (h : d < 10) : (digitByte d).toNat - 48 = d :=
  (digit?_eq_some_iff.mp (digit?_digitByte h)).2.symm

/-- What is written for a number are digits that stand for it. -/
theorem digits_ofNat (n : Nat) : Digits (ofNat n) ∧ number (ofNat n) = n := by
  induction n using ofNat.induct with
  | case1 n h =>
      rw [ofNat, if_pos h]
      refine ⟨⟨List.cons_ne_nil _ _, ?_⟩, ?_⟩
      · intro b hb
        rw [List.mem_singleton.mp hb]
        exact isDigit_digitByte h
      · rw [number_cons, number_nil, toNat_digitByte h, List.length_nil, Nat.pow_zero, Nat.mul_one,
          Nat.add_zero]
  | case2 n h ih =>
      obtain ⟨⟨-, hall⟩, hnumber⟩ := ih
      have hlt : n % 10 < 10 := Nat.mod_lt n (by omega)
      rw [ofNat, if_neg h]
      refine ⟨⟨List.append_ne_nil_of_right_ne_nil _ (List.cons_ne_nil _ _), ?_⟩, ?_⟩
      · intro b hb
        rcases List.mem_append.mp hb with hb | hb
        · exact hall b hb
        · rw [List.mem_singleton.mp hb]
          exact isDigit_digitByte hlt
      · rw [number_concat, hnumber, toNat_digitByte hlt]
        omega

theorem numeral_ofNat {n : Nat} (h : n < 2 ^ 63) : Numeral (ofNat n) n := by
  obtain ⟨hdigits, hnumber⟩ := digits_ofNat n
  have hspells := Spells.unsigned hdigits
  rw [hnumber] at hspells
  exact ⟨hspells, by omega, by omega⟩

theorem numeral_ofInt {i : Int} (hmin : -2 ^ 63 ≤ i) (hmax : i < 2 ^ 63) : Numeral (ofInt i) i := by
  obtain ⟨hdigits, hnumber⟩ := digits_ofNat i.natAbs
  refine ⟨?_, hmin, hmax⟩
  rw [ofInt]
  split
  · next hneg =>
      have hspells := Spells.minus hdigits
      rwa [hnumber, show -(i.natAbs : Int) = i by omega] at hspells
  · next hpos =>
      have hspells := Spells.unsigned hdigits
      rwa [hnumber, show (i.natAbs : Int) = i by omega] at hspells

/-- No numeral holds a byte of a line end. -/
theorem Spells.carriageReturn_notMem {line : Bytes} {value : Int} (h : Spells line value) :
    carriageReturn ∉ line := by
  have hdigit {digits : Bytes} (h : Digits digits) : carriageReturn ∉ digits :=
    fun hmem => absurd (h.2 _ hmem) (by decide)
  cases h with
  | unsigned h => exact hdigit h
  | plus h => exact List.not_mem_cons_of_ne_of_not_mem (by decide) (hdigit h)
  | minus h => exact List.not_mem_cons_of_ne_of_not_mem (by decide) (hdigit h)

end RespServer.Decimal
