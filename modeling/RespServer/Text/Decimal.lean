import RespServer.Bytes

/-!
# Decimal integers

Numbers are written in the fewest ASCII digits. A reader takes one optional sign
and at least one digit, leading zeros included, and reports the first problem
from the left: a byte that is no digit, or a value past the limit.
-/

namespace RespServer.Decimal

inductive ReadError where
  | empty
  | invalidDigit
  | tooLarge
  | tooSmall
  deriving DecidableEq

def ReadError.message : ReadError → String
  | empty => "cannot parse integer from empty string"
  | invalidDigit => "invalid digit found in string"
  | tooLarge => "number too large to fit in target type"
  | tooSmall => "number too small to fit in target type"

/-- The ASCII byte of a digit below ten. -/
def digitByte (d : Nat) : UInt8 := UInt8.ofNat (48 + d)

def digit? (b : UInt8) : Option Nat :=
  if 48 ≤ b.toNat ∧ b.toNat ≤ 57 then some (b.toNat - 48) else none

theorem digit?_digitByte {d : Nat} (h : d < 10) : digit? (digitByte d) = some d := by
  have hn : (digitByte d).toNat = 48 + d := by
    simp only [digitByte, UInt8.toNat_ofNat']
    omega
  simp only [digit?, hn]
  rw [if_pos ⟨by omega, by omega⟩]
  congr 1
  omega

/-- The digits of a number, without leading zeros. -/
def ofNat (n : Nat) : Bytes :=
  if n < 10 then [digitByte n] else ofNat (n / 10) ++ [digitByte (n % 10)]

/-- A minus sign stands in front of the digits of a negative number. -/
def ofInt (i : Int) : Bytes :=
  if i < 0 then 45 :: ofNat i.natAbs else ofNat i.natAbs

/-- Reads digits behind those of `acc`; `excess` reports a value past `limit`. -/
def readDigits (limit : Nat) (excess : ReadError) (acc : Nat) : Bytes → Except ReadError Nat
  | [] => .ok acc
  | b :: rest =>
    match digit? b with
    | none => .error .invalidDigit
    | some d =>
      if limit < acc * 10 + d then .error excess
      else readDigits limit excess (acc * 10 + d) rest

/-- Reads the digits behind a sign, of which there has to be one. -/
def readMagnitude (limit : Nat) (excess : ReadError) : Bytes → Except ReadError Nat
  | [] => .error .invalidDigit
  | digits => readDigits limit excess 0 digits

/-- Reads an unsigned number of at most `limit`; a plus sign is allowed. -/
def readNat (limit : Nat) : Bytes → Except ReadError Nat
  | [] => .error .empty
  | 43 :: digits => readMagnitude limit .tooLarge digits
  | digits => readDigits limit .tooLarge 0 digits

/-- The greatest signed 64-bit number. -/
def maxInt64 : Nat := 9223372036854775807

/-- Reads a signed 64-bit number. -/
def readInt64 : Bytes → Except ReadError Int64
  | [] => .error .empty
  | 43 :: digits => Int64.ofNat <$> readMagnitude maxInt64 .tooLarge digits
  | 45 :: digits => (fun n => Int64.ofInt (-n)) <$> readMagnitude (maxInt64 + 1) .tooSmall digits
  | digits => Int64.ofNat <$> readDigits maxInt64 .tooLarge 0 digits

/-- Sign and digits as characters. -/
def chars (i : Int) : List Char :=
  (ofInt i).map fun b => Char.ofNat b.toNat

def text (i : Int) : String :=
  String.ofList (chars i)

end RespServer.Decimal
