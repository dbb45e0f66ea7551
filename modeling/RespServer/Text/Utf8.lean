import RespServer.Bytes

/-!
# UTF-8

A scanner reads bytes one at a time and marks every maximal ill-formed subpart:
the longest start of a sequence that some character could still continue, or a
single byte that starts none. The strict reader refuses a text with a mark, the
lossy reader writes U+FFFD for each.
-/

namespace RespServer.Utf8

/-- The bytes of one character, high bits first. -/
def encodeChar (c : Char) : Bytes :=
  let n := c.toNat
  if n < 0x80 then [UInt8.ofNat n]
  else if n < 0x800 then
    [UInt8.ofNat (0xC0 + n / 64), UInt8.ofNat (0x80 + n % 64)]
  else if n < 0x10000 then
    [UInt8.ofNat (0xE0 + n / 4096), UInt8.ofNat (0x80 + n / 64 % 64),
      UInt8.ofNat (0x80 + n % 64)]
  else
    [UInt8.ofNat (0xF0 + n / 262144), UInt8.ofNat (0x80 + n / 4096 % 64),
      UInt8.ofNat (0x80 + n / 64 % 64), UInt8.ofNat (0x80 + n % 64)]

def encode (text : String) : Bytes :=
  text.toList.flatMap encodeChar

/-- A started sequence: the bits read so far, how many bytes are to follow the
next one, and the range the next one has to lie in. -/
structure Pending where
  bits : Nat
  after : Nat
  low : Nat
  high : Nat

/-- The sequence that a leading byte of a longer character starts. The narrow
ranges keep out overlong forms, surrogates and values above U+10FFFF. -/
def Pending.ofLead? (n : Nat) : Option Pending :=
  if 0xC2 ≤ n ∧ n ≤ 0xDF then some ⟨n - 0xC0, 0, 0x80, 0xBF⟩
  else if 0xE0 ≤ n ∧ n ≤ 0xEF then
    some ⟨n - 0xE0, 1, if n = 0xE0 then 0xA0 else 0x80, if n = 0xED then 0x9F else 0xBF⟩
  else if 0xF0 ≤ n ∧ n ≤ 0xF4 then
    some ⟨n - 0xF0, 2, if n = 0xF0 then 0x90 else 0x80, if n = 0xF4 then 0x8F else 0xBF⟩
  else none

/-- What has been read, newest first, with `none` for an ill-formed subpart. -/
structure Scanner where
  read : List (Option Char)
  pending : Option Pending

/-- Reads a byte that no started sequence takes. -/
def Scanner.start (read : List (Option Char)) (n : Nat) : Scanner :=
  if n < 0x80 then ⟨some (Char.ofNat n) :: read, none⟩
  else match Pending.ofLead? n with
    | some pending => ⟨read, some pending⟩
    | none => ⟨none :: read, none⟩

/-- Reads one byte. A byte out of range ends the started sequence as ill-formed
and is read afresh. -/
def Scanner.feed (s : Scanner) (b : UInt8) : Scanner :=
  let n := b.toNat
  match s.pending with
  | none => start s.read n
  | some p =>
    if p.low ≤ n ∧ n ≤ p.high then
      let bits := p.bits * 64 + (n - 0x80)
      match p.after with
      | 0 => ⟨some (Char.ofNat bits) :: s.read, none⟩
      | after + 1 => ⟨s.read, some ⟨bits, after, 0x80, 0xBF⟩⟩
    else start (none :: s.read) n

/-- A sequence still open at the end is ill-formed. -/
def Scanner.finish (s : Scanner) : List (Option Char) :=
  match s.pending with
  | none => s.read.reverse
  | some _ => (none :: s.read).reverse

/-- The characters of a byte string, with `none` for each ill-formed subpart. -/
def scan (bytes : Bytes) : List (Option Char) :=
  (bytes.foldl Scanner.feed ⟨[], none⟩).finish

/-- The text of a well-formed byte string. -/
def decode? (bytes : Bytes) : Option String :=
  ((scan bytes).mapM id).map String.ofList

/-- The text of any byte string, with U+FFFD for each ill-formed subpart. -/
def decodeLossy (bytes : Bytes) : String :=
  String.ofList ((scan bytes).map fun c => c.getD (Char.ofNat 0xFFFD))

end RespServer.Utf8
