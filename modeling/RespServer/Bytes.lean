/-!
# Bytes

Everything on the wire is a list of bytes. Letter case is compared and changed
in the ASCII range only, so bytes of other alphabets stand for themselves.
-/

namespace RespServer

abbrev Bytes := List UInt8

@[match_pattern] abbrev carriageReturn : UInt8 := 13

@[match_pattern] abbrev lineFeed : UInt8 := 10

/-- The two bytes that end every line of the protocol. -/
abbrev crlf : Bytes := [carriageReturn, lineFeed]

/-- The bytes of a text that holds ASCII characters only. -/
def asciiBytes (text : String) : Bytes :=
  text.toList.map fun c => c.toUInt8

/-- The lower case of an ASCII letter; any other byte is kept. -/
def lowerByte (b : UInt8) : UInt8 :=
  if 65 ≤ b.toNat ∧ b.toNat ≤ 90 then b + 32 else b

/-- Two byte strings agree up to the case of ASCII letters. -/
def sameLetters (a b : Bytes) : Bool :=
  a.map lowerByte == b.map lowerByte

theorem sameLetters_iff {a b : Bytes} :
    sameLetters a b = true ↔ a.map lowerByte = b.map lowerByte := by
  simp [sameLetters]

end RespServer
