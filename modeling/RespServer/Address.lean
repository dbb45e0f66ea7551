import RespServer.Text.Decimal

/-!
# Network addresses

IPv4 addresses are four decimal bytes without leading zeros. IPv6 addresses are
eight groups of up to four hexadecimal digits, where `::` stands for at least
one group of zero and the last two groups may be written as an IPv4 address.
Writing shortens the first longest run of at least two zero groups.
-/

namespace RespServer

inductive IpAddress where
  | v4 (a b c d : UInt8)
  | v6 (groups : Vector UInt16 8)
  deriving DecidableEq

namespace IpAddress

def unspecified : IpAddress := v4 0 0 0 0

def hexDigit? (c : Char) : Option Nat :=
  let n := c.toNat
  if 48 ≤ n ∧ n ≤ 57 then some (n - 48)
  else if 97 ≤ n ∧ n ≤ 102 then some (n - 87)
  else if 65 ≤ n ∧ n ≤ 70 then some (n - 55)
  else none

def decimalDigit? (c : Char) : Option Nat :=
  (hexDigit? c).filter (· < 10)

/-- The digits at the front of a text, by value, and the text behind them. -/
def spanDigits (digit? : Char → Option Nat) : List Char → List Nat × List Char
  | [] => ([], [])
  | c :: cs =>
    match digit? c with
    | none => ([], c :: cs)
    | some d =>
      let (ds, rest) := spanDigits digit? cs
      (d :: ds, rest)

/-- A number of one to `most` digits at the front of a text. -/
def readNumber (base most : Nat) (digit? : Char → Option Nat) (cs : List Char) :
    Option (List Nat × Nat × List Char) :=
  let (ds, rest) := spanDigits digit? cs
  if ds.isEmpty ∨ most < ds.length then none
  else some (ds, ds.foldl (fun n d => n * base + d) 0, rest)

/-- A decimal byte without leading zeros. -/
def readByte (cs : List Char) : Option (UInt8 × List Char) :=
  match readNumber 10 3 decimalDigit? cs with
  | some (0 :: _ :: _, _, _) => none
  | some (_, n, rest) => if n < 256 then some (UInt8.ofNat n, rest) else none
  | none => none

def readGroup (cs : List Char) : Option (UInt16 × List Char) :=
  match readNumber 16 4 hexDigit? cs with
  | some (_, n, rest) => some (UInt16.ofNat n, rest)
  | none => none

/-- The text behind a given character. -/
def skip (c : Char) : List Char → Option (List Char)
  | [] => none
  | d :: cs => if d = c then some cs else none

def readV4 (cs : List Char) : Option ((UInt8 × UInt8 × UInt8 × UInt8) × List Char) := do
  let (a, cs) ← readByte cs
  let (b, cs) ← skip '.' cs >>= readByte
  let (c, cs) ← skip '.' cs >>= readByte
  let (d, cs) ← skip '.' cs >>= readByte
  some ((a, b, c, d), cs)

/-- Two bytes as one group, high byte first. -/
def pairBytes (high low : UInt8) : UInt16 :=
  high.toUInt16 * 256 + low.toUInt16

/-- Groups read one behind the other. -/
structure Groups where
  groups : List UInt16
  endsInV4 : Bool
  rest : List Char

/-- Reads at most `room` groups with colons between them; the first one has a
colon in front unless `first`. Where there is room for two groups they may be
written as an IPv4 address, which ends the reading. -/
def readGroups (first : Bool) : Nat → List Char → Groups
  | 0, cs => ⟨[], false, cs⟩
  | room + 1, cs =>
    match if first then some cs else skip ':' cs with
    | none => ⟨[], false, cs⟩
    | some start =>
      match if room = 0 then none else readV4 start with
      | some ((a, b, c, d), rest) => ⟨[pairBytes a b, pairBytes c d], true, rest⟩
      | none =>
        match readGroup start with
        | none => ⟨[], false, cs⟩
        | some (g, rest) =>
          let more := readGroups false room rest
          { more with groups := g :: more.groups }

/-- An address of eight groups. -/
def ofGroups? (groups : List UInt16) : Option IpAddress :=
  if h : groups.length = 8 then some (v6 ⟨groups.toArray, by simpa using h⟩) else none

def readV6 (cs : List Char) : Option (IpAddress × List Char) := do
  let head := readGroups true 8 cs
  if head.groups.length = 8 then
    some (← ofGroups? head.groups, head.rest)
  else if head.endsInV4 then none
  else
    let cs ← skip ':' head.rest >>= skip ':'
    let tail := readGroups true (7 - head.groups.length) cs
    let zeros := List.replicate (8 - head.groups.length - tail.groups.length) 0
    some (← ofGroups? (head.groups ++ zeros ++ tail.groups), tail.rest)

/-- Reads a whole text as an address. -/
def ofText? (text : String) : Option IpAddress :=
  match readV4 text.toList with
  | some ((a, b, c, d), rest) => if rest.isEmpty then some (v4 a b c d) else none
  | none =>
    match readV6 text.toList with
    | some (address, rest) => if rest.isEmpty then some address else none
    | none => none

def hexDigit (n : Nat) : Char :=
  Char.ofNat (if n < 10 then 48 + n else 87 + n)

/-- The lower-case hexadecimal digits of a number, without leading zeros. -/
def hexText (n : Nat) : List Char :=
  if n < 16 then [hexDigit n] else hexText (n / 16) ++ [hexDigit (n % 16)]

def v4Text (a b c d : UInt8) : String :=
  ".".intercalate ([a, b, c, d].map fun x => Decimal.text x.toNat)

def groupsText (groups : List UInt16) : String :=
  ":".intercalate (groups.map fun g => String.ofList (hexText g.toNat))

/-- A run of zero groups, by its start and its length. -/
structure ZeroRun where
  start : Nat
  length : Nat

/-- The first longest run of zeros, where `current` is the run that ends at
place `i` and `longest` the best one in front of it. -/
def longestZeroRun (current longest : ZeroRun) (i : Nat) : List UInt16 → ZeroRun
  | [] => longest
  | g :: gs =>
    if g = 0 then
      let current := if current.length = 0 then ⟨i, 1⟩ else ⟨current.start, current.length + 1⟩
      longestZeroRun current (if longest.length < current.length then current else longest)
        (i + 1) gs
    else longestZeroRun ⟨0, 0⟩ longest (i + 1) gs

def v6Text (groups : List UInt16) : String :=
  match groups with
  | [0, 0, 0, 0, 0, 0xFFFF, high, low] =>
    "::ffff:" ++ v4Text (high / 256).toUInt8 high.toUInt8 (low / 256).toUInt8 low.toUInt8
  | _ =>
    let zeros := longestZeroRun ⟨0, 0⟩ ⟨0, 0⟩ 0 groups
    if 1 < zeros.length then
      groupsText (groups.take zeros.start) ++ "::" ++
        groupsText (groups.drop (zeros.start + zeros.length))
    else groupsText groups

def text : IpAddress → String
  | v4 a b c d => v4Text a b c d
  | v6 groups => v6Text groups.toList

/-- The text of a socket address, where brackets set an IPv6 address apart. -/
def socketText (address : IpAddress) (tcpPort : UInt16) : String :=
  let number := Decimal.text tcpPort.toNat
  match address with
  | v4 .. => address.text ++ ":" ++ number
  | v6 _ => "[" ++ address.text ++ "]:" ++ number

end IpAddress

end RespServer
