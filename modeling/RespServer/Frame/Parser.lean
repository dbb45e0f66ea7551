import RespServer.Frame.Basic
import RespServer.Text.Decimal
import RespServer.Text.Utf8

/-!
# Reading frames

`Frame.parse` reads one frame from the front of a byte string and returns what
is behind it. `ParseError.incomplete` says that the bytes end before the frame
does; any other error is final. Each frame that is read leaves fewer bytes.
-/

namespace RespServer.Frame

inductive ParseError where
  | incomplete
  | invalidKind (marker : UInt8)
  | invalidLength
  | invalidInteger
  | invalidUtf8
  | missingTerminator
  | nestingTooDeep
  deriving DecidableEq

/-- The outermost frame has depth 0; no element may lie deeper than this. -/
def maxDepth : Nat := 512

def ParseError.message : ParseError → String
  | incomplete => "not enough data is available to parse an entire frame"
  | invalidKind marker => "invalid frame data type: " ++ Decimal.text marker.toNat
  | invalidLength => "invalid length prefix"
  | invalidInteger => "invalid integer"
  | invalidUtf8 => "invalid UTF-8 string"
  | missingTerminator => "bulk string is not terminated by CRLF"
  | nestingTooDeep => "arrays are nested deeper than " ++ Decimal.text maxDepth ++ " levels"

/-- A value read from the front of a byte string, and the bytes behind it. -/
abbrev Parsed (α : Type) := Except ParseError (α × Bytes)

/-- Splits at the first line end. The bytes in front of `bytes` that hold none
are in `front`, newest first. -/
def splitLineFrom (front : Bytes) : Bytes → Option (Bytes × Bytes)
  | [] => none
  | carriageReturn :: lineFeed :: rest => some (front.reverse, rest)
  | b :: rest => splitLineFrom (b :: front) rest

/-- The bytes up to the first line end, and those behind it. -/
def splitLine : Bytes → Option (Bytes × Bytes) :=
  splitLineFrom []

def readLine (bytes : Bytes) : Parsed Bytes :=
  match splitLine bytes with
  | none => .error .incomplete
  | some split => .ok split

/-- A line of UTF-8 text. -/
def readText (bytes : Bytes) : Parsed String :=
  match readLine bytes with
  | .error e => .error e
  | .ok (line, rest) =>
    match Utf8.decode? line with
    | none => .error .invalidUtf8
    | some text => .ok (text, rest)

/-- A line that holds a signed 64-bit number; `invalid` reports any other line. -/
def readInteger (invalid : ParseError) (bytes : Bytes) : Parsed Int64 :=
  match readLine bytes with
  | .error e => .error e
  | .ok (line, rest) =>
    match Decimal.readInt64 line with
    | .error _ => .error invalid
    | .ok value => .ok (value, rest)

/-- A line that holds a length, with `none` for -1, the length of null. -/
def readLength (bytes : Bytes) : Parsed (Option Nat) :=
  match readInteger .invalidLength bytes with
  | .error e => .error e
  | .ok (value, rest) =>
    if value = -1 then .ok (none, rest)
    else if value.toInt < 0 then .error .invalidLength
    else .ok (some value.toInt.toNat, rest)

/-- A payload of known length and the line end behind it, once both are there. -/
def readPayload (length : Nat) (bytes : Bytes) : Parsed Bytes :=
  if bytes.length < length + 2 then .error .incomplete
  else match bytes.drop length with
    | carriageReturn :: lineFeed :: rest => .ok (bytes.take length, rest)
    | _ => .error .missingTerminator

/-- As many elements as announced, one behind the other. Those read so far are
in `done`, newest first. -/
def readElements (element : Bytes → Parsed Frame) :
    Nat → List Frame → Bytes → Parsed (List Frame)
  | 0, done, bytes => .ok (done.reverse, bytes)
  | n + 1, done, bytes =>
    match element bytes with
    | .error e => .error e
    | .ok (f, rest) => readElements element n (f :: done) rest

/-- Applies a frame's constructor to the value it was read from. -/
def Parsed.as {α : Type} (make : α → Frame) : Parsed α → Parsed Frame
  | .error e => .error e
  | .ok (value, rest) => .ok (make value, rest)

/-- Reads a frame that may have elements on `levels` levels, its own included.
Without a level left nothing is read, not even a missing byte noticed. -/
def parseWithin : Nat → Bytes → Parsed Frame
  | 0, _ => .error .nestingTooDeep
  | _ + 1, [] => .error .incomplete
  | levels + 1, marker :: bytes =>
    match Kind.ofMarker? marker with
    | none => .error (.invalidKind marker)
    | some .simple => (readText bytes).as .simple
    | some .error => (readText bytes).as .error
    | some .integer => (readInteger .invalidInteger bytes).as .integer
    | some .bulk =>
      match readLength bytes with
      | .error e => .error e
      | .ok (none, rest) => .ok (.null, rest)
      | .ok (some length, rest) => (readPayload length rest).as .bulk
    | some .array =>
      match readLength bytes with
      | .error e => .error e
      | .ok (none, rest) => .ok (.null, rest)
      | .ok (some count, rest) => (readElements (parseWithin levels) count [] rest).as .array

/-- Reads one frame from the front of a byte string. -/
def parse (bytes : Bytes) : Parsed Frame :=
  parseWithin (maxDepth + 1) bytes

theorem length_of_splitLineFrom {front bytes line rest : Bytes}
    (h : splitLineFrom front bytes = some (line, rest)) : rest.length + 2 ≤ bytes.length := by
  fun_induction splitLineFrom front bytes with
  | case1 => cases h
  | case2 front rest => cases h; simp
  | case3 front b rest hne ih =>
      have := ih h
      simp only [List.length_cons]
      omega

theorem length_of_readLine {bytes line rest : Bytes} (h : readLine bytes = .ok (line, rest)) :
    rest.length < bytes.length := by
  unfold readLine at h
  split at h
  · cases h
  · next split hs =>
      cases h
      have := length_of_splitLineFrom hs
      omega

theorem length_of_readText {bytes rest : Bytes} {text : String}
    (h : readText bytes = .ok (text, rest)) : rest.length < bytes.length := by
  unfold readText at h
  split at h
  · cases h
  · next hl =>
      have := length_of_readLine hl
      split at h <;> cases h
      exact this

theorem length_of_readInteger {invalid : ParseError} {bytes rest : Bytes} {value : Int64}
    (h : readInteger invalid bytes = .ok (value, rest)) : rest.length < bytes.length := by
  unfold readInteger at h
  split at h
  · cases h
  · next hl =>
      have := length_of_readLine hl
      split at h <;> cases h
      exact this

theorem length_of_readLength {bytes rest : Bytes} {length : Option Nat}
    (h : readLength bytes = .ok (length, rest)) : rest.length < bytes.length := by
  unfold readLength at h
  split at h
  · cases h
  · next hi =>
      have := length_of_readInteger hi
      repeat' split at h
      all_goals cases h
      all_goals exact this

theorem length_of_readPayload {length : Nat} {bytes payload rest : Bytes}
    (h : readPayload length bytes = .ok (payload, rest)) : rest.length ≤ bytes.length := by
  unfold readPayload at h
  split at h
  · cases h
  · split at h
    · next hd =>
        cases h
        have := congrArg List.length hd
        simp only [List.length_drop, List.length_cons] at this
        omega
    · cases h

theorem length_of_readElements {element : Bytes → Parsed Frame}
    (helement : ∀ bytes f rest, element bytes = .ok (f, rest) → rest.length < bytes.length)
    {n : Nat} {done fs : List Frame} {bytes rest : Bytes}
    (h : readElements element n done bytes = .ok (fs, rest)) : rest.length ≤ bytes.length := by
  induction n generalizing done bytes with
  | zero => cases h; exact Nat.le_refl _
  | succ n ih =>
      rw [readElements] at h
      split at h
      · cases h
      · next f rest' he => exact Nat.le_trans (ih h) (Nat.le_of_lt (helement _ _ _ he))

theorem Parsed.exists_of_as {α : Type} {make : α → Frame} {p : Parsed α} {f : Frame} {rest : Bytes}
    (h : p.as make = .ok (f, rest)) : ∃ value, p = .ok (value, rest) ∧ f = make value := by
  cases p with
  | error e => cases h
  | ok split => cases h; exact ⟨_, rfl, rfl⟩

theorem length_of_parseWithin {levels : Nat} {bytes rest : Bytes} {f : Frame}
    (h : parseWithin levels bytes = .ok (f, rest)) : rest.length < bytes.length := by
  induction levels generalizing bytes f rest with
  | zero => cases h
  | succ levels ih =>
      cases bytes with
      | nil => cases h
      | cons marker bytes =>
          simp only [parseWithin] at h
          simp only [List.length_cons, Nat.lt_succ_iff]
          split at h
          · cases h
          · obtain ⟨_, ht, _⟩ := Parsed.exists_of_as h
            exact Nat.le_of_lt (length_of_readText ht)
          · obtain ⟨_, ht, _⟩ := Parsed.exists_of_as h
            exact Nat.le_of_lt (length_of_readText ht)
          · obtain ⟨_, hi, _⟩ := Parsed.exists_of_as h
            exact Nat.le_of_lt (length_of_readInteger hi)
          · split at h
            · cases h
            · next hl => cases h; exact Nat.le_of_lt (length_of_readLength hl)
            · next hl =>
                obtain ⟨_, hp, _⟩ := Parsed.exists_of_as h
                have := length_of_readLength hl
                have := length_of_readPayload hp
                omega
          · split at h
            · cases h
            · next hl => cases h; exact Nat.le_of_lt (length_of_readLength hl)
            · next hl =>
                obtain ⟨_, he, _⟩ := Parsed.exists_of_as h
                have := length_of_readLength hl
                have := length_of_readElements (fun _ _ _ => ih) he
                omega

/-- A frame takes at least one byte. -/
theorem length_of_parse {bytes rest : Bytes} {f : Frame} (h : parse bytes = .ok (f, rest)) :
    rest.length < bytes.length :=
  length_of_parseWithin h

end RespServer.Frame
