import RespServer.Frame.Basic
import RespServer.Text.Decimal
import RespServer.Text.Utf8

/-!
# Writing frames

`Frame.encode` is the wire form. Texts are written as they are, so only a text
without a line break reads back. `Frame.describe` is the one-line form for
people, with payloads decoded lossily.
-/

namespace RespServer.Frame

/-- A marker, what follows it, and the end of the line. -/
def line (k : Kind) (content : Bytes) : Bytes :=
  k.marker :: (content ++ crlf)

mutual

/-- The wire form of a frame. -/
def encode : Frame → Bytes
  | simple text => line .simple (Utf8.encode text)
  | error text => line .error (Utf8.encode text)
  | integer value => line .integer (Decimal.ofInt value.toInt)
  | bulk payload => line .bulk (Decimal.ofNat payload.length) ++ payload ++ crlf
  | null => line .bulk (Decimal.ofInt (-1))
  | array elements => line .array (Decimal.ofNat elements.length) ++ encodeAll elements

/-- The wire forms of several frames, one behind the other. -/
def encodeAll : List Frame → Bytes
  | [] => []
  | f :: rest => encode f ++ encodeAll rest

end

theorem encodeAll_append (fs gs : List Frame) :
    encodeAll (fs ++ gs) = encodeAll fs ++ encodeAll gs := by
  induction fs with
  | nil => simp [encodeAll]
  | cons f fs ih => simp [encodeAll, ih]

mutual

/-- The characters of `describe`. -/
def describeChars : Frame → List Char
  | simple text => '+' :: text.toList
  | error text => '-' :: text.toList
  | integer value => ':' :: Decimal.chars value.toInt
  | bulk payload => '$' :: (Utf8.decodeLossy payload).toList
  | null => ['$', '-', '1']
  | array elements => '*' :: (Decimal.chars elements.length ++ describeAllChars elements)

/-- The elements of an array, each with a blank in front. -/
def describeAllChars : List Frame → List Char
  | [] => []
  | f :: rest => ' ' :: (describeChars f ++ describeAllChars rest)

end

/-- The form of a frame for people: elements are set apart by blanks. -/
def describe (f : Frame) : String :=
  String.ofList f.describeChars

end RespServer.Frame
