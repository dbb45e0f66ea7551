import RespServer.Bytes

/-!
# Frames

A frame is one value of the protocol. Its first byte on the wire, the marker,
names its kind. The null bulk string and the null array are one value, `null`.
-/

namespace RespServer

inductive Frame where
  | simple (text : String)
  | error (text : String)
  | integer (value : Int64)
  | bulk (payload : Bytes)
  | null
  | array (elements : List Frame)

namespace Frame

instance : Inhabited Frame := ⟨null⟩

mutual

/-- Equality of frames is decided element by element. -/
def decEq : (a b : Frame) → Decidable (a = b)
  | simple s, simple t => decidable_of_iff (s = t) (by simp)
  | error s, error t => decidable_of_iff (s = t) (by simp)
  | integer i, integer j => decidable_of_iff (i = j) (by simp)
  | bulk p, bulk q => decidable_of_iff (p = q) (by simp)
  | null, null => .isTrue rfl
  | array xs, array ys =>
    match decEqAll xs ys with
    | .isTrue h => .isTrue (by rw [h])
    | .isFalse h => .isFalse (by simpa using h)
  | simple _, error _ | simple _, integer _ | simple _, bulk _ | simple _, null | simple _, array _
  | error _, simple _ | error _, integer _ | error _, bulk _ | error _, null | error _, array _
  | integer _, simple _ | integer _, error _ | integer _, bulk _ | integer _, null
  | integer _, array _
  | bulk _, simple _ | bulk _, error _ | bulk _, integer _ | bulk _, null | bulk _, array _
  | null, simple _ | null, error _ | null, integer _ | null, bulk _ | null, array _
  | array _, simple _ | array _, error _ | array _, integer _ | array _, bulk _ | array _, null =>
    .isFalse (by simp)

def decEqAll : (a b : List Frame) → Decidable (a = b)
  | [], [] => .isTrue rfl
  | x :: xs, y :: ys =>
    match decEq x y, decEqAll xs ys with
    | .isTrue h, .isTrue h' => .isTrue (by rw [h, h'])
    | .isFalse h, _ => .isFalse (by simp [h])
    | _, .isFalse h => .isFalse (by simp [h])
  | [], _ :: _ | _ :: _, [] => .isFalse (by simp)

end

instance : DecidableEq Frame := decEq

/-- What the first byte of a frame announces. -/
inductive Kind where
  | simple
  | error
  | integer
  | bulk
  | array
  deriving DecidableEq

def Kind.marker : Kind → UInt8
  | simple => 43
  | error => 45
  | integer => 58
  | bulk => 36
  | array => 42

def Kind.ofMarker? : UInt8 → Option Kind
  | 43 => some simple
  | 45 => some error
  | 58 => some integer
  | 36 => some bulk
  | 42 => some array
  | _ => none

@[simp] theorem Kind.ofMarker?_marker (k : Kind) : ofMarker? k.marker = some k := by
  cases k <;> rfl

theorem Kind.marker_of_ofMarker? {b : UInt8} {k : Kind} (h : ofMarker? b = some k) :
    k.marker = b := by
  unfold ofMarker? at h
  split at h <;> cases h <;> rfl

end Frame

end RespServer
