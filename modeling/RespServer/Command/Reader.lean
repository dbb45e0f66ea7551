import RespServer.Command.Basic
import RespServer.Frame.Basic
import RespServer.Text.Decimal
import RespServer.Text.Utf8

/-!
# Reading commands

A request is an array of bulk strings, a name and its arguments. The checks come
in this order: shape, number of elements, kind of the elements, name, number of
arguments, and for `set` the lifetime.
-/

namespace RespServer.Command

/-- An unknown name as it is shown: in upper case and on one line. -/
def shownName (name : Bytes) : String :=
  String.ofList ((Utf8.decodeLossy name).toList.map fun c =>
    if c = '\r' ∨ c = '\n' then ' ' else c.toUpper)

/-- The lifetime behind the option `EX`, in seconds. -/
def readSeconds (argument : Bytes) : Except Refusal Nat :=
  match Decimal.readInt64 argument with
  | .error _ => .error .notAnInteger
  | .ok n => if n.toInt ≤ 0 then .error .invalidExpireTime else .ok n.toInt.toNat

/-- Any other option than `EX` is dropped together with its value. -/
def readSet (key value option argument : Bytes) : Except Refusal Command :=
  if sameLetters option (asciiBytes "ex") then
    match readSeconds argument with
    | .error e => .error e
    | .ok seconds => .ok (.set key value (some seconds))
  else .ok (.set key value none)

/-- The command of a name with its arguments. -/
def ofArguments : Name → List Bytes → Except Refusal Command
  | .dbSize, [] => .ok .dbSize
  | .delete, key :: more => .ok (.delete (key :: more))
  | .echo, [message] => .ok (.echo message)
  | .existing, key :: more => .ok (.existing (key :: more))
  | .get, [key] => .ok (.get key)
  | .keys, [] => .ok (.keys none)
  | .keys, [pattern] => .ok (.keys (some pattern))
  | .ping, [] => .ok (.ping none)
  | .ping, [message] => .ok (.ping (some message))
  | .set, [key, value] => .ok (.set key value none)
  | .set, [key, value, option, argument] => readSet key value option argument
  | .ttl, [key] => .ok (.ttl key)
  | name, _ => .error (.wrongArity name)

/-- The payload of a bulk string. -/
def payload? : Frame → Option Bytes
  | .bulk payload => some payload
  | _ => none

/-- Reads a name with its arguments. -/
def ofParts : List Bytes → Except Refusal Command
  | [] => .error .invalidCommand
  | name :: arguments =>
    match Name.ofBytes? name with
    | none => .error (.unknownCommand (shownName name))
    | some n => ofArguments n arguments

/-- The command that a frame asks for. -/
def ofFrame : Frame → Except Refusal Command
  | .array (f :: fs) =>
    if maxArguments < (f :: fs).length then .error .tooManyArguments
    else match (f :: fs).mapM payload? with
      | none => .error .invalidArgumentType
      | some parts => ofParts parts
  | _ => .error .invalidCommand

end RespServer.Command
