import RespServer.CommandLine.Basic
import RespServer.Config
import RespServer.Text.Utf8

/-!
# Reading the command line

Arguments are read from left to right. The value of a setting is checked when the
next known argument begins or the arguments end, so an unknown argument is
reported before a value in front of it that is missing or wrong. The
environment is asked for the frame limit only if no argument gives it.
-/

namespace RespServer.CommandLine

/-- The settings given so far. -/
structure Given where
  tcpPort : Option UInt16
  bind : Option IpAddress
  sweepMillis : Option Nat
  maxFrameSize : Option Nat
  deriving DecidableEq

def Given.nothing : Given := ⟨none, none, none, none⟩

def Given.has (g : Given) : Setting → Bool
  | .tcpPort => g.tcpPort.isSome
  | .bind => g.bind.isSome
  | .sweepMillis => g.sweepMillis.isSome
  | .maxFrameSize => g.maxFrameSize.isSome

def readTcpPort (value : String) : Except ValueError UInt16 :=
  match Decimal.readInt64 (Utf8.encode value) with
  | .error e => .error (.number e)
  | .ok n =>
    if 1 ≤ n.toInt ∧ n.toInt ≤ 65535 then .ok (UInt16.ofNat n.toInt.toNat)
    else .error (.tcpPortRange n)

def readAddress (value : String) : Except ValueError IpAddress :=
  match IpAddress.ofText? value with
  | none => .error .address
  | some address => .ok address

/-- An unsigned 64-bit number. -/
def readCount (value : String) : Except ValueError Nat :=
  match Decimal.readNat (UInt64.size - 1) (Utf8.encode value) with
  | .error e => .error (.number e)
  | .ok n => .ok n

/-- The settings with one more read from its value. -/
def Given.read (g : Given) (setting : Setting) (value : String) : Except ValueError Given :=
  match setting with
  | .tcpPort => (readTcpPort value).map fun v => { g with tcpPort := some v }
  | .bind => (readAddress value).map fun v => { g with bind := some v }
  | .sweepMillis => (readCount value).map fun v => { g with sweepMillis := some v }
  | .maxFrameSize => (readCount value).map fun v => { g with maxFrameSize := some v }

/-- A setting may be given once only. -/
def Given.assign (g : Given) (setting : Setting) (value : String) : Except Stop Given :=
  if g.has setting then .error (.usage (.repeated setting))
  else match g.read setting value with
    | .error cause => .error (.usage (.invalidValue setting value cause))
    | .ok g' => .ok g'

/-- What the last known argument left to be done. -/
inductive Pending where
  | nothing
  | awaiting (setting : Setting)
  | value (setting : Setting) (text : String)
  deriving DecidableEq

/-- After `--` every argument is positional. -/
structure State where
  given : Given
  /-- The settings of `given` in the order of their arguments. -/
  order : List Setting
  pending : Pending
  positional : Bool
  escaped : Bool
  deriving DecidableEq

def State.start : State := ⟨Given.nothing, [], .nothing, false, false⟩

def State.assign (s : State) (setting : Setting) (value : String) : Except Stop State :=
  match s.given.assign setting value with
  | .error e => .error e
  | .ok given => .ok { s with given, order := s.order ++ [setting] }

/-- Does what is pending. -/
def State.settle (s : State) : Except Stop State :=
  match s.pending with
  | .nothing => .ok s
  | .awaiting setting => .error (.usage (.missingValue setting))
  | .value setting text => { s with pending := .nothing }.assign setting text

/-- The settings in use. A value that is still to be checked counts, unless it
repeats a setting: then neither of the two does. -/
def State.used (s : State) : List Setting :=
  match s.pending with
  | .value setting _ =>
    if setting ∈ s.order then s.order.filter (· ≠ setting) else s.order ++ [setting]
  | _ => s.order

/-- A positional argument gives the number to listen on; there is no second one. -/
def State.takePositional (s : State) (argument : String) : Except Stop State :=
  if s.positional then .error (.usage (.unexpectedArgument argument))
  else match s.settle with
    | .error e => .error e
    | .ok s' => .ok { s' with pending := .value .tcpPort argument, positional := true }

/-- A flag ends the reading. -/
def State.takeFlag (s : State) (flag : Flag) : Except Stop State :=
  match s.settle with
  | .error e => .error e
  | .ok _ => .error (.flag flag)

/-- The name of a long option, and the value behind its first equals sign. -/
def splitOption (cs : List Char) : String × Option String :=
  (String.ofList (cs.takeWhile (· ≠ '=')),
    match cs.dropWhile (· ≠ '=') with
    | [] => none
    | _ :: value => some (String.ofList value))

/-- Takes a long option, given by what follows its dashes. -/
def State.takeLong (s : State) (cs : List Char) : Except Stop State :=
  let (name, value) := splitOption cs
  match Setting.ofOption? name with
  | some setting =>
    match s.settle, value with
    | .error e, _ => .error e
    | .ok s', none => .ok { s' with pending := .awaiting setting }
    | .ok s', some text => s'.assign setting text
  | none =>
    match Flag.ofOption? name, value with
    | some flag, none => s.takeFlag flag
    | some flag, some text => .error (.usage (.unexpectedValue flag text (!s.order.isEmpty)))
    | none, _ => .error (.usage (.unknownOption ("--" ++ name) s.used))

/-- Takes a short option. Only flags have one, so the first letter decides; an
unknown one is reported without the settings in use. -/
def State.takeShort (s : State) (letter : Char) : Except Stop State :=
  match Flag.ofLetter? letter with
  | some flag => s.takeFlag flag
  | none => .error (.usage (.unknownOption ("-" ++ letter.toString) []))

/-- Takes an argument that is no option: the value awaited, or a positional. -/
def State.takeValue (s : State) (argument : String) : Except Stop State :=
  match s.pending with
  | .awaiting setting => .ok { s with pending := .value setting argument }
  | _ => s.takePositional argument

/-- Takes the next argument. A dash alone is no option. -/
def State.take (s : State) (argument : String) : Except Stop State :=
  if s.escaped then s.takePositional argument
  else match argument.toList with
    | ['-', '-'] => .ok { s with escaped := true }
    | '-' :: '-' :: cs => s.takeLong cs
    | '-' :: letter :: _ => s.takeShort letter
    | _ => s.takeValue argument

def State.takeAll (s : State) : List String → Except Stop State
  | [] => .ok s
  | argument :: rest =>
    match s.take argument with
    | .error e => .error e
    | .ok s' => s'.takeAll rest

/-- The settings with a frame limit from the environment, if none is given. -/
def Given.withEnvironment (g : Given) : Option String → Except Stop Given
  | none => .ok g
  | some value => if g.has .maxFrameSize then .ok g else g.assign .maxFrameSize value

/-- Fills in defaults; an interval of zero is none. -/
def Given.toConfig (g : Given) : Config where
  bind := g.bind.getD Config.default.bind
  tcpPort := g.tcpPort.getD Config.default.tcpPort
  maxFrameSize := g.maxFrameSize.getD Config.default.maxFrameSize
  sweepMillis := g.sweepMillis.filter (0 < ·)

/-- The configuration that the arguments and the environment give. -/
def read (arguments : List String) (environment : Option String) : Except Stop Config :=
  match State.start.takeAll arguments with
  | .error e => .error e
  | .ok s =>
    match s.settle with
    | .error e => .error e
    | .ok s' =>
      match s'.given.withEnvironment environment with
      | .error e => .error e
      | .ok g => .ok g.toConfig

end RespServer.CommandLine
