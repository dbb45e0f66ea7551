import RespServer.Text.Decimal

/-!
# Settings, flags and what may be wrong with arguments

The command line gives four settings, one of them by position, and knows two
flags that end it.
-/

namespace RespServer.CommandLine

inductive Setting where
  | tcpPort
  | bind
  | sweepMillis
  | maxFrameSize
  deriving DecidableEq

/-- How a setting is called in messages. -/
def Setting.label : Setting → String
  | tcpPort => "[PORT]"
  | bind => "--bind <BIND>"
  | sweepMillis => "--reap-interval-ms <REAP_INTERVAL_MS>"
  | maxFrameSize => "--max-frame-size <MAX_FRAME_SIZE>"

/-- The setting of a long option. -/
def Setting.ofOption? : String → Option Setting
  | "bind" => some bind
  | "reap-interval-ms" => some sweepMillis
  | "max-frame-size" => some maxFrameSize
  | _ => none

inductive Flag where
  | help
  | version
  deriving DecidableEq

def Flag.ofOption? : String → Option Flag
  | "help" => some help
  | "version" => some version
  | _ => none

def Flag.ofLetter? : Char → Option Flag
  | 'h' => some help
  | 'V' => some version
  | _ => none

def Flag.label : Flag → String
  | help => "--help"
  | version => "--version"

inductive ValueError where
  | number (e : Decimal.ReadError)
  | tcpPortRange (value : Int64)
  | address
  deriving DecidableEq

/-- Behind an unknown option stand the settings in use in front of it; behind an
unexpected value it is whether there are any. -/
inductive UsageError where
  | invalidValue (setting : Setting) (value : String) (cause : ValueError)
  | missingValue (setting : Setting)
  | repeated (setting : Setting)
  | unexpectedArgument (argument : String)
  | unknownOption (name : String) (used : List Setting)
  | unexpectedValue (flag : Flag) (value : String) (anyUsed : Bool)
  deriving DecidableEq

/-- Why the arguments give no configuration. -/
inductive Stop where
  | flag (f : Flag)
  | usage (e : UsageError)
  deriving DecidableEq

end RespServer.CommandLine
