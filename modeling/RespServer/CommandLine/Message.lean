import RespServer.CommandLine.Basic
import RespServer.Text.Terminal

/-!
# Messages of the command line

Messages show what the user wrote as plain text, without control sequences.
-/

namespace RespServer.CommandLine

/-- What the user wrote, within a message. -/
def quoted (text : String) : String :=
  "'" ++ Terminal.plain text ++ "'"

/-- The usage of the program with some settings in use: the options among them in
their order, then the positional argument. -/
def usageWith (used : List Setting) : String :=
  if used.isEmpty then "[OPTIONS] [PORT]"
  else
    String.intercalate " " ((used.filter (· ≠ .tcpPort)).map Setting.label ++
      [if .tcpPort ∈ used then "<PORT>" else "[PORT]"])

/-- The usage of a flag, alone or beside settings. -/
def usageOfFlag (flag : Flag) (anyUsed : Bool) : String :=
  flag.label ++ " " ++
    if anyUsed then
      "<" ++ String.intercalate "|" ("PORT" ::
        [Setting.bind, Setting.sweepMillis, Setting.maxFrameSize].map Setting.label) ++ ">"
    else "[PORT]"

def usageLine (usage : String) : String := "\n\nUsage: respkv " ++ usage

def hintLine : String := "\n\nFor more information, try '--help'.\n"

def ValueError.message : ValueError → String
  | number e => e.message
  | tcpPortRange value => Decimal.text value.toInt ++ " is not in 1..=65535"
  | address => "invalid IP address syntax"

def UsageError.message : UsageError → String
  | invalidValue setting value cause =>
    "error: invalid value " ++ quoted value ++ " for '" ++ setting.label ++ "': " ++
      cause.message ++ hintLine
  | missingValue setting =>
    "error: a value is required for '" ++ setting.label ++ "' but none was supplied" ++ hintLine
  | repeated setting =>
    "error: the argument '" ++ setting.label ++ "' cannot be used multiple times" ++
      usageLine (usageWith []) ++ hintLine
  | unexpectedArgument argument =>
    "error: unexpected argument " ++ quoted argument ++ " found" ++
      usageLine (usageWith []) ++ hintLine
  | unknownOption name used =>
    "error: unexpected argument " ++ quoted name ++ " found\n\n  tip: to pass " ++ quoted name ++
      " as a value, use " ++ quoted ("-- " ++ name) ++ usageLine (usageWith used) ++ hintLine
  | unexpectedValue flag value anyUsed =>
    "error: unexpected value " ++ quoted value ++ " for '" ++ flag.label ++
      "' found; no more were expected" ++ usageLine (usageOfFlag flag anyUsed) ++ hintLine

def versionText : String := "respkv 0.1.0\n"

/-- Text with its later lines indented as the explanation of an option is. -/
def indented (text : String) : String :=
  String.ofList (text.toList.flatMap fun c =>
    if c = '\n' then c :: List.replicate 10 ' ' else [c])

/-- The help shows the value that the environment gives to the frame limit. A
control sequence left unfinished there reaches up to the next option. -/
def helpText (environment : Option String) : String :=
  "An in-memory key-value server speaking the Redis serialization protocol\n\n" ++
  "Usage: respkv [OPTIONS] [PORT]\n\n" ++
  "Arguments:\n" ++
  "  [PORT]  The port to listen on [default: 6379]\n\n" ++
  "Options:\n" ++
  "      --bind <BIND>\n" ++
  "          The address to bind to [default: 0.0.0.0]\n" ++
  "      --reap-interval-ms <REAP_INTERVAL_MS>\n" ++
  "          Sweep expired keys every this many milliseconds, 0 keeps expiration lazy " ++
    "[default: 0]\n" ++
  "      --max-frame-size <MAX_FRAME_SIZE>\n" ++
  "          The largest frame, in bytes, a client may send [env: MAX_FRAME_SIZE=" ++
    Terminal.plain (indented (environment.getD "") ++ "] [default: 536870912]\n  ") ++
  "-h, --help\n" ++
  "          Print help\n" ++
  "  -V, --version\n" ++
  "          Print version\n"

/-- The text that a stop prints. -/
def Stop.message (environment : Option String) : Stop → String
  | flag .help => helpText environment
  | flag .version => versionText
  | usage e => e.message

end RespServer.CommandLine
