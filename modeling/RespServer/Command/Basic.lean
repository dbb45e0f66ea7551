import RespServer.Bytes

/-!
# Commands

What a client can ask for, and why a request can be refused.
-/

namespace RespServer

/-- A lifetime in seconds belongs to a `set` that expires. -/
inductive Command where
  | dbSize
  | delete (keys : List Bytes)
  | echo (message : Bytes)
  | existing (keys : List Bytes)
  | get (key : Bytes)
  | keys (pattern : Option Bytes)
  | ping (message : Option Bytes)
  | set (key value : Bytes) (seconds : Option Nat)
  | ttl (key : Bytes)
  deriving DecidableEq

namespace Command

inductive Name where
  | dbSize
  | delete
  | echo
  | existing
  | get
  | keys
  | ping
  | set
  | ttl
  deriving DecidableEq

/-- The name on the wire, in lower case. -/
def Name.text : Name → String
  | dbSize => "dbsize"
  | delete => "del"
  | echo => "echo"
  | existing => "exists"
  | get => "get"
  | keys => "keys"
  | ping => "ping"
  | set => "set"
  | ttl => "ttl"

def Name.all : List Name :=
  [dbSize, delete, echo, existing, get, keys, ping, set, ttl]

theorem Name.mem_all (n : Name) : n ∈ all := by
  cases n <;> decide

/-- The command that a byte string names, in any letter case. -/
def Name.ofBytes? (bytes : Bytes) : Option Name :=
  all.find? fun n => sameLetters bytes (asciiBytes n.text)

/-- The most elements a request may have, its name included. -/
def maxArguments : Nat := 10

/-- Why a request is not a command. -/
inductive Refusal where
  | invalidCommand
  | tooManyArguments
  | invalidArgumentType
  | unknownCommand (name : String)
  | wrongArity (name : Name)
  | notAnInteger
  | invalidExpireTime
  deriving DecidableEq

def Refusal.message : Refusal → String
  | invalidCommand => "ERR invalid command"
  | tooManyArguments => "ERR too many arguments"
  | invalidArgumentType => "ERR invalid argument type"
  | unknownCommand name => "ERR unknown command '" ++ name ++ "'"
  | wrongArity name => "ERR wrong number of arguments for '" ++ name.text ++ "' command"
  | notAnInteger => "ERR value is not an integer or out of range"
  | invalidExpireTime => "ERR invalid expire time in 'set' command"

end Command

end RespServer
