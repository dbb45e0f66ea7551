import RespServer.Store.Reaper

/-!
# A store in time

A keyspace is a store on a clock, with the reapers that were spawned on it. Time
passes only when the clock is advanced; then every reaper does what has become
due.
-/

namespace RespServer

/-- The flag `held` is false once every handle to the store is dropped. -/
structure Keyspace where
  now : Instant
  store : Store
  held : Bool
  reapers : List Reaper

namespace Keyspace

def new (now : Instant) (store : Store) : Keyspace :=
  ⟨now, store, true, []⟩

/-- The reapers run one behind the other on the same store. -/
def runAll (held : Bool) (now : Instant) : List Reaper → Store → List Reaper × Store
  | [], s => ([], s)
  | r :: rest, s =>
    let (r', s') := r.run held now s
    let (rest', s'') := runAll held now rest s'
    (r' :: rest', s'')

/-- Lets the reapers do what is due. -/
def runReapers (k : Keyspace) : Keyspace :=
  let (reapers, store) := runAll k.held k.now k.reapers k.store
  { k with store, reapers }

def spawn (k : Keyspace) (r : Reaper) : Keyspace :=
  runReapers { k with reapers := k.reapers ++ [r] }

def spawnReaper (k : Keyspace) (millis : Nat) : Keyspace :=
  k.spawn (Reaper.new millis k.now)

def advance (k : Keyspace) (duration : Nat) : Keyspace :=
  runReapers { k with now := k.now.after duration }

/-- Drops the last handle to the store. -/
def release (k : Keyspace) : Keyspace :=
  { k with held := false }

def finished (k : Keyspace) : List Bool :=
  k.reapers.map Reaper.finished

end Keyspace

end RespServer
