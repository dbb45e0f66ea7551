import RespServer.Store.Chain

/-!
# The store

A fixed number of buckets, each with the chain of the entries whose key hashes
to it, and a count of all entries. Expiry is lazy: an expired entry answers no
read but stays linked until it is removed, written over or swept.
-/

namespace RespServer

structure Store where
  buckets : Array (List Entry)
  count : Nat

/-- How long a key has still to live. -/
inductive Lifetime where
  | missing
  | persistent
  | remaining (nanos : Nat)
  deriving DecidableEq

namespace Store

def defaultBuckets : Nat := 1024

/-- An empty store of at least one bucket. -/
def withBuckets (n : Nat) : Store :=
  ⟨Array.replicate (max n 1) [], 0⟩

def empty : Store := withBuckets defaultBuckets

/-- Starts at 5381; each byte multiplies by 33 and is added, modulo 2³². -/
def hash (key : Bytes) : UInt32 :=
  key.foldl (fun h b => h * 33 + b.toUInt32) 5381

def bucketIndex (s : Store) (key : Bytes) : Nat :=
  (hash key).toNat % s.buckets.size

/-- The chain of a key's bucket. -/
def chain (s : Store) (key : Bytes) : List Entry :=
  s.buckets[s.bucketIndex key]?.getD []

def find? (s : Store) (key : Bytes) : Option Entry :=
  Chain.find? key (s.chain key)

/-- Replaces the chain of a key's bucket. -/
def setChain (s : Store) (key : Bytes) (chain : List Entry) : Array (List Entry) :=
  s.buckets.setIfInBounds (s.bucketIndex key) chain

/-- Writes value and deadline of a key together. -/
def set (s : Store) (key value : Bytes) (deadline : Option Instant) : Store :=
  { buckets := s.setChain key (Chain.put ⟨key, value, deadline⟩ (s.chain key))
    count := if (s.find? key).isSome then s.count else s.count + 1 }

/-- Writes a key that expires after `duration`, if the clock reaches that far. -/
def setFor (s : Store) (now : Instant) (key value : Bytes) (duration : Nat) : Store :=
  s.set key value (now.after? duration)

/-- The entry of a key, unless it has expired. -/
def findLive? (s : Store) (now : Instant) (key : Bytes) : Option Entry :=
  (s.find? key).filter fun e => !e.expired now

def get? (s : Store) (now : Instant) (key : Bytes) : Option Bytes :=
  (s.findLive? now key).map Entry.value

def contains (s : Store) (now : Instant) (key : Bytes) : Bool :=
  (s.get? now key).isSome

/-- Unlinks a key, expired or not, and says whether it was there. -/
def remove (s : Store) (key : Bytes) : Bool × Store :=
  match Chain.unlink? key (s.chain key) with
  | none => (false, s)
  | some rest => (true, { buckets := s.setChain key rest, count := s.count - 1 })

/-- All linked entries, by bucket and then by place in the chain. -/
def entries (s : Store) : List Entry :=
  s.buckets.toList.flatten

/-- The keys that have not expired, in the order of `entries`. -/
def keys (s : Store) (now : Instant) : List Bytes :=
  (Chain.live now s.entries).map Entry.key

def lifetime (s : Store) (now : Instant) (key : Bytes) : Lifetime :=
  match s.findLive? now key with
  | none => .missing
  | some e =>
    match e.deadline with
    | none => .persistent
    | some d => .remaining (d.nanos - now.nanos).toNat

/-- The number of linked entries, expired ones included. -/
def size (s : Store) : Nat := s.count

def isEmpty (s : Store) : Bool := s.size == 0

/-- Unlinks every expired entry and returns how many there were. -/
def sweep (s : Store) (now : Instant) : Nat × Store :=
  let removed := Chain.expiredIn now s.buckets.toList
  (removed, { buckets := s.buckets.map (Chain.live now), count := s.count - removed })

theorem buckets_withBuckets_size (n : Nat) : (withBuckets n).buckets.size = max n 1 := by
  simp [withBuckets]

@[simp] theorem buckets_set_size (s : Store) (key value : Bytes) (deadline : Option Instant) :
    (s.set key value deadline).buckets.size = s.buckets.size := by
  simp [set, setChain]

@[simp] theorem buckets_remove_size (s : Store) (key : Bytes) :
    (s.remove key).2.buckets.size = s.buckets.size := by
  unfold remove
  split <;> simp [setChain]

@[simp] theorem buckets_sweep_size (s : Store) (now : Instant) :
    (s.sweep now).2.buckets.size = s.buckets.size := by
  simp [sweep]

end Store

end RespServer
