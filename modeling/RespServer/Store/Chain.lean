import RespServer.Bytes
import RespServer.Clock

/-!
# Chains of entries

A chain holds the entries of one bucket. A new key goes to the end, a known key
keeps its place, and the last entry fills the place of a removed one.
-/

namespace RespServer

/-- A value under its key; without a deadline it stays until it is removed. -/
structure Entry where
  key : Bytes
  value : Bytes
  deadline : Option Instant
  deriving DecidableEq

def Entry.expired (now : Instant) (e : Entry) : Bool :=
  e.deadline.any fun d => d.reached now

namespace Chain

def find? (key : Bytes) (chain : List Entry) : Option Entry :=
  chain.find? fun e => e.key == key

/-- Writes an entry over the one of its key, or at the end. -/
def put (entry : Entry) : List Entry → List Entry
  | [] => [entry]
  | e :: rest => if e.key = entry.key then entry :: rest else e :: put entry rest

/-- The last entry in front of the others. -/
def lastFirst (chain : List Entry) : List Entry :=
  match chain.getLast? with
  | none => []
  | some last => last :: chain.dropLast

/-- The chain without the entry of a key, if there is one. -/
def unlink? (key : Bytes) : List Entry → Option (List Entry)
  | [] => none
  | e :: rest =>
    if e.key = key then some (lastFirst rest)
    else (unlink? key rest).map (e :: ·)

/-- The entries that have not expired, in order. -/
def live (now : Instant) (chain : List Entry) : List Entry :=
  chain.filter fun e => !e.expired now

/-- How many entries of the chains have expired. -/
def expiredIn (now : Instant) (chains : List (List Entry)) : Nat :=
  chains.foldl (fun n c => n + (c.length - (live now c).length)) 0

@[simp] theorem find?_nil (key : Bytes) : find? key [] = none := rfl

theorem find?_cons (key : Bytes) (e : Entry) (rest : List Entry) :
    find? key (e :: rest) = if e.key = key then some e else find? key rest := by
  by_cases h : e.key = key <;> simp [find?, h]

/-- What a written chain answers for each key. -/
theorem find?_put (entry : Entry) (chain : List Entry) (key : Bytes) :
    find? key (put entry chain) = if entry.key = key then some entry else find? key chain := by
  induction chain with
  | nil => rw [put, find?_cons]
  | cons e rest ih =>
      rw [put]
      by_cases he : e.key = entry.key
      · rw [if_pos he, find?_cons, find?_cons, he]
        by_cases hk : entry.key = key <;> simp [hk]
      · rw [if_neg he, find?_cons, find?_cons, ih]
        by_cases hk : entry.key = key
        · have : e.key ≠ key := fun h => he (h.trans hk.symm)
          rw [if_neg this, if_pos hk, if_pos hk]
        · rw [if_neg hk, if_neg hk]

theorem lastFirst_perm (chain : List Entry) : (lastFirst chain).Perm chain := by
  unfold lastFirst
  split
  · next h => rw [List.getLast?_eq_none_iff.mp h]
  · next last h =>
      obtain ⟨front, rfl⟩ := List.getLast?_eq_some_iff.mp h
      rw [List.dropLast_concat]
      exact (List.perm_append_singleton last front).symm

end Chain

end RespServer
