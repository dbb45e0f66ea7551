import RespServer.Proofs.Store.RecordMap

/-!
# Runs on a store and on a finite map

A run is a list of operations on a clock that never goes back. The same run on a
store of any number of buckets and on a finite map of records gives the same
answers, except that the map lists the live keys in no order.
-/

namespace RespServer

namespace Store

/-- One operation of a run, or time passing. -/
inductive Operation where
  | set (key value : Bytes) (deadline : Option Instant)
  | setFor (key value : Bytes) (duration : Nat)
  | get (key : Bytes)
  | remove (key : Bytes)
  | contains (key : Bytes)
  | keys
  | lifetime (key : Bytes)
  | size
  | isEmpty
  | sweep
  | wait (duration : Nat)

/-- The answer to an operation; `κ` is the form in which keys are listed. -/
inductive Answer (κ : Type) where
  | done
  | value (v : Option Bytes)
  | flag (b : Bool)
  | keys (ks : κ)
  | lifetime (l : Lifetime)
  | number (n : Nat)

/-- Changes the form in which keys are listed. -/
def Answer.map {κ κ' : Type} (f : κ → κ') : Answer κ → Answer κ'
  | done => done
  | value v => value v
  | flag b => flag b
  | keys ks => keys (f ks)
  | lifetime l => lifetime l
  | number n => number n

/-- The clock after an operation. -/
def Operation.clock (now : Instant) : Operation → Instant
  | wait duration => now.after duration
  | _ => now

/-- The answers of a run that begins at `now`. -/
def answers {σ κ : Type} (step : Instant → σ → Operation → Answer κ × σ) (now : Instant)
    (state : σ) : List Operation → List (Answer κ)
  | [] => []
  | op :: ops =>
    let (answer, next) := step now state op
    answer :: answers step (op.clock now) next ops

/-- An operation on a store. -/
def step (now : Instant) (s : Store) : Operation → Answer (List Bytes) × Store
  | .set key value deadline => (.done, s.set key value deadline)
  | .setFor key value duration => (.done, s.setFor now key value duration)
  | .get key => (.value (s.get? now key), s)
  | .remove key => (.flag (s.remove key).1, (s.remove key).2)
  | .contains key => (.flag (s.contains now key), s)
  | .keys => (.keys (s.keys now), s)
  | .lifetime key => (.lifetime (s.lifetime now key), s)
  | .size => (.number s.size, s)
  | .isEmpty => (.flag s.isEmpty, s)
  | .sweep => (.number (s.sweep now).1, (s.sweep now).2)
  | .wait _ => (.done, s)

end Store

namespace RecordMap

open Store (Operation Answer)

/-- How long a visible record has still to live. -/
def lifetime (m : RecordMap) (now : Instant) (key : Bytes) : Lifetime :=
  match m.visible now key with
  | none => .missing
  | some ⟨_, none⟩ => .persistent
  | some ⟨_, some d⟩ => .remaining (d.nanos - now.nanos).toNat

/-- The end of a lifetime that begins now. The clock counts its seconds below 2^63, in
nanoseconds; a lifetime that ends later does not end. -/
def deadline (now : Instant) (duration : Nat) : Option Instant :=
  if now.nanos + duration < 9223372036854775808 * 1000000000 then some ⟨now.nanos + duration⟩
  else none

theorem deadline_eq (now : Instant) (duration : Nat) :
    deadline now duration = now.after? duration := by
  unfold deadline
  split
  · next h => exact (Instant.after?_eq_some_iff.mpr ⟨Int.le_sub_one_of_lt h, rfl⟩).symm
  · next h =>
      unfold Instant.after?
      exact (if_neg fun hle => h (Int.lt_of_le_sub_one hle)).symm

/-- The same operation on a finite map. -/
def step (now : Instant) (m : RecordMap) : Operation → Answer (Finset Bytes) × RecordMap
  | .set key value deadline => (.done, m.insert key ⟨value, deadline⟩)
  | .setFor key value duration => (.done, m.insert key ⟨value, deadline now duration⟩)
  | .get key => (.value ((m.visible now key).map Record.value), m)
  | .remove key => (.flag (decide (key ∈ m.keys)), m.erase key)
  | .contains key => (.flag (m.visible now key).isSome, m)
  | .keys => (.keys (m.keysWith (Record.live now)), m)
  | .lifetime key => (.lifetime (m.lifetime now key), m)
  | .size => (.number m.keys.card, m)
  | .isEmpty => (.flag (decide (m.keys = ∅)), m)
  | .sweep => (.number (m.keysWith fun r => !r.live now).card, m.retain (Record.live now))
  | .wait _ => (.done, m)

end RecordMap

namespace Store

variable {s : Store} {m : RecordMap}

theorem Represents.get?_eq (h : s.Represents m) (now : Instant) (key : Bytes) :
    s.get? now key = (m.visible now key).map Record.value := by
  rw [h.visible_eq, Option.map_map]
  rfl

theorem Represents.lifetime_eq (h : s.Represents m) (now : Instant) (key : Bytes) :
    s.lifetime now key = m.lifetime now key := by
  rw [Store.lifetime, RecordMap.lifetime, h.visible_eq]
  cases s.findLive? now key with
  | none => rfl
  | some e =>
      obtain ⟨_, _, _ | d⟩ := e
      · rfl
      · rfl

theorem Represents.remove_fst_eq (h : s.Represents m) (key : Bytes) :
    (s.remove key).1 = decide (key ∈ m.keys) := by
  rw [Store.remove_fst, Bool.eq_iff_iff, decide_eq_true_iff, m.mem_keys, h.lookup_eq,
    Option.isSome_map]

theorem Represents.isEmpty_eq (h : s.Represents m) : s.isEmpty = decide (m.keys = ∅) := by
  rw [Store.isEmpty, Bool.eq_iff_iff, beq_iff_eq, decide_eq_true_iff, ← h.card_keys,
    Finset.card_eq_zero]

/-- One operation: the answers agree and the store goes on representing the map. -/
theorem Represents.step (h : s.Represents m) (now : Instant) (op : Operation) :
    (s.step now op).1.map Multiset.ofList = (m.step now op).1.map Finset.val ∧
      (s.step now op).2.Represents (m.step now op).2 := by
  cases op with
  | set key value deadline => exact ⟨rfl, h.set key value deadline⟩
  | setFor key value duration =>
      refine ⟨rfl, ?_⟩
      rw [RecordMap.step, RecordMap.deadline_eq]
      exact h.set key value (now.after? duration)
  | get key => exact ⟨congrArg Answer.value (h.get?_eq now key), h⟩
  | remove key => exact ⟨congrArg Answer.flag (h.remove_fst_eq key), h.remove key⟩
  | contains key =>
      refine ⟨congrArg Answer.flag ?_, h⟩
      rw [contains, h.get?_eq, Option.isSome_map]
  | keys => exact ⟨congrArg Answer.keys (h.keys_val now).symm, h⟩
  | lifetime key => exact ⟨congrArg Answer.lifetime (h.lifetime_eq now key), h⟩
  | size => exact ⟨congrArg Answer.number h.card_keys.symm, h⟩
  | isEmpty => exact ⟨congrArg Answer.flag h.isEmpty_eq, h⟩
  | sweep => exact ⟨congrArg Answer.number (h.sweep_fst now).symm, h.sweep now⟩
  | wait duration => exact ⟨rfl, h⟩

/-- A run of any length on a store answers like the one on the map it represents. -/
theorem Represents.answers_eq (h : s.Represents m) (now : Instant) (ops : List Operation) :
    (answers Store.step now s ops).map (Answer.map Multiset.ofList) =
      (answers RecordMap.step now m ops).map (Answer.map Finset.val) := by
  induction ops generalizing now s m with
  | nil => rfl
  | cons op ops ih =>
      obtain ⟨hanswer, hnext⟩ := h.step now op
      simp only [answers, List.map_cons]
      rw [hanswer, ih hnext]

/-- The answers of every run on a store are those of the run on a finite map that
starts empty, the live keys being listed once each in some order. Two stores
differ in nothing but that order, whatever their numbers of buckets. -/
theorem answers_withBuckets (n : Nat) (now : Instant) (ops : List Operation) :
    (answers Store.step now (withBuckets n) ops).map (Answer.map Multiset.ofList) =
        (answers RecordMap.step now RecordMap.empty ops).map (Answer.map Finset.val) ∧
      ∀ n', (answers Store.step now (withBuckets n') ops).map (Answer.map Multiset.ofList) =
        (answers Store.step now (withBuckets n) ops).map (Answer.map Multiset.ofList) := by
  have hmap (k : Nat) := (represents_withBuckets k).answers_eq now ops
  refine ⟨hmap n, ?_⟩
  intro n'
  exact (hmap n').trans (hmap n).symm

end Store

end RespServer
