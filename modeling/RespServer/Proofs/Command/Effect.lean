import RespServer.Command.Execution
import RespServer.Proofs.Store.Lookup

/-!
# Effects of commands

Only `set` and `delete` change a store. A `set` writes one key and links at most one
more; a `delete` unlinks as many keys as it counts.
-/

namespace RespServer

namespace Store

theorem size_set_le (s : Store) (key value : Bytes) (deadline : Option Instant) :
    (s.set key value deadline).size ≤ s.size + 1 := by
  rw [size, set]
  split
  · exact Nat.le_succ s.count
  · exact Nat.le_refl _

theorem size_sweep_le (s : Store) (now : Instant) : (s.sweep now).2.size ≤ s.size :=
  Nat.sub_le _ _

theorem WellFormed.remove_fst_add_size {s : Store} (hs : s.WellFormed) (key : Bytes) :
    (s.remove key).1.toNat + (s.remove key).2.size = s.size := by
  cases hfind : s.find? key with
  | none =>
      rw [remove_fst, remove_of_find?_eq_none key hfind, hfind]
      exact Nat.zero_add _
  | some found =>
      have hsome : (s.find? key).isSome := by rw [hfind]; rfl
      obtain ⟨e, -, hperm⟩ := hs.exists_perm_remove key hsome
      have hlength := hperm.length_eq
      rw [List.length_cons, ← (hs.remove key).count_eq, ← hs.count_eq] at hlength
      rw [remove_fst, hsome, size, size, ← hlength, Nat.add_comm]
      rfl

end Store

namespace Command

/-- The store after a command. -/
def effect (now : Instant) (s : Store) : Command → Store
  | delete targets => (removeAll targets s).2
  | set key value seconds =>
    s.set key value (seconds.bind fun n => now.after? (n * Instant.second))
  | _ => s

theorem execute_snd (now : Instant) (s : Store) (command : Command) :
    (command.execute now s).2 = command.effect now s := by
  cases command with
  | set key value seconds =>
      cases seconds with
      | none => rfl
      | some n => rfl
  | get key =>
      rw [execute]
      split
      · rfl
      · rfl
  | ping message =>
      cases message with
      | none => rfl
      | some text => rfl
  | _ => rfl

/-- Only a refusal is answered with an error. -/
theorem execute_fst_ne_error (now : Instant) (s : Store) (command : Command)
    (text : String) : (command.execute now s).1 ≠ .error text := by
  cases command with
  | get key =>
      rw [execute]
      split
      · nofun
      · nofun
  | ping message =>
      cases message with
      | none => nofun
      | some message => nofun
  | set key value seconds =>
      cases seconds with
      | none => nofun
      | some n => nofun
  | _ => nofun

theorem wellFormed_removeAll {s : Store} (hs : s.WellFormed) (targets : List Bytes) :
    (removeAll targets s).2.WellFormed := by
  induction targets generalizing s with
  | nil => exact hs
  | cons target targets ih => exact ih (hs.remove target)

theorem wellFormed_effect {s : Store} (hs : s.WellFormed) (now : Instant) (command : Command) :
    (command.effect now s).WellFormed := by
  cases command with
  | delete targets => exact wellFormed_removeAll hs targets
  | set key value seconds => exact hs.set key value _
  | _ => exact hs

/-- What a command leaves under a key, for the keys that it writes or removes. -/
def outcome? (now : Instant) (key : Bytes) : Command → Option (Option Entry)
  | delete targets => if targets.contains key then some none else none
  | set target value seconds =>
    if target = key then
      some (some ⟨target, value, seconds.bind fun n => now.after? (n * Instant.second)⟩)
    else none
  | _ => none

theorem find?_removeAll {s : Store} (hs : s.WellFormed) (targets : List Bytes) (key : Bytes) :
    (removeAll targets s).2.find? key = if key ∈ targets then none else s.find? key := by
  induction targets generalizing s with
  | nil => rfl
  | cons target targets ih =>
      change (removeAll targets (s.remove target).2).2.find? key = _
      rw [ih (hs.remove target), hs.find?_remove]
      by_cases hkey : key ∈ targets
      · rw [if_pos hkey, if_pos (List.mem_cons_of_mem target hkey)]
      · by_cases htarget : target = key
        · rw [if_neg hkey, if_pos htarget, if_pos (htarget ▸ List.mem_cons_self)]
        · have hnot : key ∉ target :: targets :=
            List.not_mem_cons_of_ne_of_not_mem (Ne.symm htarget) hkey
          rw [if_neg hkey, if_neg htarget, if_neg hnot]

/-- Under any other key a command leaves what was there. -/
theorem find?_effect {s : Store} (hs : s.WellFormed) (now : Instant) (command : Command)
    (key : Bytes) :
    (command.effect now s).find? key = (command.outcome? now key).getD (s.find? key) := by
  cases command with
  | delete targets =>
      rw [effect, find?_removeAll hs, outcome?]
      simp only [List.contains_iff_mem]
      split
      · rfl
      · rfl
  | set target value seconds =>
      rw [effect, hs.find?_set, outcome?]
      split
      · rfl
      · rfl
  | _ => rfl

theorem removeAll_fst_add_size {s : Store} (hs : s.WellFormed) (targets : List Bytes) :
    (removeAll targets s).1 + (removeAll targets s).2.size = s.size := by
  induction targets generalizing s with
  | nil => exact Nat.zero_add _
  | cons target targets ih =>
      have hrest := ih (hs.remove target)
      have hfirst := hs.remove_fst_add_size target
      change (removeAll targets (s.remove target).2).1 + (s.remove target).1.toNat +
        (removeAll targets (s.remove target).2).2.size = s.size
      omega

/-- A command links at most one more key. -/
theorem size_effect_le {s : Store} (hs : s.WellFormed) (now : Instant) (command : Command) :
    (command.effect now s).size ≤ s.size + 1 := by
  cases command with
  | delete targets =>
      have hsize := removeAll_fst_add_size hs targets
      change (removeAll targets s).2.size ≤ s.size + 1
      omega
  | set key value seconds => exact s.size_set_le key value _
  | _ => exact Nat.le_succ _

end Command

/-- A request that is refused leaves the store as it is. -/
theorem execute_snd (now : Instant) (s : Store) (request : Frame) :
    (execute now s request).2 =
      match Command.ofFrame request with
      | .ok command => command.effect now s
      | .error _ => s := by
  rw [execute]
  cases Command.ofFrame request with
  | ok command => exact command.execute_snd now s
  | error refusal => rfl

theorem wellFormed_execute {s : Store} (hs : s.WellFormed) (now : Instant) (request : Frame) :
    (execute now s request).2.WellFormed := by
  rw [execute_snd]
  cases Command.ofFrame request with
  | ok command => exact Command.wellFormed_effect hs now command
  | error refusal => exact hs

/-- A request links at most one more key. -/
theorem size_execute_le {s : Store} (hs : s.WellFormed) (now : Instant) (request : Frame) :
    (execute now s request).2.size ≤ s.size + 1 := by
  rw [execute_snd]
  cases Command.ofFrame request with
  | ok command => exact Command.size_effect_le hs now command
  | error refusal => exact Nat.le_succ _

end RespServer
