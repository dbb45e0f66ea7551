import RespServer.Proofs.Command.Counting

/-!
# The keys that a request touches

A request changes a store only if it is read as `SET` or `DEL`, and then only under the keys
that it names. A `SET` leaves the entries of all other keys at their places. What is answered
with an error has been refused before anything was done.
-/

namespace RespServer

namespace Chain

/-- A written entry takes the place of the one of its key, or comes behind all others. -/
theorem filter_put (entry : Entry) (chain : List Entry) :
    (put entry chain).filter (fun e => e.key != entry.key) =
      chain.filter fun e => e.key != entry.key := by
  induction chain with
  | nil => simp [put]
  | cons e rest ih =>
      rw [put]
      split
      · next he => simp [he]
      · rw [List.filter_cons, List.filter_cons, ih]

end Chain

namespace Store

/-- The chains of a store without the entries of a key. -/
def others (s : Store) (key : Bytes) : Array (List Entry) :=
  s.buckets.map fun chain => chain.filter fun e => e.key != key

section Set

variable {s : Store} (hs : s.WellFormed) (key value : Bytes) (deadline : Option Instant)
include hs

theorem WellFormed.others_set : (s.set key value deadline).others key = s.others key := by
  apply Array.ext_getElem?
  intro i
  simp only [others, Store.set, setChain, Array.getElem?_map, Array.getElem?_setIfInBounds]
  split
  · next hi =>
      have hlt : s.bucketIndex key < s.buckets.size := Nat.mod_lt _ hs.pos
      rw [← hi, getElem?_bucketIndex hs.pos, if_pos hlt, Option.map_some, Option.map_some]
      exact congrArg some (Chain.filter_put ⟨key, value, deadline⟩ (s.chain key))
  · rfl

theorem WellFormed.isSome_find?_iff : (s.find? key).isSome ↔ key ∈ s.linked := by
  rw [mem_linked_iff, Option.isSome_iff_exists]
  exact exists_congr fun e => hs.find?_eq_some_iff

theorem WellFormed.size_set :
    (s.set key value deadline).size = s.size + if key ∈ s.linked then 0 else 1 := by
  by_cases hkey : key ∈ s.linked
  · rw [if_pos hkey, size, Store.set, if_pos ((hs.isSome_find?_iff key).mpr hkey)]
    rfl
  · rw [if_neg hkey, size, Store.set, if_neg (mt (hs.isSome_find?_iff key).mp hkey)]
    rfl

end Set

end Store

namespace Command

variable {now : Instant} {s : Store}

theorem effect_eq_self {command : Command}
    (hset : ∀ key value seconds, command ≠ set key value seconds)
    (hdelete : ∀ targets, command ≠ delete targets) : command.effect now s = s := by
  cases command with
  | set key value seconds => exact absurd rfl (hset key value seconds)
  | delete targets => exact absurd rfl (hdelete targets)
  | _ => rfl

/-- A lifetime that is no positive number of 64 bits is refused, after everything before it
has been read. -/
theorem ofFrame_set_invalid {name option argument : Bytes} (key value : Bytes)
    (hname : Name.ofBytes? name = some .set) (hoption : sameLetters option (asciiBytes "ex"))
    (hargument : ∀ n, Decimal.readInt64 argument = .ok n → n.toInt ≤ 0) :
    ∃ refusal, ofFrame (.array ([name, key, value, option, argument].map .bulk)) =
      .error refusal := by
  have hread : ofFrame (.array ([name, key, value, option, argument].map .bulk)) =
      readSet key value option argument := by
    change ofParts [name, key, value, option, argument] = _
    rw [ofParts, hname]
    rfl
  rw [hread, readSet, if_pos hoption, readSeconds]
  cases hnumber : Decimal.readInt64 argument with
  | error _ => exact ⟨.notAnInteger, rfl⟩
  | ok n =>
      simp only [if_pos (hargument n hnumber)]
      exact ⟨.invalidExpireTime, rfl⟩

end Command

section Request

variable {now : Instant} {s : Store} {f : Frame}

theorem execute_snd_eq_self
    (hset : ∀ key value seconds, Command.ofFrame f ≠ .ok (.set key value seconds))
    (hdelete : ∀ targets, Command.ofFrame f ≠ .ok (.delete targets)) :
    (execute now s f).2 = s := by
  rw [execute_snd]
  cases hf : Command.ofFrame f with
  | error refusal => rfl
  | ok command =>
      rw [hf] at hset hdelete
      exact Command.effect_eq_self (fun key value seconds h => hset key value seconds (h ▸ rfl))
        fun targets h => hdelete targets (h ▸ rfl)

/-- An error is the message of a refusal. -/
theorem execute_fst_eq_error_iff {text : String} :
    (execute now s f).1 = .error text ↔
      ∃ refusal, Command.ofFrame f = .error refusal ∧ refusal.message = text := by
  rw [execute]
  cases Command.ofFrame f with
  | error refusal => simp
  | ok command => simp [command.execute_fst_ne_error now s text]

end Request

/-- Whatever is no `SET` and no `DEL` leaves the whole table as it was, and so does whatever is
answered with an error; that is exactly what is refused, even if only the last argument is
wrong. A `SET` leaves all entries of other keys in their chains and in their order and links a
key more if its own was not linked. A `DEL` leaves all entries of the keys that it does not
name. -/
theorem execute_footprint {s : Store} (hs : s.Reachable) (now : Instant) (f : Frame) :
    let reply := (execute now s f).1
    let s' := (execute now s f).2
    ((∀ key value seconds, Command.ofFrame f ≠ .ok (.set key value seconds)) →
      (∀ targets, Command.ofFrame f ≠ .ok (.delete targets)) → s' = s) ∧
    (∀ text, reply = .error text → s' = s) ∧
    (∀ text, reply = .error text ↔
      ∃ refusal, Command.ofFrame f = .error refusal ∧ refusal.message = text) ∧
    (∀ name key value option argument, Command.Name.ofBytes? name = some .set →
      sameLetters option (asciiBytes "ex") →
      (∀ n, Decimal.readInt64 argument = .ok n → n.toInt ≤ 0) →
      f = .array ([name, key, value, option, argument].map .bulk) →
      (∃ text, reply = .error text) ∧ s' = s) ∧
    (∀ key value seconds, Command.ofFrame f = .ok (.set key value seconds) →
      s'.others key = s.others key ∧ s'.size = s.size + if key ∈ s.linked then 0 else 1) ∧
    ∀ targets, Command.ofFrame f = .ok (.delete targets) →
      ∀ e, e.key ∉ targets → (e ∈ s'.entries ↔ e ∈ s.entries) := by
  intro reply s'
  have hwf := hs.wellFormed
  have hrefused : ∀ refusal, Command.ofFrame f = .error refusal → s' = s := by
    intro refusal hf
    simp only [s', execute, hf]
  refine ⟨execute_snd_eq_self, ?_, fun text => execute_fst_eq_error_iff, ?_, ?_, ?_⟩
  · intro text hreply
    obtain ⟨refusal, hf, -⟩ := execute_fst_eq_error_iff.mp hreply
    exact hrefused refusal hf
  · rintro name key value option argument hname hoption hargument rfl
    obtain ⟨refusal, hf⟩ := Command.ofFrame_set_invalid key value hname hoption hargument
    exact ⟨⟨_, execute_fst_eq_error_iff.mpr ⟨refusal, hf, rfl⟩⟩, hrefused refusal hf⟩
  · intro key value seconds hf
    have heffect : s' = Command.effect now s (.set key value seconds) := by
      rw [← Command.execute_snd]
      simp only [s', execute, hf]
    rw [heffect]
    exact ⟨hwf.others_set key value _, hwf.size_set key value _⟩
  · intro targets hf e he
    have heffect : s' = Command.effect now s (.delete targets) := by
      rw [← Command.execute_snd]
      simp only [s', execute, hf]
    rw [heffect]
    exact (Command.mem_entries_removeAll hwf).trans (and_iff_left he)

/-- In one chain of three keys a request is refused for its lifetime, a key is written over,
another one is added and the first is removed. -/
theorem execute_footprint_collision :
    let now : Instant := ⟨5⟩
    let word := fun text => asciiBytes text
    let request := fun s words => (execute now s (requestOf words)).2
    let s := request (request (request (Store.withBuckets 1) ["SET", "a", "1"])
      ["SET", "b", "2", "EX", "1"]) ["SET", "c", "3"]
    s.Reachable ∧ s.entries.map Entry.key = [word "a", word "b", word "c"] ∧
      ((∃ text, (execute now s (requestOf ["set", "b", "9", "Ex", "0"])).1 = .error text) ∧
        request s ["set", "b", "9", "Ex", "0"] = s) ∧
      request s ["TTL", "b"] = s ∧
      ((request s ["SET", "b", "9"]).others (word "b") = s.others (word "b") ∧
        (request s ["SET", "b", "9"]).size = s.size) ∧
      ((request s ["SET", "d", "9"]).others (word "d") = s.others (word "d") ∧
        (request s ["SET", "d", "9"]).size = s.size + 1) ∧
      ∀ e, e.key ∉ [word "a", word "x"] →
        (e ∈ (request s ["DEL", "a", "x"]).entries ↔ e ∈ s.entries) := by
  intro now word request s
  have hs : s.Reachable := (((Store.Reachable.new 1).execute now _).execute now _).execute now _
  have hkeys : s.entries.map Entry.key = [word "a", word "b", word "c"] := by decide
  have hzero : ∀ n, Decimal.readInt64 (word "0") = .ok n → n.toInt ≤ 0 := by
    intro n hn
    obtain rfl : 0 = n := Except.ok.inj hn
    decide
  obtain ⟨hread, -⟩ := execute_footprint hs now (requestOf ["TTL", "b"])
  obtain ⟨-, -, -, hinvalid, -⟩ :=
    execute_footprint hs now (requestOf ["set", "b", "9", "Ex", "0"])
  obtain ⟨-, -, -, -, hknown, -⟩ := execute_footprint hs now (requestOf ["SET", "b", "9"])
  obtain ⟨-, -, -, -, hnew, -⟩ := execute_footprint hs now (requestOf ["SET", "d", "9"])
  obtain ⟨-, -, -, -, -, hdelete⟩ := execute_footprint hs now (requestOf ["DEL", "a", "x"])
  refine ⟨hs, hkeys, ?_, ?_, ?_, ?_, ?_⟩
  · exact hinvalid (word "set") (word "b") (word "9") (word "Ex") (word "0") (by decide)
      (by decide) hzero rfl
  · exact hread nofun nofun
  · obtain ⟨hothers, hsize⟩ := hknown (word "b") (word "9") none rfl
    have hlinked : word "b" ∈ s.linked := by decide
    rw [if_pos hlinked] at hsize
    exact ⟨hothers, hsize⟩
  · obtain ⟨hothers, hsize⟩ := hnew (word "d") (word "9") none rfl
    have hlinked : word "d" ∉ s.linked := by decide
    rw [if_neg hlinked] at hsize
    exact ⟨hothers, hsize⟩
  · exact hdelete [word "a", word "x"] rfl

end RespServer
