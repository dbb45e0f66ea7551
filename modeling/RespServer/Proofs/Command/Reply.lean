import RespServer.Proofs.Frame.RoundTrip
import RespServer.Proofs.Store.Usage

/-!
# Replies on the wire

What clients send comes back to them in payloads, which are written with their lengths,
and in the name of an unknown command, which is shown on one line. So no text of a reply
holds a line end, and a reply can be written as long as its elements can be counted.
-/

namespace RespServer

theorem Utf8.mem_toList_of_carriageReturn_mem {text : String}
    (h : carriageReturn ∈ text.toUTF8.data.toList) : '\r' ∈ text.toList := by
  rw [← encode_eq_toUTF8, encode, List.mem_flatMap] at h
  obtain ⟨c, hc, hbyte⟩ := h
  have hnat : '\r'.toNat = c.toNat := toNat_eq_of_mem_encodeChar hbyte (by decide)
  rwa [← Char.toNat_inj.mp hnat] at hc

theorem Frame.not_crlf_infix_of_notMem {text : String} (h : '\r' ∉ text.toList) :
    ¬ crlf <:+: text.toUTF8.data.toList := by
  intro hcrlf
  exact h (Utf8.mem_toList_of_carriageReturn_mem (hcrlf.subset List.mem_cons_self))

namespace Command

/-- Only letters become something in front of the letters. -/
theorem eq_of_toUpper_eq {c d : Char} (hd : d.toNat < 65) (h : c.toUpper = d) : c = d := by
  unfold Char.toUpper at h
  split at h
  · next hletter =>
      have hval := congrArg Char.toNat h
      simp only [Char.toNat, UInt32.le_iff_toNat_le] at hval hletter
      simp at hval hletter
      omega
  · exact h

theorem carriageReturn_notMem_shownName (name : Bytes) : '\r' ∉ (shownName name).toList := by
  intro h
  rw [shownName, String.toList_ofList, List.mem_map] at h
  obtain ⟨c, -, hc⟩ := h
  split at hc
  · exact absurd hc (by decide)
  · next hbreak => exact hbreak (.inl (eq_of_toUpper_eq (by decide) hc))

/-- The message holds no carriage return. -/
def Refusal.Plain (r : Refusal) : Prop :=
  '\r' ∉ r.message.toList

instance : DecidablePred Refusal.Plain := fun r =>
  inferInstanceAs (Decidable ('\r' ∉ r.message.toList))

theorem carriageReturn_notMem_append {front text back : String} (hfront : '\r' ∉ front.toList)
    (htext : '\r' ∉ text.toList) (hback : '\r' ∉ back.toList) :
    '\r' ∉ (front ++ text ++ back).toList := by
  simp only [String.toList_append, List.mem_append, not_or]
  exact ⟨⟨hfront, htext⟩, hback⟩

theorem Refusal.plain_unknownCommand (name : Bytes) : (unknownCommand (shownName name)).Plain :=
  carriageReturn_notMem_append (by decide) (carriageReturn_notMem_shownName name) (by decide)

theorem Refusal.plain_wrongArity (name : Name) : (wrongArity name).Plain := by
  have htext : '\r' ∉ name.text.toList := by
    cases name <;> decide
  exact carriageReturn_notMem_append (by decide) htext (by decide)

theorem plain_of_readSeconds {argument : Bytes} {r : Refusal}
    (h : readSeconds argument = .error r) : r.Plain := by
  unfold readSeconds at h
  split at h
  · cases h
    decide
  · split at h
    · cases h
      decide
    · cases h

theorem plain_of_readSet {key value option argument : Bytes} {r : Refusal}
    (h : readSet key value option argument = .error r) : r.Plain := by
  unfold readSet at h
  split at h
  · split at h
    · next hseconds =>
        cases h
        exact plain_of_readSeconds hseconds
    · cases h
  · cases h

theorem plain_of_ofArguments {name : Name} {arguments : List Bytes} {r : Refusal}
    (h : ofArguments name arguments = .error r) : r.Plain := by
  unfold ofArguments at h
  split at h
  case h_11 => exact plain_of_readSet h
  case h_13 =>
    cases h
    exact Refusal.plain_wrongArity name
  all_goals cases h

theorem plain_of_ofParts {parts : List Bytes} {r : Refusal} (h : ofParts parts = .error r) :
    r.Plain := by
  cases parts with
  | nil =>
      cases h
      decide
  | cons name arguments =>
      rw [ofParts] at h
      split at h
      · cases h
        exact Refusal.plain_unknownCommand name
      · exact plain_of_ofArguments h

/-- No client can break the line of a refusal. -/
theorem plain_of_ofFrame {f : Frame} {r : Refusal} (h : ofFrame f = .error r) : r.Plain := by
  unfold ofFrame at h
  split at h
  · split at h
    · cases h
      decide
    · split at h
      · cases h
        decide
      · exact plain_of_ofParts h
  · cases h
    decide

/-- The byte strings that a command was given. -/
def arguments : Command → List Bytes
  | dbSize => []
  | delete targets => targets
  | echo message => [message]
  | existing targets => targets
  | get key => [key]
  | keys pattern => pattern.toList
  | ping message => message.toList
  | set key value _ => [key, value]
  | ttl key => [key]

theorem arguments_of_readSet {key value option argument : Bytes} {command : Command}
    (h : readSet key value option argument = .ok command) : command.arguments = [key, value] := by
  unfold readSet at h
  split at h
  · split at h
    · cases h
    · cases h
      rfl
  · cases h
    rfl

theorem arguments_subset_of_ofArguments {name : Name} {given : List Bytes} {command : Command}
    (h : ofArguments name given = .ok command) : command.arguments ⊆ given := by
  unfold ofArguments at h
  split at h
  case h_11 =>
    rw [arguments_of_readSet h]
    simp
  case h_13 => cases h
  all_goals
    cases h
    exact List.Subset.refl _

theorem mapM_payload?_eq_some {fs : List Frame} {parts : List Bytes}
    (h : fs.mapM payload? = some parts) : fs = parts.map .bulk := by
  induction fs generalizing parts with
  | nil =>
      cases h
      rfl
  | cons f fs ih =>
      rw [List.mapM_cons] at h
      cases f with
      | bulk payload =>
          obtain ⟨payload', hpayload, hmore⟩ := Option.bind_eq_some_iff.mp h
          obtain ⟨rest, hrest, hparts⟩ := Option.bind_eq_some_iff.mp hmore
          cases hpayload
          cases hparts
          rw [ih hrest]
          rfl
      | _ => cases h

/-- What a command was given are payloads of its request. -/
theorem holds_of_mem_arguments {f : Frame} {command : Command} (h : ofFrame f = .ok command)
    {payload : Bytes} (hp : payload ∈ command.arguments) : f.Holds 1 (.bulk payload) := by
  unfold ofFrame at h
  split at h
  · split at h
    · cases h
    · split at h
      · cases h
      · next parts hparts =>
          rw [mapM_payload?_eq_some hparts]
          apply Frame.Holds.element (List.mem_map_of_mem ?_) .self
          cases parts with
          | nil => cases h
          | cons name given =>
              rw [ofParts] at h
              split at h
              · cases h
              · exact List.mem_cons_of_mem name (arguments_subset_of_ofArguments h hp)
  · cases h

end Command

/-- A well-formed store whose keys and values can be written as payloads. -/
structure Store.Writable (s : Store) : Prop where
  wellFormed : s.WellFormed
  fits : ∀ key e, s.find? key = some e → (Frame.bulk key).Fits ∧ (Frame.bulk e.value).Fits

theorem Command.mem_arguments_of_outcome? {now : Instant} {key : Bytes} {command : Command}
    {e : Entry} (h : command.outcome? now key = some (some e)) :
    key ∈ command.arguments ∧ e.value ∈ command.arguments := by
  cases command with
  | set target value seconds =>
      rw [outcome?] at h
      split at h
      · next htarget =>
          cases h
          exact ⟨htarget ▸ List.mem_cons_self, List.mem_cons_of_mem target List.mem_cons_self⟩
      · cases h
  | delete targets =>
      rw [outcome?] at h
      split at h
      · cases h
      · cases h
  | _ => cases h

namespace Store

theorem writable_withBuckets (n : Nat) : (withBuckets n).Writable where
  wellFormed := wellFormed_withBuckets n
  fits := by
    intro key e hfind
    rw [find?_withBuckets] at hfind
    cases hfind

namespace Writable

variable {s : Store} (hs : s.Writable) (now : Instant)
include hs

theorem sweep : (s.sweep now).2.Writable where
  wellFormed := hs.wellFormed.sweep now
  fits := by
    intro key e hfind
    rw [hs.wellFormed.find?_sweep, Option.filter_eq_some_iff] at hfind
    exact hs.fits key e hfind.1

/-- What a request leaves under a key was there before or is a payload of the request. -/
theorem execute {f : Frame} (hf : f.Writable 0) : (RespServer.execute now s f).2.Writable where
  wellFormed := hs.wellFormed.use now (.request f)
  fits := by
    intro key e hfind
    rw [execute_snd] at hfind
    cases hcommand : Command.ofFrame f with
    | error refusal =>
        rw [hcommand] at hfind
        exact hs.fits key e hfind
    | ok command =>
        simp only [hcommand, Command.find?_effect hs.wellFormed] at hfind
        cases houtcome : command.outcome? now key with
        | none =>
            rw [houtcome] at hfind
            exact hs.fits key e hfind
        | some written =>
            rw [houtcome, Option.getD_some] at hfind
            subst hfind
            obtain ⟨hkey, hvalue⟩ := Command.mem_arguments_of_outcome? houtcome
            have hpayload := fun payload hp =>
              (hf 1 (.bulk payload) (Command.holds_of_mem_arguments hcommand hp)).1
            exact ⟨hpayload key hkey, hpayload e.value hvalue⟩

theorem fits_of_get? {key value : Bytes} (hget : s.get? now key = some value) :
    (Frame.bulk key).Fits ∧ (Frame.bulk value).Fits := by
  rw [get?, Option.map_eq_some_iff] at hget
  obtain ⟨e, he, rfl⟩ := hget
  rw [findLive?, Option.filter_eq_some_iff] at he
  exact hs.fits key e he.1

end Writable

end Store

/-- What a request can be answered with. -/
inductive Answer (now : Instant) (s : Store) (request : Frame) : Frame → Prop
  | done {text : String} (hplain : '\r' ∉ text.toList) : Answer now s request (.simple text)
  | refused {text : String} (hplain : '\r' ∉ text.toList) : Answer now s request (.error text)
  | number (value : Int64) : Answer now s request (.integer value)
  | missing : Answer now s request .null
  | sent {payload : Bytes} (hsent : request.Holds 1 (.bulk payload)) :
      Answer now s request (.bulk payload)
  | stored {key value : Bytes} (hget : s.get? now key = some value) :
      Answer now s request (.bulk value)
  | listed : Answer now s request (.array ((s.keys now).map .bulk))

theorem Command.answer_execute (now : Instant) (s : Store) {f : Frame} {command : Command}
    (hf : ofFrame f = .ok command) : Answer now s f (command.execute now s).1 := by
  cases command with
  | dbSize => exact .number _
  | delete targets => exact .number _
  | echo message => exact .sent (holds_of_mem_arguments hf List.mem_cons_self)
  | existing targets => exact .number _
  | get key =>
      rw [execute]
      cases hget : s.get? now key with
      | none => exact .missing
      | some value => exact .stored hget
  | keys pattern => exact .listed
  | ping message =>
      cases message with
      | none => exact .done (by decide)
      | some text => exact .sent (holds_of_mem_arguments hf List.mem_cons_self)
  | set key value seconds =>
      cases seconds with
      | none => exact .done (by decide)
      | some n => exact .done (by decide)
  | ttl key => exact .number _

theorem answer_execute (now : Instant) (s : Store) (f : Frame) :
    Answer now s f (execute now s f).1 := by
  rw [execute]
  cases hf : Command.ofFrame f with
  | ok command => exact Command.answer_execute now s hf
  | error refusal => exact .refused (Command.plain_of_ofFrame hf)

namespace Answer

variable {now : Instant} {s : Store} {f reply : Frame}

/-- No text of a reply holds a line end, and a reply nests at most one level. -/
theorem oneLine (h : Answer now s f reply) :
    ∀ depth g, reply.Holds depth g → depth ≤ 1 ∧ g.OneLine := by
  cases h with
  | done hplain =>
      exact (Frame.forall_holds_iff (by nofun)).mpr
        ⟨Nat.zero_le 1, Frame.not_crlf_infix_of_notMem hplain⟩
  | refused hplain =>
      exact (Frame.forall_holds_iff (by nofun)).mpr
        ⟨Nat.zero_le 1, Frame.not_crlf_infix_of_notMem hplain⟩
  | listed =>
      refine Frame.forall_holds_array_iff.mpr ⟨⟨Nat.zero_le 1, trivial⟩, ?_⟩
      intro element helement
      obtain ⟨key, -, rfl⟩ := List.mem_map.mp helement
      exact (Frame.forall_holds_iff (by nofun)).mpr ⟨Nat.le_refl 1, trivial⟩
  | _ => exact (Frame.forall_holds_iff (by nofun)).mpr ⟨Nat.zero_le 1, trivial⟩

/-- All payloads of a reply are from the request or from the store. -/
theorem fits (h : Answer now s f reply) (hs : s.Writable) (hf : f.Writable 0)
    (hcount : ∀ elements, reply = .array elements → elements.length < 2 ^ 63) :
    ∀ depth g, reply.Holds depth g → g.Fits := by
  cases h with
  | sent hsent => exact (Frame.forall_holds_iff (by nofun)).mpr (hf 1 _ hsent).1
  | stored hget => exact (Frame.forall_holds_iff (by nofun)).mpr (hs.fits_of_get? now hget).2
  | listed =>
      refine Frame.forall_holds_array_iff.mpr ⟨hcount _ rfl, ?_⟩
      intro element helement
      obtain ⟨key, hkey, rfl⟩ := List.mem_map.mp helement
      obtain ⟨value, hget⟩ :=
        Option.isSome_iff_exists.mp ((hs.wellFormed.mem_keys_iff now).mp hkey)
      exact (Frame.forall_holds_iff (by nofun)).mpr (hs.fits_of_get? now hget).1
  | _ => exact (Frame.forall_holds_iff (by nofun)).mpr trivial

theorem writable (h : Answer now s f reply) (hs : s.Writable) (hf : f.Writable 0)
    (hcount : ∀ elements, reply = .array elements → elements.length < 2 ^ 63) :
    reply.Writable 0 := by
  intro depth g hg
  obtain ⟨hdepth, hline⟩ := h.oneLine depth g hg
  exact ⟨h.fits hs hf hcount depth g hg, by omega, hline⟩

/-- A list of keys is no longer than the store. -/
theorem length_le {elements : List Frame} (h : Answer now s f (.array elements))
    (hs : s.WellFormed) : elements.length ≤ s.size := by
  cases h with
  | listed =>
      rw [List.length_map, Store.keys, List.length_map, Store.size, hs.count_eq]
      exact List.length_filter_le _ _

end Answer

end RespServer
