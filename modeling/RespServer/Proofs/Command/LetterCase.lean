import RespServer.Command.Execution
import RespServer.Proofs.Command.Table

/-!
# Letter case

The names of commands and options stand for themselves in either case of each letter. Where a
name is unknown, it is decoded before it is put into upper case, so changing the case of a
letter must not change how the bytes next to it are decoded. Letters are those of ASCII.
-/

namespace RespServer

/-- The bytes are equal, or one is the capital and the other the small form of a letter. -/
def SameLetter (b c : UInt8) : Prop :=
  b = c ∨ (65 ≤ b.toNat ∧ b.toNat ≤ 90 ∧ c.toNat = b.toNat + 32) ∨
    (65 ≤ c.toNat ∧ c.toNat ≤ 90 ∧ b.toNat = c.toNat + 32)

/-- The byte strings differ at most in the case of letters. -/
def Recased (bytes bytes' : Bytes) : Prop :=
  List.Forall₂ SameLetter bytes bytes'

theorem sameLetter_iff {b c : UInt8} : SameLetter b c ↔ lowerByte b = lowerByte c := by
  rw [SameLetter, ← UInt8.toNat_inj, ← UInt8.toNat_inj, Command.toNat_lowerByte,
    Command.toNat_lowerByte]
  split <;> split <;> omega

theorem recased_iff {bytes bytes' : Bytes} :
    Recased bytes bytes' ↔ bytes.map lowerByte = bytes'.map lowerByte := by
  rw [← List.forall₂_eq_eq_eq, List.forall₂_map_left_iff, List.forall₂_map_right_iff]
  exact Iff.of_eq (congrArg (List.Forall₂ · bytes bytes') (by
    funext b c
    exact propext sameLetter_iff))

namespace Utf8

/-- What has been read is the same in upper case, and the same sequence is open. -/
structure Scanner.Alike (s t : Scanner) : Prop where
  read_eq : s.read.map (Option.map Char.toUpper) = t.read.map (Option.map Char.toUpper)
  pending_eq : s.pending = t.pending
  narrow : ∀ p ∈ s.pending, p.Narrow

theorem narrow_start {read : List (Option Char)} {n : Nat} :
    ∀ p ∈ (Scanner.start read n).pending, p.Narrow := by
  intro p hp
  unfold Scanner.start at hp
  split at hp
  · cases hp
  · split at hp
    · next hlead =>
        obtain rfl := Option.some.inj hp
        exact narrow_of_ofLead? hlead
    · cases hp

theorem narrow_feed (s : Scanner) (b : UInt8) : ∀ p ∈ (s.feed b).pending, p.Narrow := by
  obtain ⟨read, _ | ⟨bits, after, low, high⟩⟩ := s
  · exact narrow_start
  · by_cases hb : low ≤ b.toNat ∧ b.toNat ≤ high
    · cases after with
      | zero =>
          rw [feed_last hb]
          nofun
      | succ after =>
          rw [feed_continuation hb]
          intro p hp
          obtain rfl := Option.some.inj hp
          exact ⟨Nat.le_refl _, Nat.le_refl _⟩
    · rw [feed_refused hb]
      exact narrow_start

/-- An ASCII byte is read as its own character, behind what it leaves unfinished. -/
theorem feed_of_ascii {s : Scanner} (hs : ∀ p ∈ s.pending, p.Narrow) {b : UInt8}
    (hb : b.toNat < 0x80) :
    s.feed b = ⟨some (Char.ofNat b.toNat) :: (s.pending.toList.map (fun _ => none) ++ s.read),
      none⟩ := by
  obtain ⟨read, _ | p⟩ := s
  · exact feed_ascii hb
  · have hlow := (hs p rfl).ge_low
    rw [feed_refused (by omega), Scanner.start, if_pos hb]
    rfl

theorem toUpper_ofNat_of_sameLetter {b c : UInt8} (h : SameLetter b c) :
    (Char.ofNat b.toNat).toUpper = (Char.ofNat c.toNat).toUpper := by
  have hletter : ∀ n, 65 ≤ n → n ≤ 90 → (Char.ofNat n).toUpper = (Char.ofNat (n + 32)).toUpper := by
    decide
  rcases h with rfl | ⟨hge, hle, hc⟩ | ⟨hge, hle, hb⟩
  · rfl
  · rw [hc, hletter _ hge hle]
  · rw [hb, hletter _ hge hle]

theorem Scanner.Alike.feed {s t : Scanner} (h : s.Alike t) {b c : UInt8} (hbc : SameLetter b c) :
    (s.feed b).Alike (t.feed c) := by
  by_cases heq : b = c
  · subst heq
    obtain ⟨read, pending⟩ := s
    obtain ⟨read', pending'⟩ := t
    obtain ⟨hread, rfl, -⟩ := h
    refine ⟨?_, ?_, narrow_feed _ b⟩
    · rw [feed_read read, feed_read read', List.map_append, List.map_append, hread]
    · rw [feed_read read, feed_read read']
  · -- two different forms of a letter are both in ASCII and go on with no sequence
    have hb : b.toNat < 0x80 ∧ c.toNat < 0x80 := by
      rcases hbc with hbc | hbc | hbc
      · exact absurd hbc heq
      · omega
      · omega
    rw [feed_of_ascii h.narrow hb.1, feed_of_ascii (h.pending_eq ▸ h.narrow) hb.2]
    refine ⟨?_, rfl, nofun⟩
    simp only [List.map_cons, List.map_append, h.read_eq, h.pending_eq, Option.map_some,
      toUpper_ofNat_of_sameLetter hbc]

theorem Scanner.Alike.foldl_feed {s t : Scanner} (h : s.Alike t) {bytes bytes' : Bytes}
    (hbytes : Recased bytes bytes') :
    (bytes.foldl Scanner.feed s).Alike (bytes'.foldl Scanner.feed t) := by
  induction hbytes generalizing s t with
  | nil => exact h
  | cons hbc _ ih => exact ih (h.feed hbc)

/-- Letters in another case are decoded as letters in another case, and all else as before. -/
theorem map_toUpper_scan {bytes bytes' : Bytes} (h : Recased bytes bytes') :
    (scan bytes).map (Option.map Char.toUpper) = (scan bytes').map (Option.map Char.toUpper) := by
  have hstart : Scanner.Alike ⟨[], none⟩ ⟨[], none⟩ := ⟨rfl, rfl, nofun⟩
  obtain ⟨hread, hpending, -⟩ := hstart.foldl_feed h
  rw [scan, scan, Scanner.finish, Scanner.finish, hpending]
  split
  · rw [List.map_reverse, List.map_reverse, hread]
  · rw [List.map_reverse, List.map_reverse, List.map_cons, List.map_cons, hread]

theorem map_toUpper_decodeLossy {bytes bytes' : Bytes} (h : Recased bytes bytes') :
    (decodeLossy bytes).toList.map Char.toUpper = (decodeLossy bytes').toList.map Char.toUpper := by
  have hmark : Char.toUpper ∘ (fun c : Option Char => c.getD (Char.ofNat 0xFFFD)) =
      (fun c => c.getD (Char.ofNat 0xFFFD)) ∘ Option.map Char.toUpper := by
    funext c
    cases c with
    | none => rfl
    | some c => rfl
  rw [decodeLossy, decodeLossy, String.toList_ofList, String.toList_ofList, List.map_map,
    List.map_map, hmark, ← List.map_map, ← List.map_map, map_toUpper_scan h]

end Utf8

namespace Command

section Recased

variable {bytes bytes' : Bytes} (h : Recased bytes bytes')
include h

theorem sameLetters_recased (name : Bytes) : sameLetters bytes name = sameLetters bytes' name := by
  rw [sameLetters, sameLetters, recased_iff.mp h]

theorem Name.ofBytes?_recased : Name.ofBytes? bytes = Name.ofBytes? bytes' := by
  rw [Name.ofBytes?, Name.ofBytes?]
  congr 1
  funext n
  exact sameLetters_recased h (asciiBytes n.text)

/-- An unknown name is shown alike. -/
theorem shownName_recased : shownName bytes = shownName bytes' := by
  have hname := shownAs_iff.mpr (rfl : shownName bytes = shownName bytes)
  obtain ⟨cs, hcs, hshown⟩ := hname
  symm
  apply shownAs_iff.mp
  refine ⟨_, Utf8.lossy_iff.mpr rfl, ?_⟩
  rw [hshown, ← Utf8.lossy_iff.mp hcs, Utf8.map_toUpper_decodeLossy h]

theorem ofParts_recased (given : List Bytes) :
    ofParts (bytes :: given) = ofParts (bytes' :: given) := by
  rw [ofParts, ofParts, Name.ofBytes?_recased h, shownName_recased h]

theorem ofArguments_set_recased (key value : Bytes) (more : List Bytes) :
    ofArguments .set (key :: value :: bytes :: more) =
      ofArguments .set (key :: value :: bytes' :: more) := by
  match more with
  | [argument] =>
      change readSet key value bytes argument = readSet key value bytes' argument
      rw [readSet, readSet, sameLetters_recased h]
  | [] => rfl
  | _ :: _ :: _ => rfl

end Recased

/-- The requests differ at most in the case of letters, in the name and, if that is `set`, in
the option behind key and value. -/
inductive Variants : List Bytes → List Bytes → Prop
  | nil : Variants [] []
  | name {first first' : Bytes} (hfirst : Recased first first') (given : List Bytes) :
      Variants (first :: given) (first' :: given)
  | option {first first' : Bytes} (hset : AnyCase "set" first) (hfirst : Recased first first')
      (key value : Bytes) {option option' : Bytes} (hoption : Recased option option')
      (more : List Bytes) :
      Variants (first :: key :: value :: option :: more) (first' :: key :: value :: option' :: more)

theorem Variants.length_eq {parts parts' : List Bytes} (h : Variants parts parts') :
    parts.length = parts'.length := by
  cases h <;> rfl

theorem Variants.ofParts_eq {parts parts' : List Bytes} (h : Variants parts parts') :
    ofParts parts = ofParts parts' := by
  cases h with
  | nil => rfl
  | name hfirst given => exact ofParts_recased hfirst given
  | @option first first' hset hfirst key value option option' hoption more =>
      have hname : Name.ofBytes? first = some .set := Name.ofBytes?_eq_some_iff.mpr hset
      rw [ofParts_recased hfirst, ofParts, ofParts, ← Name.ofBytes?_recased hfirst, hname]
      exact ofArguments_set_recased hoption key value more

theorem ofFrame_map_bulk (parts : List Bytes) :
    ofFrame (.array (parts.map .bulk)) =
      if 10 < parts.length then .error .tooManyArguments else ofParts parts := by
  split
  · next hcount => exact ofFrame_of_gt (by rwa [List.length_map])
  · next hcount =>
      cases parts with
      | nil => rfl
      | cons first given => exact ofFrame_request (Nat.not_lt.mp hcount)

theorem Variants.ofFrame_eq {parts parts' : List Bytes} (h : Variants parts parts') :
    ofFrame (.array (parts.map .bulk)) = ofFrame (.array (parts'.map .bulk)) := by
  rw [ofFrame_map_bulk, ofFrame_map_bulk, h.length_eq, h.ofParts_eq]

/-- The letters of a name are in ASCII. -/
theorem toNat_lt_of_anyCase {n : Name} {bytes : Bytes} (h : AnyCase n.text bytes) :
    ∀ b ∈ bytes, b.toNat < 128 := by
  have hname :
      ((asciiBytes n.text).map lowerByte).all (fun b => decide (b.toNat < 128)) = true := by
    cases n <;> decide
  rw [← sameLetters_iff.mp (Name.sameLetters_iff.mpr h), List.all_eq_true] at hname
  intro b hb
  have hlower := of_decide_eq_true (hname _ (List.mem_map_of_mem hb))
  rw [toNat_lowerByte] at hlower
  split at hlower <;> omega

end Command

section Execute

variable (now : Instant) (s : Store)

theorem execute_unknown {first : Bytes} {given : List Bytes}
    (hcount : (first :: given).length ≤ 10)
    (h : ∀ n : Command.Name, ¬ Command.AnyCase n.text first) :
    ∃ shown, Command.ShownAs first shown ∧
      execute now s (.array ((first :: given).map .bulk)) =
        (.error ("ERR unknown command '" ++ shown ++ "'"), s) := by
  refine ⟨Command.shownName first, Command.shownAs_iff.mpr rfl, ?_⟩
  rw [execute, Command.ofFrame_request hcount, Command.ofParts,
    Command.Name.ofBytes?_eq_none_iff.mpr h]
  rfl

end Execute

/-- Requests that differ only in the letter case of the name, and of the option of a `set`, have
the same reply and leave the same store, whether they are executed or refused. A name that no
command has in ASCII, whatever it is folded to elsewhere, is unknown; so is every name with a
byte outside of ASCII. -/
theorem execute_letterCase {parts parts' : List Bytes} (h : Command.Variants parts parts')
    (now : Instant) (s : Store) :
    execute now s (.array (parts.map .bulk)) = execute now s (.array (parts'.map .bulk)) ∧
      (∀ first given, (first :: given).length ≤ 10 →
        (∀ n : Command.Name, ¬ Command.AnyCase n.text first) →
        ∃ shown, Command.ShownAs first shown ∧
          execute now s (.array ((first :: given).map .bulk)) =
            (.error ("ERR unknown command '" ++ shown ++ "'"), s)) ∧
      ∀ first, (∃ b ∈ first, 128 ≤ b.toNat) →
        ∀ n : Command.Name, ¬ Command.AnyCase n.text first := by
  refine ⟨?_, fun first given hcount hname => execute_unknown now s hcount hname, ?_⟩
  · rw [execute, h.ofFrame_eq, execute]
  · rintro first ⟨b, hb, hge⟩ n hn
    have hlt := Command.toNat_lt_of_anyCase hn b hb
    omega

/-- The lifetime of a `set` is read in either spelling. Between a broken character and a line
break the case of a letter does not show. The long s is no letter of a name. -/
theorem execute_letterCase_mixed :
    let now : Instant := ⟨5⟩
    let word := fun text => asciiBytes text
    let answer := fun parts : List Bytes =>
      execute now (Store.withBuckets 1) (.array (parts.map .bulk))
    let longS : Bytes := 0xC5 :: 0xBF :: word "et"
    answer [word "SET", word "k", word "v", word "EX", word "5"] =
        answer [word "sEt", word "k", word "v", word "eX", word "5"] ∧
      answer [[0xE2, 0x82, 0x61, 0x0D]] = answer [[0xE2, 0x82, 0x41, 0x0D]] ∧
      ∃ shown, Command.ShownAs longS shown ∧
        answer [longS, word "k", word "v"] =
          (.error ("ERR unknown command '" ++ shown ++ "'"), Store.withBuckets 1) := by
  intro now word answer longS
  have hname : Command.Name.ofBytes? (word "SET") = some .set := by decide
  have hset : Command.Variants [word "SET", word "k", word "v", word "EX", word "5"]
      [word "sEt", word "k", word "v", word "eX", word "5"] :=
    .option (Command.Name.ofBytes?_eq_some_iff.mp hname) (recased_iff.mpr (by decide)) _ _
      (recased_iff.mpr (by decide)) _
  have hbroken : Command.Variants [[0xE2, 0x82, 0x61, 0x0D]] [[0xE2, 0x82, 0x41, 0x0D]] :=
    .name (recased_iff.mpr (by decide)) []
  obtain ⟨hsame, hunknown, hforeign⟩ := execute_letterCase hset now (Store.withBuckets 1)
  refine ⟨hsame, (execute_letterCase hbroken now _).1, ?_⟩
  exact hunknown longS [word "k", word "v"] (by decide)
    (hforeign longS ⟨0xC5, List.mem_cons_self, by decide⟩)

end RespServer
