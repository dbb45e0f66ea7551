import RespServer.Command.Reader
import RespServer.Proofs.Command.Reply
import RespServer.Proofs.Text.Decimal
import RespServer.Proofs.Text.Lossy

/-!
# The table of commands

A request is checked for its shape, the number and the kinds of its elements and its name, in
this order. What is left is decided by a table with a row for each name: how many arguments
it takes, and what they mean.
-/

namespace RespServer.Command

/-- The bytes are the letters of the text, each in either case. -/
def AnyCase (text : String) (bytes : Bytes) : Prop :=
  List.Forall₂ (fun b c => b = c.toUInt8 ∨ b = c.toUpper.toUInt8) bytes text.toList

/-- The word that a command is called by. -/
inductive Called : Name → String → Prop
  | dbSize : Called .dbSize "dbsize"
  | delete : Called .delete "del"
  | echo : Called .echo "echo"
  | existing : Called .existing "exists"
  | get : Called .get "get"
  | keys : Called .keys "keys"
  | ping : Called .ping "ping"
  | set : Called .set "set"
  | ttl : Called .ttl "ttl"

/-- How many arguments a command takes. -/
def Name.Takes : Name → Nat → Prop
  | dbSize, n => n = 0
  | ping, n | keys, n => n ≤ 1
  | echo, n | get, n | ttl, n => n = 1
  | delete, n | existing, n => 1 ≤ n
  | set, n => n = 2 ∨ n = 4

/-- The name that a command is called by. -/
def name : Command → Name
  | dbSize => .dbSize
  | delete _ => .delete
  | echo _ => .echo
  | existing _ => .existing
  | get _ => .get
  | keys _ => .keys
  | ping _ => .ping
  | set _ _ _ => .set
  | ttl _ => .ttl

/-- The lifetime that a command gives to what it writes. -/
def seconds? : Command → Option Nat
  | set _ _ seconds => seconds
  | _ => none

/-- What a name and its arguments are read as. -/
inductive Row : Name → List Bytes → Except Refusal Command → Prop
  | wrongArity {n : Name} {given : List Bytes} (hcount : ¬ n.Takes given.length) :
      Row n given (.error (.wrongArity n))
  | plain {n : Name} {given : List Bytes} {command : Command} (hcount : n.Takes given.length)
      (hname : command.name = n) (harguments : command.arguments = given)
      (hseconds : command.seconds? = none) : Row n given (.ok command)
  | lasting {key value option argument : Bytes} (hoption : ¬ AnyCase "ex" option) :
      Row .set [key, value, option, argument] (.ok (.set key value none))
  | expiring {key value option argument : Bytes} {seconds : Int} (hoption : AnyCase "ex" option)
      (hnumeral : Decimal.Numeral argument seconds) (hpos : 0 < seconds) :
      Row .set [key, value, option, argument] (.ok (.set key value (some seconds.toNat)))
  | notAnInteger {key value option argument : Bytes} (hoption : AnyCase "ex" option)
      (hnumeral : ∀ seconds, ¬ Decimal.Numeral argument seconds) :
      Row .set [key, value, option, argument] (.error .notAnInteger)
  | invalidExpireTime {key value option argument : Bytes} {seconds : Int}
      (hoption : AnyCase "ex" option) (hnumeral : Decimal.Numeral argument seconds)
      (hpos : seconds ≤ 0) :
      Row .set [key, value, option, argument] (.error .invalidExpireTime)

/-- An unknown name is decoded with losses and put into upper case, and its line breaks become
blanks. -/
def ShownAs (given : Bytes) (shown : String) : Prop :=
  ∃ cs, Utf8.Lossy given cs ∧
    shown.toList = (cs.map Char.toUpper).map fun c => if c = '\r' ∨ c = '\n' then ' ' else c

/-- What a frame is read as. -/
inductive Reads : Frame → Except Refusal Command → Prop
  | invalidCommand {f : Frame} (hshape : ∀ g gs, f ≠ .array (g :: gs)) :
      Reads f (.error .invalidCommand)
  | tooManyArguments {fs : List Frame} (hcount : 10 < fs.length) :
      Reads (.array fs) (.error .tooManyArguments)
  | invalidArgumentType {fs : List Frame} (hcount : fs.length ≤ 10) {f : Frame} (hf : f ∈ fs)
      (hkind : ∀ payload, f ≠ .bulk payload) : Reads (.array fs) (.error .invalidArgumentType)
  | unknownCommand {first : Bytes} {given : List Bytes} (hcount : (first :: given).length ≤ 10)
      (hname : ∀ n word, Called n word → ¬ AnyCase word first) {shown : String}
      (hshown : ShownAs first shown) :
      Reads (.array ((first :: given).map .bulk)) (.error (.unknownCommand shown))
  | row {first : Bytes} {given : List Bytes} (hcount : (first :: given).length ≤ 10) {n : Name}
      {word : String} (hword : Called n word) (hname : AnyCase word first)
      {r : Except Refusal Command} (hrow : Row n given r) :
      Reads (.array ((first :: given).map .bulk)) r

theorem toNat_lowerByte (b : UInt8) :
    (lowerByte b).toNat = if 65 ≤ b.toNat ∧ b.toNat ≤ 90 then b.toNat + 32 else b.toNat := by
  rw [lowerByte]
  split
  · rw [UInt8.toNat_add, Nat.mod_eq_of_lt (by simp; omega)]
    rfl
  · rfl

theorem toNat_of_isLower {c : Char} (hc : c.isLower = true) : 97 ≤ c.toNat ∧ c.toNat ≤ 122 := by
  unfold Char.isLower at hc
  simpa [UInt32.le_iff_toNat_le] using hc

theorem toNat_toUpper {c : Char} (hc : c.isLower = true) : c.toUpper.toNat = c.toNat - 32 := by
  have hbounds := toNat_of_isLower hc
  have hletter : 'a'.val ≤ c.val ∧ c.val ≤ 'z'.val := by
    simpa [UInt32.le_iff_toNat_le] using hbounds
  have hdiff : ('A'.val - 'a'.val).toNat = 2 ^ 32 - 32 := by decide
  unfold Char.toUpper
  rw [dif_pos hletter, Char.toNat, UInt32.toNat_add, hdiff]
  rw [Char.toNat] at hbounds ⊢
  omega

/-- A lower-case letter in either case. -/
theorem lowerByte_eq_iff {c : Char} (hc : c.isLower = true) (b : UInt8) :
    lowerByte b = lowerByte c.toUInt8 ↔ b = c.toUInt8 ∨ b = c.toUpper.toUInt8 := by
  have hbounds := toNat_of_isLower hc
  have hbyte (d : Char) (hd : d.toNat < 256) : d.toUInt8.toNat = d.toNat := by
    rw [Char.toUInt8, UInt32.toNat_toUInt8]
    exact Nat.mod_eq_of_lt hd
  have hlower : c.toUInt8.toNat = c.toNat := hbyte c (by omega)
  have hupper : c.toUpper.toUInt8.toNat = c.toNat - 32 := by
    rw [hbyte _ (by rw [toNat_toUpper hc]; omega), toNat_toUpper hc]
  rw [← UInt8.toNat_inj, ← UInt8.toNat_inj, ← UInt8.toNat_inj, toNat_lowerByte, toNat_lowerByte,
    hlower, hupper]
  split <;> split <;> omega

theorem sameLetters_iff_anyCase {text : String} (htext : text.toList.all Char.isLower = true)
    {bytes : Bytes} : sameLetters bytes (asciiBytes text) = true ↔ AnyCase text bytes := by
  rw [sameLetters_iff, AnyCase, asciiBytes, List.map_map]
  generalize text.toList = cs at htext
  induction cs generalizing bytes with
  | nil => simp
  | cons c cs ih =>
      cases bytes with
      | nil => simp
      | cons b bytes =>
          rw [List.all_cons, Bool.and_eq_true] at htext
          rw [List.map_cons, List.map_cons, List.cons.injEq, List.forall₂_cons, ← ih htext.2,
            Function.comp_apply, lowerByte_eq_iff htext.1]

theorem called_iff {n : Name} {word : String} : Called n word ↔ n.text = word := by
  constructor
  · intro h
    cases h <;> rfl
  · rintro rfl
    cases n <;> constructor

theorem Name.isLower (n : Name) : n.text.toList.all Char.isLower = true := by
  cases n <;> decide

theorem Name.sameLetters_iff {bytes : Bytes} {n : Name} :
    sameLetters bytes (asciiBytes n.text) = true ↔ AnyCase n.text bytes :=
  sameLetters_iff_anyCase n.isLower

/-- No two commands share a name. -/
theorem Name.eq_of_lowerByte {n m : Name} (h : (asciiBytes n.text).map lowerByte =
    (asciiBytes m.text).map lowerByte) : n = m := by
  revert h
  cases n <;> cases m <;> decide

theorem Name.ofBytes?_eq_none_iff {bytes : Bytes} :
    Name.ofBytes? bytes = none ↔ ∀ n : Name, ¬ AnyCase n.text bytes := by
  simp only [Name.ofBytes?, List.find?_eq_none, Name.sameLetters_iff, Name.mem_all, true_imp_iff]

theorem Name.sameLetters_of_ofBytes? {bytes : Bytes} {n : Name} (h : Name.ofBytes? bytes = some n) :
    sameLetters bytes (asciiBytes n.text) = true :=
  List.find?_some (p := fun n : Name => sameLetters bytes (asciiBytes n.text)) h

theorem Name.ofBytes?_eq_some_iff {bytes : Bytes} {n : Name} :
    Name.ofBytes? bytes = some n ↔ AnyCase n.text bytes := by
  constructor
  · exact fun h => Name.sameLetters_iff.mp (Name.sameLetters_of_ofBytes? h)
  · intro h
    cases hm : Name.ofBytes? bytes with
    | none => exact absurd h (Name.ofBytes?_eq_none_iff.mp hm n)
    | some m =>
        have hletters := RespServer.sameLetters_iff.mp (Name.sameLetters_iff.mpr h)
        have hletters' := RespServer.sameLetters_iff.mp (Name.sameLetters_of_ofBytes? hm)
        rw [Name.eq_of_lowerByte (hletters'.symm.trans hletters)]

theorem shownAs_iff {given : Bytes} {shown : String} :
    ShownAs given shown ↔ shownName given = shown := by
  have hchar : ∀ c : Char, (if c.toUpper = '\r' ∨ c.toUpper = '\n' then ' ' else c.toUpper) =
      if c = '\r' ∨ c = '\n' then ' ' else c.toUpper := by
    intro c
    by_cases hbreak : c = '\r' ∨ c = '\n'
    · rcases hbreak with rfl | rfl <;> rfl
    · rw [if_neg hbreak, if_neg]
      rintro (hc | hc)
      · exact hbreak (.inl (eq_of_toUpper_eq (by decide) hc))
      · exact hbreak (.inr (eq_of_toUpper_eq (by decide) hc))
  simp only [ShownAs, Utf8.lossy_iff, exists_eq_left', List.map_map, Function.comp_def, hchar]
  rw [shownName, ← String.toList_inj, String.toList_ofList, eq_comm]

theorem exists_of_numeral {line : Bytes} {value : Int} (h : Decimal.Numeral line value) :
    ∃ i : Int64, Decimal.readInt64 line = .ok i ∧ i.toInt = value := by
  have hvalue : (Int64.ofInt value).toInt = value :=
    Int64.toInt_ofInt_of_le h.ge_min h.lt_max
  rw [← hvalue] at h
  exact ⟨Int64.ofInt value, Decimal.readInt64_eq_ok_iff.mpr h, hvalue⟩

theorem sameLetters_ex_iff {option : Bytes} :
    sameLetters option (asciiBytes "ex") = true ↔ AnyCase "ex" option :=
  sameLetters_iff_anyCase (by decide)

theorem row_readSet (key value option argument : Bytes) :
    Row .set [key, value, option, argument] (readSet key value option argument) := by
  rw [readSet]
  split
  · next hoption =>
      have hoption := sameLetters_ex_iff.mp hoption
      rw [readSeconds]
      cases hread : Decimal.readInt64 argument with
      | error e =>
          refine .notAnInteger hoption fun seconds hseconds => ?_
          obtain ⟨i, hi, -⟩ := exists_of_numeral hseconds
          rw [hread] at hi
          cases hi
      | ok i =>
          have hnumeral := Decimal.readInt64_eq_ok_iff.mp hread
          by_cases hpos : i.toInt ≤ 0
          · simp only [if_pos hpos]
            exact .invalidExpireTime hoption hnumeral hpos
          · simp only [if_neg hpos]
            exact .expiring hoption hnumeral (Int.not_le.mp hpos)
  · next hoption => exact .lasting fun h => hoption (sameLetters_ex_iff.mpr h)

theorem ofArguments_of_not_takes {n : Name} {given : List Bytes} (h : ¬ n.Takes given.length) :
    ofArguments n given = .error (.wrongArity n) := by
  unfold ofArguments
  split
  case h_13 => rfl
  all_goals exact absurd (by simp [Name.Takes]) h

/-- Each name has its row. -/
theorem row_ofArguments (n : Name) (given : List Bytes) : Row n given (ofArguments n given) := by
  by_cases h : n.Takes given.length
  · cases n with
    | dbSize =>
        obtain rfl := List.length_eq_zero_iff.mp h
        exact .plain h rfl rfl rfl
    | delete =>
        obtain ⟨key, more, rfl⟩ := List.exists_cons_of_length_pos h
        exact .plain h rfl rfl rfl
    | echo =>
        obtain ⟨message, rfl⟩ := List.length_eq_one_iff.mp h
        exact .plain h rfl rfl rfl
    | existing =>
        obtain ⟨key, more, rfl⟩ := List.exists_cons_of_length_pos h
        exact .plain h rfl rfl rfl
    | get =>
        obtain ⟨key, rfl⟩ := List.length_eq_one_iff.mp h
        exact .plain h rfl rfl rfl
    | keys =>
        rcases Nat.le_one_iff_eq_zero_or_eq_one.mp h with h' | h'
        · obtain rfl := List.length_eq_zero_iff.mp h'
          exact .plain h rfl rfl rfl
        · obtain ⟨pattern, rfl⟩ := List.length_eq_one_iff.mp h'
          exact .plain h rfl rfl rfl
    | ping =>
        rcases Nat.le_one_iff_eq_zero_or_eq_one.mp h with h' | h'
        · obtain rfl := List.length_eq_zero_iff.mp h'
          exact .plain h rfl rfl rfl
        · obtain ⟨message, rfl⟩ := List.length_eq_one_iff.mp h'
          exact .plain h rfl rfl rfl
    | set =>
        rcases id h with h' | h'
        · obtain ⟨key, value, rfl⟩ := List.length_eq_two.mp h'
          exact .plain h rfl rfl rfl
        · match given, h' with
          | [key, value, option, argument], _ => exact row_readSet key value option argument
    | ttl =>
        obtain ⟨key, rfl⟩ := List.length_eq_one_iff.mp h
        exact .plain h rfl rfl rfl
  · rw [ofArguments_of_not_takes h]
    exact .wrongArity h

theorem ofArguments_of_plain {command : Command}
    (hcount : command.name.Takes command.arguments.length) (hseconds : command.seconds? = none) :
    ofArguments command.name command.arguments = .ok command := by
  cases command with
  | delete targets =>
      obtain ⟨key, more, rfl⟩ := List.exists_cons_of_length_pos hcount
      rfl
  | existing targets =>
      obtain ⟨key, more, rfl⟩ := List.exists_cons_of_length_pos hcount
      rfl
  | keys pattern => cases pattern <;> rfl
  | ping message => cases message <;> rfl
  | set key value seconds =>
      obtain rfl : seconds = none := hseconds
      rfl
  | _ => rfl

/-- A name with arguments is read in one way only. -/
theorem Row.ofArguments_eq {n : Name} {given : List Bytes} {r : Except Refusal Command}
    (h : Row n given r) : ofArguments n given = r := by
  cases h with
  | wrongArity hcount => exact ofArguments_of_not_takes hcount
  | plain hcount hname harguments hseconds =>
      subst hname harguments
      exact ofArguments_of_plain hcount hseconds
  | @lasting key value option argument hoption =>
      change readSet key value option argument = _
      rw [readSet, if_neg (mt sameLetters_ex_iff.mp hoption)]
  | @expiring key value option argument seconds hoption hnumeral hpos =>
      obtain ⟨i, hread, rfl⟩ := exists_of_numeral hnumeral
      change readSet key value option argument = _
      simp only [readSet, if_pos (sameLetters_ex_iff.mpr hoption), readSeconds, hread,
        if_neg (Int.not_le.mpr hpos)]
  | @notAnInteger key value option argument hoption hnumeral =>
      change readSet key value option argument = _
      cases hread : Decimal.readInt64 argument with
      | ok i => exact absurd (Decimal.readInt64_eq_ok_iff.mp hread) (hnumeral _)
      | error e =>
          simp only [readSet, if_pos (sameLetters_ex_iff.mpr hoption), readSeconds, hread]
  | @invalidExpireTime key value option argument seconds hoption hnumeral hpos =>
      obtain ⟨i, hread, rfl⟩ := exists_of_numeral hnumeral
      change readSet key value option argument = _
      simp only [readSet, if_pos (sameLetters_ex_iff.mpr hoption), readSeconds, hread, if_pos hpos]

theorem mapM_payload?_map_bulk (parts : List Bytes) :
    (parts.map .bulk).mapM payload? = some parts := by
  induction parts with
  | nil => rfl
  | cons part parts ih =>
      rw [List.map_cons, List.mapM_cons, ih]
      rfl

theorem exists_of_mapM_payload?_eq_none {fs : List Frame} (h : fs.mapM payload? = none) :
    ∃ f ∈ fs, ∀ payload, f ≠ .bulk payload := by
  induction fs with
  | nil => cases h
  | cons f fs ih =>
      cases f with
      | bulk payload =>
          rw [List.mapM_cons] at h
          have hrest : fs.mapM payload? = none := by
            cases hrest : fs.mapM payload? with
            | none => rfl
            | some parts =>
                rw [hrest] at h
                cases h
          obtain ⟨g, hg, hkind⟩ := ih hrest
          exact ⟨g, List.mem_cons_of_mem _ hg, hkind⟩
      | _ => exact ⟨_, List.mem_cons_self, nofun⟩

theorem mapM_payload?_eq_none_iff {fs : List Frame} :
    fs.mapM payload? = none ↔ ∃ f ∈ fs, ∀ payload, f ≠ .bulk payload := by
  refine ⟨exists_of_mapM_payload?_eq_none, ?_⟩
  rintro ⟨f, hf, hkind⟩
  cases h : fs.mapM payload? with
  | none => rfl
  | some parts =>
      rw [mapM_payload?_eq_some h, List.mem_map] at hf
      obtain ⟨payload, -, rfl⟩ := hf
      exact absurd rfl (hkind payload)

section Array

variable {fs : List Frame}

theorem ofFrame_of_gt (h : 10 < fs.length) : ofFrame (.array fs) = .error .tooManyArguments := by
  cases fs with
  | nil => exact absurd h (by decide)
  | cons f fs => exact if_pos h

theorem ofFrame_of_le (hne : fs ≠ []) (h : fs.length ≤ 10) :
    ofFrame (.array fs) = match fs.mapM payload? with
      | none => .error .invalidArgumentType
      | some parts => ofParts parts := by
  cases fs with
  | nil => exact absurd rfl hne
  | cons f fs => exact if_neg (Nat.not_lt.mpr h)

end Array

theorem ofFrame_request {first : Bytes} {given : List Bytes} (h : (first :: given).length ≤ 10) :
    ofFrame (.array ((first :: given).map .bulk)) = ofParts (first :: given) := by
  have hne : (first :: given).map Frame.bulk ≠ [] := List.cons_ne_nil _ _
  rw [ofFrame_of_le hne (by rwa [List.length_map]), mapM_payload?_map_bulk]

theorem Reads.ofFrame_eq {f : Frame} {r : Except Refusal Command} (h : Reads f r) :
    ofFrame f = r := by
  cases h with
  | invalidCommand hshape =>
      unfold ofFrame
      split
      · exact absurd rfl (hshape _ _)
      · rfl
  | tooManyArguments hcount => exact ofFrame_of_gt hcount
  | invalidArgumentType hcount hf hkind =>
      rw [ofFrame_of_le (List.ne_nil_of_mem hf) hcount,
        mapM_payload?_eq_none_iff.mpr ⟨_, hf, hkind⟩]
  | unknownCommand hcount hname hshown =>
      have hnone : ∀ n : Name, ¬ AnyCase n.text _ := fun n => hname n _ (called_iff.mpr rfl)
      rw [ofFrame_request hcount, ofParts, Name.ofBytes?_eq_none_iff.mpr hnone,
        ← shownAs_iff.mp hshown]
  | row hcount hword hname hrow =>
      rw [← called_iff.mp hword] at hname
      rw [ofFrame_request hcount, ofParts, Name.ofBytes?_eq_some_iff.mpr hname]
      exact hrow.ofArguments_eq

/-- A request within the bound on its elements has a row, or its name is unknown. -/
theorem reads_request {first : Bytes} {given : List Bytes} (h : (first :: given).length ≤ 10) :
    Reads (.array ((first :: given).map .bulk)) (ofParts (first :: given)) := by
  rw [ofParts]
  cases hname : Name.ofBytes? first with
  | none =>
      refine .unknownCommand h ?_ (shownAs_iff.mpr rfl)
      intro n word hword
      rw [← called_iff.mp hword]
      exact Name.ofBytes?_eq_none_iff.mp hname n
  | some n =>
      exact .row h (called_iff.mpr rfl) (Name.ofBytes?_eq_some_iff.mp hname)
        (row_ofArguments n given)

/-- Every frame is read as something. -/
theorem exists_reads (f : Frame) : ∃ r, Reads f r := by
  by_cases hshape : ∀ g gs, f ≠ .array (g :: gs)
  · exact ⟨_, .invalidCommand hshape⟩
  · simp only [not_forall, not_not] at hshape
    obtain ⟨g, gs, rfl⟩ := hshape
    rcases Nat.lt_or_ge 10 (g :: gs).length with hcount | hcount
    · exact ⟨_, .tooManyArguments hcount⟩
    · cases hparts : (g :: gs).mapM payload? with
      | none =>
          obtain ⟨f, hf, hkind⟩ := mapM_payload?_eq_none_iff.mp hparts
          exact ⟨_, .invalidArgumentType hcount hf hkind⟩
      | some parts =>
          have heq := mapM_payload?_eq_some hparts
          cases parts with
          | nil => cases heq
          | cons first given =>
              rw [heq, List.length_map] at hcount
              rw [heq]
              exact ⟨_, reads_request hcount⟩

/-- A frame is read as the table says, and the checks come in this order: shape, number of
elements, their kinds, name, number of arguments, lifetime. The name that a refusal shows is
the word for the command, in lower case. -/
theorem ofFrame_eq_iff_reads (f : Frame) :
    (∀ r, ofFrame f = r ↔ Reads f r) ∧
      ∀ n : Name, Called n n.text ∧ n.text.toList.all Char.isLower = true := by
  refine ⟨fun r => ⟨?_, Reads.ofFrame_eq⟩, fun n => ⟨called_iff.mpr rfl, n.isLower⟩⟩
  rintro rfl
  obtain ⟨r, hr⟩ := exists_reads f
  rwa [hr.ofFrame_eq]

end RespServer.Command
