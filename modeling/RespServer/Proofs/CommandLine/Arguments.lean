import Mathlib.Data.List.TakeWhile
import RespServer.CommandLine.Reader

/-!
# What arguments give

Arguments give settings one behind the other: a positional argument gives the port number, an
option the setting it names, with its value attached or in the next argument. This is said
without the reader, and no arguments can be understood in two ways.
-/

namespace RespServer.CommandLine

/-- An argument that is taken for an option: a dash and something behind it. -/
def Dashed (argument : String) : Prop :=
  ∃ c cs, argument.toList = '-' :: c :: cs

/-- The settings that arguments give, each with its text. Behind two dashes all arguments are
positional. -/
inductive Gives : List String → List (Setting × String) → Prop
  | nothing : Gives [] []
  | positional {text : String} {arguments : List String} {given : List (Setting × String)}
      (htext : ¬ Dashed text) (hmore : Gives arguments given) :
      Gives (text :: arguments) ((.tcpPort, text) :: given)
  | attached {name text : String} {setting : Setting} {arguments : List String}
      {given : List (Setting × String)} (hname : Setting.ofOption? name = some setting)
      (hmore : Gives arguments given) :
      Gives (("--" ++ name ++ "=" ++ text) :: arguments) ((setting, text) :: given)
  | detached {name text : String} {setting : Setting} {arguments : List String}
      {given : List (Setting × String)} (hname : Setting.ofOption? name = some setting)
      (htext : ¬ Dashed text) (hmore : Gives arguments given) :
      Gives (("--" ++ name) :: text :: arguments) ((setting, text) :: given)
  | escaped {arguments : List String} :
      Gives ("--" :: arguments) (arguments.map fun text => (.tcpPort, text))

theorem Setting.of_ofOption? {name : String} {setting : Setting}
    (h : Setting.ofOption? name = some setting) :
    name = "bind" ∨ name = "reap-interval-ms" ∨ name = "max-frame-size" := by
  unfold Setting.ofOption? at h
  split at h <;> simp_all

theorem Setting.equals_notMem {name : String} {setting : Setting}
    (h : Setting.ofOption? name = some setting) : '=' ∉ name.toList := by
  rcases Setting.of_ofOption? h with rfl | rfl | rfl <;> decide

theorem Setting.ne_empty {name : String} {setting : Setting}
    (h : Setting.ofOption? name = some setting) : name ≠ "" := by
  rintro rfl
  cases h

theorem splitOption_of_notMem {name : String} (h : '=' ∉ name.toList) :
    splitOption name.toList = (name, none) := by
  have hall : ∀ c ∈ name.toList, decide (c ≠ '=') = true := by
    intro c hc
    exact decide_eq_true (ne_of_mem_of_not_mem hc h)
  rw [splitOption, List.takeWhile_eq_self_iff.mpr hall, List.dropWhile_eq_nil_iff.mpr hall,
    String.ofList_toList]

theorem splitOption_append {name : String} (h : '=' ∉ name.toList) (text : String) :
    splitOption (name.toList ++ '=' :: text.toList) = (name, some text) := by
  have hall : ∀ c ∈ name.toList, decide (c ≠ '=') = true := by
    intro c hc
    exact decide_eq_true (ne_of_mem_of_not_mem hc h)
  rw [splitOption, List.takeWhile_append_of_pos hall, List.dropWhile_append_of_pos hall]
  simp

/-- A long option is a name, or a name and a value behind the first equals sign. -/
theorem splitOption_cases (cs : List Char) :
    (∃ name : String, cs = name.toList ∧ splitOption cs = (name, none)) ∨
      ∃ name text : String, cs = name.toList ++ '=' :: text.toList ∧
        splitOption cs = (name, some text) := by
  by_cases hmem : '=' ∈ cs
  · obtain ⟨front, rest, rfl, hfront⟩ := List.eq_append_cons_of_mem hmem
    refine .inr ⟨String.ofList front, String.ofList rest, ?_⟩
    have hname : '=' ∉ (String.ofList front).toList := by rwa [String.toList_ofList]
    have hsplit := splitOption_append hname (String.ofList rest)
    rw [String.toList_ofList, String.toList_ofList] at hsplit ⊢
    exact ⟨rfl, hsplit⟩
  · have hname : '=' ∉ (String.ofList cs).toList := by rwa [String.toList_ofList]
    have hsplit := splitOption_of_notMem hname
    rw [String.toList_ofList] at hsplit
    exact .inl ⟨String.ofList cs, String.toList_ofList.symm, hsplit⟩

theorem toList_dashes_append (name : String) :
    ("--" ++ name).toList = '-' :: '-' :: name.toList :=
  String.toList_append

theorem attached_eq (name text : String) :
    "--" ++ name ++ "=" ++ text = "--" ++ (name ++ "=" ++ text) := by
  rw [String.append_assoc, String.append_assoc, String.append_assoc]

theorem toList_attached (name text : String) :
    (name ++ "=" ++ text).toList = name.toList ++ '=' :: text.toList := by
  rw [String.toList_append, String.toList_append, List.append_assoc]
  rfl

theorem attached_ne_empty (name text : String) : name ++ "=" ++ text ≠ "" := by
  rw [Ne, ← String.toList_inj, toList_attached]
  exact List.append_ne_nil_of_right_ne_nil _ (List.cons_ne_nil _ _)

theorem dashed_append (name : String) : Dashed ("--" ++ name) :=
  ⟨'-', name.toList, toList_dashes_append name⟩

theorem dashed_attached (name text : String) : Dashed ("--" ++ name ++ "=" ++ text) := by
  rw [attached_eq]
  exact dashed_append _

/-- Every argument is one of four kinds. -/
theorem argument_cases (argument : String) :
    argument = "--" ∨ (∃ name, argument = "--" ++ name ∧ name ≠ "") ∨
      (∃ letter cs, argument.toList = '-' :: letter :: cs ∧ letter ≠ '-') ∨ ¬ Dashed argument := by
  by_cases hdashed : Dashed argument
  · obtain ⟨c, cs, hcs⟩ := hdashed
    by_cases hc : c = '-'
    · subst hc
      cases cs with
      | nil => exact .inl (String.toList_inj.mp hcs)
      | cons d ds =>
          have hchars : (String.ofList (d :: ds)).toList = d :: ds := String.toList_ofList
          refine .inr (.inl ⟨String.ofList (d :: ds), ?_, ?_⟩)
          · rw [← String.toList_inj, toList_dashes_append, hchars, hcs]
          · rw [Ne, ← String.toList_inj, hchars]
            exact List.cons_ne_nil d ds
    · exact .inr (.inr (.inl ⟨c, cs, hcs, hc⟩))
  · exact .inr (.inr (.inr hdashed))

/-- A long option, by its name and by the value that is attached. -/
def optionOf? (argument : String) : Option (String × Option String) :=
  match argument.toList with
  | '-' :: '-' :: c :: cs => some (splitOption (c :: cs))
  | _ => none

theorem optionOf?_append {name : String} (h : name ≠ "") :
    optionOf? ("--" ++ name) = some (splitOption name.toList) := by
  rw [optionOf?, toList_dashes_append]
  cases hname : name.toList with
  | nil => exact absurd (String.toList_inj.mp hname) h
  | cons c cs => rfl

section Named

variable {name : String} {setting : Setting} (hname : Setting.ofOption? name = some setting)
include hname

theorem optionOf?_detached : optionOf? ("--" ++ name) = some (name, none) := by
  rw [optionOf?_append (Setting.ne_empty hname),
    splitOption_of_notMem (Setting.equals_notMem hname)]

theorem optionOf?_attached (text : String) :
    optionOf? ("--" ++ name ++ "=" ++ text) = some (name, some text) := by
  rw [attached_eq, optionOf?_append (attached_ne_empty name text), toList_attached,
    splitOption_append (Setting.equals_notMem hname)]

variable {arguments : List String} {given : List (Setting × String)}

theorem Gives.of_attached {text : String}
    (h : Gives (("--" ++ name ++ "=" ++ text) :: arguments) given) :
    ∃ more, Gives arguments more ∧ given = (setting, text) :: more := by
  have hoption := optionOf?_attached hname text
  have hdashed := dashed_attached name text
  generalize "--" ++ name ++ "=" ++ text = argument at h hoption hdashed
  cases h with
  | positional htext _ => exact absurd hdashed htext
  | attached hname' hmore =>
      cases hoption.symm.trans (optionOf?_attached hname' _)
      cases hname.symm.trans hname'
      exact ⟨_, hmore, rfl⟩
  | detached hname' _ _ => cases hoption.symm.trans (optionOf?_detached hname')
  | escaped => cases hoption

theorem Gives.of_detached (h : Gives (("--" ++ name) :: arguments) given) :
    ∃ text more rest, arguments = text :: rest ∧ Gives rest more ∧
      given = (setting, text) :: more := by
  have hoption := optionOf?_detached hname
  have hdashed := dashed_append name
  generalize "--" ++ name = argument at h hoption hdashed
  cases h with
  | positional htext _ => exact absurd hdashed htext
  | attached hname' _ => cases hoption.symm.trans (optionOf?_attached hname' _)
  | detached hname' _ hmore =>
      cases hoption.symm.trans (optionOf?_detached hname')
      cases hname.symm.trans hname'
      exact ⟨_, _, _, rfl, hmore, rfl⟩
  | escaped => cases hoption

end Named

theorem Gives.of_dashes {arguments : List String} {given : List (Setting × String)}
    (h : Gives ("--" :: arguments) given) :
    given = arguments.map fun text => (.tcpPort, text) := by
  have hoption : optionOf? "--" = none := rfl
  have hdashed : Dashed "--" := ⟨'-', [], rfl⟩
  generalize "--" = argument at h hoption hdashed
  cases h with
  | positional htext _ => exact absurd hdashed htext
  | attached hname _ => cases hoption.symm.trans (optionOf?_attached hname _)
  | detached hname _ _ => cases hoption.symm.trans (optionOf?_detached hname)
  | escaped => rfl

/-- Arguments give one list of settings at most. -/
theorem Gives.unique {arguments : List String} {given given' : List (Setting × String)}
    (h : Gives arguments given) (h' : Gives arguments given') : given' = given := by
  induction h generalizing given' with
  | nothing =>
      cases h'
      rfl
  | positional htext _ ih =>
      cases h' with
      | positional _ hmore => rw [ih hmore]
      | attached _ _ => exact absurd (dashed_attached _ _) htext
      | detached _ _ _ => exact absurd (dashed_append _) htext
      | escaped => exact absurd ⟨'-', [], rfl⟩ htext
  | attached hname _ ih =>
      obtain ⟨more, hmore, rfl⟩ := h'.of_attached hname
      rw [ih hmore]
  | detached hname _ _ ih =>
      obtain ⟨_, more, _, heq, hmore, rfl⟩ := h'.of_detached hname
      cases heq
      rw [ih hmore]
  | escaped => exact h'.of_dashes

end RespServer.CommandLine
