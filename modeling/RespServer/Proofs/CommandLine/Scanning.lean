import RespServer.Proofs.CommandLine.Arguments
import RespServer.Proofs.CommandLine.Settings

/-!
# The reader of arguments

The reader takes the arguments that give settings and no others, and it assigns the texts to their
settings in the order in which they are given. What it does with one argument is said by a step;
what it has left to do behind a step is what the state still leads to.
-/

namespace RespServer.CommandLine

namespace State

variable {s s' : State} {argument : String}

/-- What has been given and is not assigned yet. -/
def unsettled (s : State) : List (Setting × String) :=
  match s.pending with
  | .value setting text => [(setting, text)]
  | _ => []

def Awaits (s : State) (setting : Setting) : Prop :=
  s.pending = .awaiting setting

/-- No option waits for its value. -/
def Ready (s : State) : Prop :=
  ∀ setting, ¬ s.Awaits setting

/-- What is pending can be done, and leads to these settings. -/
structure Settles (s : State) (g : Given) : Prop where
  ready : s.Ready
  assigns : s.given.assignAll s.unsettled = .ok g

/-- A state in which nothing is pending any more. -/
def settled (s : State) (g : Given) : State :=
  { s with given := g, order := s.order ++ s.unsettled.map Prod.fst, pending := .nothing }

theorem assign_eq_ok_iff {setting : Setting} {text : String} :
    s.assign setting text = .ok s' ↔
      ∃ g, s.given.assign setting text = .ok g ∧
        s' = { s with given := g, order := s.order ++ [setting] } := by
  rw [assign]
  cases s.given.assign setting text with
  | error e => exact ⟨nofun, fun ⟨_, h, _⟩ => nomatch h⟩
  | ok g =>
      constructor
      · intro h
        cases h
        exact ⟨g, rfl, rfl⟩
      · rintro ⟨g', hg, rfl⟩
        cases hg
        rfl

theorem settle_eq_ok_iff : s.settle = .ok s' ↔ ∃ g, s.Settles g ∧ s' = s.settled g := by
  obtain ⟨given, order, pending, positional, escaped⟩ := s
  cases pending with
  | nothing =>
      constructor
      · intro h
        cases h
        exact ⟨given, ⟨nofun, rfl⟩, by rw [settled, unsettled, List.map_nil, List.append_nil]⟩
      · rintro ⟨g, ⟨-, hg⟩, rfl⟩
        cases hg
        rw [settled, unsettled, List.map_nil, List.append_nil]
        rfl
  | awaiting setting => exact ⟨nofun, fun ⟨_, h, _⟩ => absurd rfl (h.ready setting)⟩
  | value setting text =>
      rw [settle, assign_eq_ok_iff]
      constructor
      · rintro ⟨g, hg, rfl⟩
        exact ⟨g, ⟨nofun, Given.assignAll_singleton.mpr hg⟩, rfl⟩
      · rintro ⟨g, ⟨-, hg⟩, rfl⟩
        exact ⟨g, Given.assignAll_singleton.mp hg, rfl⟩

theorem Settles.settle {g : Given} (h : s.Settles g) : s.settle = .ok (s.settled g) :=
  settle_eq_ok_iff.mpr ⟨g, h, rfl⟩

/-- What the reader does with an argument that it takes. An option or a positional argument
settles what was pending. -/
inductive Step (s : State) : String → State → Prop
  | escape (hopen : s.escaped = false) : Step s "--" { s with escaped := true }
  | detached {name : String} {setting : Setting} {g : Given} (hopen : s.escaped = false)
      (hname : Setting.ofOption? name = some setting) (hsettles : s.Settles g) :
      Step s ("--" ++ name) { s.settled g with pending := .awaiting setting }
  | attached {name text : String} {setting : Setting} {g g' : Given} (hopen : s.escaped = false)
      (hname : Setting.ofOption? name = some setting) (hsettles : s.Settles g)
      (hassign : g.assign setting text = .ok g') :
      Step s ("--" ++ name ++ "=" ++ text)
        { s.settled g with given := g', order := (s.settled g).order ++ [setting] }
  | value {text : String} {setting : Setting} (hopen : s.escaped = false) (htext : ¬ Dashed text)
      (hawaits : s.Awaits setting) : Step s text { s with pending := .value setting text }
  | positional {text : String} {g : Given} (htext : s.escaped = true ∨ ¬ Dashed text)
      (hfirst : s.positional = false) (hsettles : s.Settles g) :
      Step s text { s.settled g with pending := .value .tcpPort text, positional := true }

theorem takeFlag_ne_ok (flag : Flag) : s.takeFlag flag ≠ .ok s' := by
  rw [takeFlag]
  split <;> nofun

theorem takeShort_ne_ok (letter : Char) : s.takeShort letter ≠ .ok s' := by
  rw [takeShort]
  split
  · exact takeFlag_ne_ok _
  · nofun

/-- A long option that is taken names a setting, and what was pending is settled. -/
theorem exists_of_takeLong {cs : List Char} (h : s.takeLong cs = .ok s') :
    ∃ setting g, Setting.ofOption? (splitOption cs).1 = some setting ∧ s.Settles g ∧
      (match (splitOption cs).2 with
        | none => Except.ok { s.settled g with pending := .awaiting setting }
        | some text => (s.settled g).assign setting text) = .ok s' := by
  rw [takeLong] at h
  generalize splitOption cs = option at h ⊢
  obtain ⟨name, value⟩ := option
  cases hname : Setting.ofOption? name with
  | some setting =>
      simp only [hname] at h
      cases hsettle : s.settle with
      | error e =>
          rw [hsettle] at h
          cases h
      | ok middle =>
          obtain ⟨g, hsettles, rfl⟩ := settle_eq_ok_iff.mp hsettle
          rw [hsettle] at h
          refine ⟨setting, g, rfl, hsettles, ?_⟩
          cases value <;> exact h
  | none =>
      simp only [hname] at h
      split at h
      · exact absurd h (takeFlag_ne_ok _)
      · cases h
      · cases h

theorem takePositional_eq_ok_iff :
    s.takePositional argument = .ok s' ↔ s.positional = false ∧
      ∃ g, s.Settles g ∧
        s' = { s.settled g with pending := .value .tcpPort argument, positional := true } := by
  rw [takePositional]
  cases hpositional : s.positional with
  | true => simp
  | false =>
      rw [if_neg Bool.false_ne_true]
      constructor
      · intro h
        split at h
        · cases h
        · next hsettle =>
            obtain ⟨g, hsettles, rfl⟩ := settle_eq_ok_iff.mp hsettle
            cases h
            exact ⟨rfl, g, hsettles, rfl⟩
      · rintro ⟨-, g, hsettles, rfl⟩
        simp only [hsettles.settle]

/-- The argument behind an option that waits for a value is its value. -/
theorem takeValue_eq_ok_iff :
    s.takeValue argument = .ok s' ↔
      (∃ setting, s.Awaits setting ∧ s' = { s with pending := .value setting argument }) ∨
        s.takePositional argument = .ok s' := by
  rw [takeValue]
  split
  · next setting hpending =>
      constructor
      · intro h
        cases h
        exact .inl ⟨setting, hpending, rfl⟩
      · rintro (⟨setting', hpending', rfl⟩ | hpositional)
        · rw [Awaits, hpending] at hpending'
          cases hpending'
          rfl
        · obtain ⟨-, g, hsettles, -⟩ := takePositional_eq_ok_iff.mp hpositional
          exact absurd hpending (hsettles.ready setting)
  · next hpending =>
      constructor
      · exact .inr
      · rintro (⟨setting, hawaits, -⟩ | hpositional)
        · exact absurd hawaits (hpending setting)
        · exact hpositional

theorem take_of_escaped (h : s.escaped = true) (argument : String) :
    s.take argument = s.takePositional argument := by
  rw [take, if_pos h]

section Open

variable (hopen : s.escaped = false)
include hopen

theorem take_dashes : s.take "--" = .ok { s with escaped := true } := by
  rw [take, if_neg (by simp [hopen])]
  rfl

theorem take_append {name : String} (h : name ≠ "") :
    s.take ("--" ++ name) = s.takeLong name.toList := by
  rw [take, if_neg (by simp [hopen]), toList_dashes_append]
  cases hname : name.toList with
  | nil => exact absurd (String.toList_inj.mp hname) h
  | cons c cs => rfl

theorem take_short {letter : Char} {cs : List Char} (h : argument.toList = '-' :: letter :: cs)
    (hletter : letter ≠ '-') : s.take argument = s.takeShort letter := by
  rw [take, if_neg (by simp [hopen]), h]
  split
  · next heq =>
      cases heq
      exact absurd rfl hletter
  · next heq =>
      cases heq
      exact absurd rfl hletter
  · next heq =>
      cases heq
      rfl
  · next hne => exact (hne letter cs rfl).elim

theorem take_of_not_dashed (h : ¬ Dashed argument) : s.take argument = s.takeValue argument := by
  rw [take, if_neg (by simp [hopen])]
  split
  · next heq => exact absurd ⟨_, _, heq⟩ h
  · next heq => exact absurd ⟨_, _, heq⟩ h
  · next heq => exact absurd ⟨_, _, heq⟩ h
  · rfl

theorem step_of_takeLong {name : String} (h : s.takeLong name.toList = .ok s') :
    s.Step ("--" ++ name) s' := by
  obtain ⟨setting, g, hname, hsettles, htaken⟩ := exists_of_takeLong h
  rcases splitOption_cases name.toList with ⟨_, hchars, hsplit⟩ | ⟨_, text, hchars, hsplit⟩
  · obtain rfl := String.toList_inj.mp hchars
    rw [hsplit] at hname htaken
    cases htaken
    exact .detached hopen hname hsettles
  · rw [← toList_attached] at hchars
    obtain rfl := String.toList_inj.mp hchars
    rw [hsplit] at hname htaken
    obtain ⟨g', hassign, rfl⟩ := assign_eq_ok_iff.mp htaken
    rw [← attached_eq]
    exact .attached hopen hname hsettles hassign

theorem step_of_take (h : s.take argument = .ok s') : s.Step argument s' := by
  rcases argument_cases argument with
    rfl | ⟨name, rfl, hname⟩ | ⟨letter, cs, hchars, hletter⟩ | hdashed
  · rw [take_dashes hopen] at h
    cases h
    exact .escape hopen
  · rw [take_append hopen hname] at h
    exact step_of_takeLong hopen h
  · rw [take_short hopen hchars hletter] at h
    exact absurd h (takeShort_ne_ok letter)
  · rw [take_of_not_dashed hopen hdashed, takeValue_eq_ok_iff] at h
    rcases h with ⟨setting, hawaits, rfl⟩ | h
    · exact .value hopen hdashed hawaits
    · obtain ⟨hfirst, g, hsettles, rfl⟩ := takePositional_eq_ok_iff.mp h
      exact .positional (.inr hdashed) hfirst hsettles

end Open

/-- An argument is taken exactly if there is such a step. -/
theorem take_eq_ok_iff : s.take argument = .ok s' ↔ s.Step argument s' := by
  constructor
  · intro h
    cases hescaped : s.escaped with
    | false => exact step_of_take hescaped h
    | true =>
        rw [take_of_escaped hescaped, takePositional_eq_ok_iff] at h
        obtain ⟨hfirst, g, hsettles, rfl⟩ := h
        exact .positional (.inl hescaped) hfirst hsettles
  · intro h
    cases h with
    | escape hopen => exact take_dashes hopen
    | @detached name setting g hopen hname hsettles =>
        rw [take_append hopen (Setting.ne_empty hname)]
        simp only [takeLong, splitOption_of_notMem (Setting.equals_notMem hname), hname,
          hsettles.settle]
    | @attached name text setting g g' hopen hname hsettles hassign =>
        rw [attached_eq, take_append hopen (attached_ne_empty name text), toList_attached]
        simp only [takeLong, splitOption_append (Setting.equals_notMem hname), hname,
          hsettles.settle]
        exact assign_eq_ok_iff.mpr ⟨g', hassign, rfl⟩
    | value hopen hdashed hawaits =>
        rw [take_of_not_dashed hopen hdashed]
        exact takeValue_eq_ok_iff.mpr (.inl ⟨_, hawaits, rfl⟩)
    | positional htext hfirst hsettles =>
        have hpositional : s.takePositional argument = .ok _ :=
          takePositional_eq_ok_iff.mpr ⟨hfirst, _, hsettles, rfl⟩
        cases hescaped : s.escaped with
        | true => rwa [take_of_escaped hescaped]
        | false =>
            have hdashed := htext.resolve_left (by simp [hescaped])
            rw [take_of_not_dashed hescaped hdashed]
            exact takeValue_eq_ok_iff.mpr (.inr hpositional)

/-- The reader gets through the arguments, and what they leave to be done is done too. -/
def Ends (s : State) (arguments : List String) (g : Given) : Prop :=
  ∃ s', s.takeAll arguments = .ok s' ∧ s'.Settles g

theorem ends_nil {g : Given} : s.Ends [] g ↔ s.Settles g :=
  ⟨fun ⟨_, htake, h⟩ => Except.ok.inj htake ▸ h, fun h => ⟨s, rfl, h⟩⟩

theorem ends_cons {arguments : List String} {g : Given} :
    s.Ends (argument :: arguments) g ↔ ∃ s', s.Step argument s' ∧ s'.Ends arguments g := by
  constructor
  · rintro ⟨s'', htake, h⟩
    rw [takeAll] at htake
    split at htake
    · cases htake
    · next s' hstep => exact ⟨s', take_eq_ok_iff.mp hstep, s'', htake, h⟩
  · rintro ⟨s', hstep, s'', htake, h⟩
    refine ⟨s'', ?_, h⟩
    rw [takeAll, take_eq_ok_iff.mpr hstep]
    exact htake

/-- What arguments give in a state of the reader. -/
inductive Follows (s : State) : List String → List (Setting × String) → Prop
  | escaped {arguments : List String} (hescaped : s.escaped = true) (hready : s.Ready) :
      Follows s arguments (arguments.map fun text => (.tcpPort, text))
  | awaiting {setting : Setting} {text : String} {arguments : List String}
      {given : List (Setting × String)} (hopen : s.escaped = false) (hawaits : s.Awaits setting)
      (htext : ¬ Dashed text) (hmore : Gives arguments given) :
      Follows s (text :: arguments) ((setting, text) :: given)
  | gives {arguments : List String} {given : List (Setting × String)} (hopen : s.escaped = false)
      (hready : s.Ready) (hgives : Gives arguments given) : Follows s arguments given

/-- The settings that arguments lead to. -/
def Leads (s : State) (arguments : List String) (g : Given) : Prop :=
  ∃ given, s.Follows arguments given ∧ s.given.assignAll (s.unsettled ++ given) = .ok g

/-- The reader remembers whether a positional argument has been taken. -/
def Consistent (s : State) : Prop :=
  s.positional = true → s.given.value? .tcpPort ≠ none ∨ .tcpPort ∈ s.unsettled.map Prod.fst

theorem consistent_start : start.Consistent := by
  intro hpositional
  cases hpositional

theorem Settles.value?_ne_none {g : Given} (h : s.Settles g) (hs : s.Consistent)
    (hpositional : s.positional = true) : g.value? .tcpPort ≠ none :=
  ((Given.assignAll_eq_ok_iff.mp h.assigns).value?_ne_none_iff .tcpPort).mpr (hs hpositional)

theorem Awaits.unsettled {setting : Setting} (h : s.Awaits setting) : s.unsettled = [] := by
  rw [State.unsettled, h]

theorem Step.consistent (h : s.Step argument s') (hs : s.Consistent) : s'.Consistent := by
  intro hpositional
  cases h with
  | escape _ => exact hs hpositional
  | detached _ _ hsettles => exact .inl (hsettles.value?_ne_none hs hpositional)
  | attached _ _ hsettles hassign =>
      have hextends := Given.assignAll_eq_ok_iff.mp (Given.assignAll_singleton.mpr hassign)
      have hvalue := hsettles.value?_ne_none hs hpositional
      exact .inl ((hextends.value?_ne_none_iff .tcpPort).mpr (.inl hvalue))
  | value _ _ hawaits =>
      have hold := hs hpositional
      rw [hawaits.unsettled] at hold
      exact .inl (hold.resolve_right List.not_mem_nil)
  | positional _ _ _ => exact .inr List.mem_cons_self

/-- What is given behind a step is given behind its argument. -/
theorem Step.leads {arguments : List String} {g : Given} (h : s.Step argument s')
    (hleads : s'.Leads arguments g) : s.Leads (argument :: arguments) g := by
  obtain ⟨given, hfollows, hassigns⟩ := hleads
  cases h with
  | escape hopen =>
      cases hfollows with
      | escaped _ hready => exact ⟨_, .gives hopen hready .escaped, hassigns⟩
      | awaiting hopen' _ _ _ => cases hopen'
      | gives hopen' _ _ => cases hopen'
  | detached hopen hname hsettles =>
      cases hfollows with
      | escaped hescaped _ => exact absurd (hopen.symm.trans hescaped) Bool.false_ne_true
      | awaiting _ hawaits htext hmore =>
          cases hawaits
          exact ⟨_, .gives hopen hsettles.ready (.detached hname htext hmore),
            Given.assignAll_append.mpr ⟨_, hsettles.assigns, hassigns⟩⟩
      | gives _ hready _ => exact absurd rfl (hready _)
  | attached hopen hname hsettles hassign =>
      cases hfollows with
      | escaped hescaped _ => exact absurd (hopen.symm.trans hescaped) Bool.false_ne_true
      | awaiting _ hawaits _ _ => cases hawaits
      | gives _ _ hmore =>
          exact ⟨_, .gives hopen hsettles.ready (.attached hname hmore),
            Given.assignAll_append.mpr
              ⟨_, hsettles.assigns, Given.assignAll_cons.mpr ⟨_, hassign, hassigns⟩⟩⟩
  | value hopen htext hawaits =>
      cases hfollows with
      | escaped hescaped _ => exact absurd (hopen.symm.trans hescaped) Bool.false_ne_true
      | awaiting _ hawaits' _ _ => cases hawaits'
      | gives _ _ hmore =>
          refine ⟨_, .awaiting hopen hawaits htext hmore, ?_⟩
          rw [hawaits.unsettled]
          exact hassigns
  | positional htext hfirst hsettles =>
      cases hfollows with
      | escaped hescaped _ =>
          exact ⟨_, .escaped hescaped hsettles.ready,
            Given.assignAll_append.mpr ⟨_, hsettles.assigns, hassigns⟩⟩
      | awaiting _ hawaits _ _ => cases hawaits
      | gives hopen _ hmore =>
          have hdashed := htext.resolve_left (by rw [show s.escaped = false from hopen]; decide)
          exact ⟨_, .gives hopen hsettles.ready (.positional hdashed hmore),
            Given.assignAll_append.mpr ⟨_, hsettles.assigns, hassigns⟩⟩

/-- A positional argument that is assigned is the first one. -/
theorem Consistent.first {text : String} {more : List (Setting × String)} {g : Given}
    (hs : s.Consistent) (h : s.given.assignAll (s.unsettled ++ (.tcpPort, text) :: more) = .ok g) :
    s.positional = false := by
  have hextends := Given.assignAll_eq_ok_iff.mp h
  by_contra hpositional
  rw [Bool.not_eq_false] at hpositional
  rcases hs hpositional with hvalue | hmem
  · refine hvalue (hextends.fresh .tcpPort ?_)
    simp
  · have honce := hextends.once
    rw [List.map_append, List.map_cons, List.nodup_append] at honce
    exact honce.2.2 _ hmem _ List.mem_cons_self rfl

theorem Leads.exists_step {arguments : List String} {g : Given} (hs : s.Consistent)
    (h : s.Leads (argument :: arguments) g) :
    ∃ s', s.Step argument s' ∧ s'.Leads arguments g := by
  obtain ⟨given, hfollows, hassigns⟩ := h
  cases hfollows with
  | escaped hescaped hready =>
      obtain ⟨middle, hmiddle, hrest⟩ := Given.assignAll_append.mp hassigns
      exact ⟨_, .positional (.inl hescaped) (hs.first hassigns) ⟨hready, hmiddle⟩, _,
        .escaped hescaped nofun, hrest⟩
  | awaiting hopen hawaits htext hmore =>
      rw [hawaits.unsettled] at hassigns
      exact ⟨_, .value hopen htext hawaits, _, .gives hopen nofun hmore, hassigns⟩
  | gives hopen hready hgives =>
      obtain ⟨middle, hmiddle, hrest⟩ := Given.assignAll_append.mp hassigns
      cases hgives with
      | positional htext hmore =>
          exact ⟨_, .positional (.inr htext) (hs.first hassigns) ⟨hready, hmiddle⟩, _,
            .gives hopen nofun hmore, hrest⟩
      | attached hname hmore =>
          obtain ⟨g', hassign, hrest⟩ := Given.assignAll_cons.mp hrest
          exact ⟨_, .attached hopen hname ⟨hready, hmiddle⟩ hassign, _, .gives hopen nofun hmore,
            hrest⟩
      | detached hname htext hmore =>
          exact ⟨_, .detached hopen hname ⟨hready, hmiddle⟩, _, .awaiting hopen rfl htext hmore,
            hrest⟩
      | escaped => exact ⟨_, .escape hopen, _, .escaped rfl hready, hassigns⟩

/-- Behind the last argument nothing is given any more. -/
theorem leads_nil {g : Given} : s.Leads [] g ↔ s.Settles g := by
  constructor
  · rintro ⟨given, hfollows, hassigns⟩
    cases hfollows with
    | escaped _ hready => exact ⟨hready, List.append_nil s.unsettled ▸ hassigns⟩
    | gives _ hready hgives =>
        cases hgives
        exact ⟨hready, List.append_nil s.unsettled ▸ hassigns⟩
  · rintro ⟨hready, hassigns⟩
    have hnil : s.Follows [] [] := by
      cases hescaped : s.escaped with
      | true => exact .escaped hescaped hready
      | false => exact .gives hescaped hready .nothing
    exact ⟨[], hnil, (List.append_nil s.unsettled).symm ▸ hassigns⟩

theorem ends_iff_leads {arguments : List String} {g : Given} (hs : s.Consistent) :
    s.Ends arguments g ↔ s.Leads arguments g := by
  induction arguments generalizing s with
  | nil => rw [ends_nil, leads_nil]
  | cons argument arguments ih =>
      rw [ends_cons]
      constructor
      · rintro ⟨s', hstep, hends⟩
        exact hstep.leads ((ih (hstep.consistent hs)).mp hends)
      · intro hleads
        obtain ⟨s', hstep, hmore⟩ := hleads.exists_step hs
        exact ⟨s', hstep, (ih (hstep.consistent hs)).mpr hmore⟩

/-- From its start the reader assigns what the arguments give. -/
theorem ends_start_iff {arguments : List String} {g : Given} :
    start.Ends arguments g ↔
      ∃ given, Gives arguments given ∧ Given.nothing.assignAll given = .ok g := by
  rw [ends_iff_leads consistent_start]
  constructor
  · rintro ⟨given, hfollows, hassigns⟩
    cases hfollows with
    | escaped hescaped _ => cases hescaped
    | awaiting _ hawaits _ _ => cases hawaits
    | gives _ _ hgives => exact ⟨given, hgives, hassigns⟩
  · rintro ⟨given, hgives, hassigns⟩
    exact ⟨given, .gives rfl nofun hgives, hassigns⟩

end State

end RespServer.CommandLine
