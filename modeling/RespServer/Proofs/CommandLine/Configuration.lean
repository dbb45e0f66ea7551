import RespServer.Proofs.CommandLine.Scanning

/-!
# The configuration that arguments give

Every field of the configuration comes from the one text that is given for it, or else is the
default. The environment gives the frame limit if no argument does. So neither the order of what is
given nor the way options are spelled makes a difference.
-/

namespace RespServer.CommandLine

variable {arguments : List String} {environment : Option String} {config : Config}
  {given given' : List (Setting × String)} {setting : Setting}

/-- The value of a setting that is not given. -/
def Setting.otherwise : (setting : Setting) → setting.Value
  | tcpPort => (6379 : UInt16)
  | bind => IpAddress.v4 0 0 0 0
  | sweepMillis => (0 : Nat)
  | maxFrameSize => (536870912 : Nat)

/-- The value of a setting in a configuration. Where nothing is swept the interval is zero. -/
def valueIn (config : Config) : (setting : Setting) → setting.Value
  | .tcpPort => config.tcpPort
  | .bind => config.bind
  | .sweepMillis => config.sweepMillis.getD 0
  | .maxFrameSize => config.maxFrameSize

/-- The value of the text that is given for a setting, or else the default. -/
def Chosen (given : List (Setting × String)) (setting : Setting) (v : setting.Value) : Prop :=
  (∃ text, (setting, text) ∈ given ∧ setting.Denotes text v) ∨
    setting ∉ given.map Prod.fst ∧ v = setting.otherwise

/-- The configuration that the given texts stand for. -/
structure Determines (given : List (Setting × String)) (config : Config) : Prop where
  once : (given.map Prod.fst).Nodup
  chosen : ∀ setting, Chosen given setting (valueIn config setting)
  sweeps : config.sweepMillis ≠ some 0

/-- What is given with the environment asked for the frame limit, if no argument gives it. -/
def withEnvironment (given : List (Setting × String)) (environment : Option String) :
    List (Setting × String) :=
  if .maxFrameSize ∈ given.map Prod.fst then given
  else given ++ environment.toList.map fun text => (.maxFrameSize, text)

theorem Given.Extends.chosen {g : Given} (h : Given.nothing.Extends given g) (setting : Setting) :
    Chosen given setting ((g.value? setting).getD setting.otherwise) := by
  by_cases hmem : setting ∈ given.map Prod.fst
  · obtain ⟨⟨_, text⟩, hp, rfl⟩ := List.mem_map.mp hmem
    obtain ⟨v, hv, hvalue⟩ := h.reads _ hp
    rw [hvalue]
    exact .inl ⟨text, hp, hv⟩
  · rw [h.kept setting hmem, Given.value?_nothing]
    exact .inr ⟨hmem, rfl⟩

/-- A chosen value is that of an assignment. -/
theorem Chosen.exists_value? (honce : (given.map Prod.fst).Nodup) {v : setting.Value}
    (h : Chosen given setting v) :
    ∃ o : Option setting.Value, v = o.getD setting.otherwise ∧
      (∀ text, (setting, text) ∈ given → ∃ w, setting.Denotes text w ∧ o = some w) ∧
      (setting ∉ given.map Prod.fst → o = none) := by
  rcases h with ⟨text, hp, hv⟩ | ⟨hnew, rfl⟩
  · refine ⟨some v, rfl, ?_, fun hnew => absurd (List.mem_map_of_mem hp) hnew⟩
    intro text' hp'
    cases List.inj_on_of_nodup_map honce hp hp' rfl
    exact ⟨v, hv, rfl⟩
  · exact ⟨none, rfl, fun text hp => absurd (List.mem_map_of_mem hp) hnew, fun _ => rfl⟩

theorem Chosen.unique (honce : (given.map Prod.fst).Nodup) {v v' : setting.Value}
    (h : Chosen given setting v) (h' : Chosen given setting v') : v = v' := by
  rcases h with ⟨text, hp, hv⟩ | ⟨hnew, rfl⟩ <;> rcases h' with ⟨text', hp', hv'⟩ | ⟨hnew', rfl⟩
  · cases List.inj_on_of_nodup_map honce hp hp' rfl
    exact hv.unique hv'
  · exact absurd (List.mem_map_of_mem hp) hnew'
  · exact absurd (List.mem_map_of_mem hp') hnew
  · rfl

theorem eq_filter_pos_iff {o o' : Option Nat} :
    o = o'.filter (0 < ·) ↔ o.getD 0 = o'.getD 0 ∧ o ≠ some 0 := by
  rcases o with _ | _ | n <;> rcases o' with _ | _ | m <;> simp [Option.filter_some]

/-- Settings fill a configuration with their values and with defaults. -/
theorem eq_toConfig_iff {g : Given} :
    config = g.toConfig ↔
      (∀ setting, valueIn config setting = (g.value? setting).getD setting.otherwise) ∧
        config.sweepMillis ≠ some 0 := by
  constructor
  · intro h
    obtain ⟨hmillis, hsweeps⟩ := eq_filter_pos_iff.mp (congrArg Config.sweepMillis h)
    refine ⟨fun setting => ?_, hsweeps⟩
    cases setting with
    | sweepMillis => exact hmillis
    | _ => rw [h]; rfl
  · rintro ⟨hvalues, hsweeps⟩
    have hmillis := eq_filter_pos_iff.mpr ⟨hvalues .sweepMillis, hsweeps⟩
    obtain ⟨bind, tcpPort, maxFrameSize, sweepMillis⟩ := config
    exact congr (congr (congr (congrArg Config.mk (hvalues .bind)) (hvalues .tcpPort))
      (hvalues .maxFrameSize)) hmillis

/-- Chosen values are those of settings that are assigned in a row. -/
theorem exists_extends (honce : (given.map Prod.fst).Nodup)
    {v : (setting : Setting) → setting.Value} (h : ∀ setting, Chosen given setting (v setting)) :
    ∃ g, Given.nothing.Extends given g ∧
      ∀ setting, v setting = (g.value? setting).getD setting.otherwise := by
  obtain ⟨g, hg⟩ := Given.exists_value? fun setting => (h setting).exists_value? honce
  refine ⟨g, ⟨honce, ?_, ?_, ?_⟩, fun setting => (hg setting).1⟩
  · exact fun setting _ => Given.value?_nothing setting
  · exact fun p hp => (hg p.1).2.1 p.2 hp
  · exact fun setting hnew => ((hg setting).2.2 hnew).trans (Given.value?_nothing setting).symm

/-- A configuration is determined if it is that of the settings assigned. -/
theorem determines_iff :
    Determines given config ↔
      ∃ g, Given.nothing.assignAll given = .ok g ∧ config = g.toConfig := by
  simp only [Given.assignAll_eq_ok_iff, eq_toConfig_iff]
  constructor
  · rintro ⟨honce, hchosen, hsweeps⟩
    obtain ⟨g, hg, hvalues⟩ := exists_extends honce hchosen
    exact ⟨g, hg, hvalues, hsweeps⟩
  · rintro ⟨g, hg, hvalues, hsweeps⟩
    exact ⟨hg.once, fun setting => hvalues setting ▸ hg.chosen setting, hsweeps⟩

/-- Some configuration is determined if no setting comes twice and every text denotes a value. -/
theorem exists_determines_iff :
    (∃ config, Determines given config) ↔
      (given.map Prod.fst).Nodup ∧ ∀ p ∈ given, ∃ v, p.1.Denotes p.2 v := by
  simp only [determines_iff, Given.assignAll_eq_ok_iff]
  constructor
  · rintro ⟨_, g, hg, -⟩
    exact ⟨hg.once, fun p hp => (hg.reads p hp).imp fun v hv => hv.1⟩
  · rintro ⟨honce, hdenotes⟩
    have hchosen : ∀ setting, ∃ v, Chosen given setting v := by
      intro setting
      by_cases hmem : setting ∈ given.map Prod.fst
      · obtain ⟨⟨_, text⟩, hp, rfl⟩ := List.mem_map.mp hmem
        obtain ⟨v, hv⟩ := hdenotes _ hp
        exact ⟨v, .inl ⟨text, hp, hv⟩⟩
      · exact ⟨setting.otherwise, .inr ⟨hmem, rfl⟩⟩
    choose v hv using hchosen
    obtain ⟨g, hg, -⟩ := exists_extends honce hv
    exact ⟨g.toConfig, g, hg, rfl⟩

theorem mem_withEnvironment {p : Setting × String} (h : p.1 ≠ .maxFrameSize) :
    p ∈ withEnvironment given environment ↔ p ∈ given := by
  rw [withEnvironment]
  split
  · rfl
  · rw [List.mem_append, List.mem_map, or_iff_left]
    rintro ⟨text, -, rfl⟩
    exact h rfl

theorem chosen_withEnvironment_iff (h : setting ≠ .maxFrameSize) {v : setting.Value} :
    Chosen (withEnvironment given environment) setting v ↔ Chosen given setting v := by
  have hmem {text : String} : (setting, text) ∈ withEnvironment given environment ↔
      (setting, text) ∈ given := mem_withEnvironment h
  simp only [Chosen, List.mem_map, Prod.exists, exists_and_right, exists_eq_right, hmem]

theorem subset_withEnvironment : given ⊆ withEnvironment given environment := by
  rw [withEnvironment]
  split
  · exact List.Subset.refl given
  · exact List.subset_append_left given _

theorem nodup_withEnvironment_iff :
    ((withEnvironment given environment).map Prod.fst).Nodup ↔ (given.map Prod.fst).Nodup := by
  rw [withEnvironment]
  split
  · rfl
  · next hnew =>
    cases environment with
    | none => rw [Option.toList_none, List.map_nil, List.append_nil]
    | some text =>
        rw [List.map_append, List.nodup_append_comm]
        exact List.nodup_cons.trans (and_iff_right hnew)

theorem Given.Extends.has_iff {g : Given} (h : Given.nothing.Extends given g) :
    g.has setting = true ↔ setting ∈ given.map Prod.fst := by
  have hvalue := h.value?_ne_none_iff setting
  rw [Given.value?_nothing, ← Option.isSome_iff_ne_none, ← Given.has_eq] at hvalue
  rw [hvalue, or_iff_right (not_not_intro rfl)]

theorem assignAll_withEnvironment {g' : Given} :
    Given.nothing.assignAll (withEnvironment given environment) = .ok g' ↔
      ∃ g, Given.nothing.assignAll given = .ok g ∧ g.withEnvironment environment = .ok g' := by
  rw [withEnvironment]
  split
  · next hmem =>
    have hkeeps {g : Given} (hg : Given.nothing.assignAll given = .ok g) :
        g.withEnvironment environment = .ok g := by
      have hhas := (Given.assignAll_eq_ok_iff.mp hg).has_iff.mpr hmem
      cases environment with
      | none => rfl
      | some text => rw [Given.withEnvironment, if_pos hhas]
    constructor
    · exact fun hg => ⟨g', hg, hkeeps hg⟩
    · rintro ⟨g, hg, h⟩
      rwa [← Except.ok.inj ((hkeeps hg).symm.trans h)]
  · next hnew =>
    rw [Given.assignAll_append]
    refine exists_congr fun g => and_congr_right fun hg => ?_
    have hhas := mt (Given.assignAll_eq_ok_iff.mp hg).has_iff.mp hnew
    cases environment with
    | none => rfl
    | some text =>
        rw [Given.withEnvironment, if_neg hhas]
        exact Given.assignAll_singleton

theorem read_eq_ok_iff_ends :
    read arguments environment = .ok config ↔
      ∃ g, State.start.Ends arguments g ∧
        ∃ g', g.withEnvironment environment = .ok g' ∧ config = g'.toConfig := by
  constructor
  · intro h
    unfold read at h
    split at h
    · cases h
    · next s htake =>
        split at h
        · cases h
        · next s' hsettle =>
            obtain ⟨g, hsettles, rfl⟩ := State.settle_eq_ok_iff.mp hsettle
            split at h
            · cases h
            · next g' hg' =>
                cases h
                exact ⟨g, ⟨s, htake, hsettles⟩, g', hg', rfl⟩
  · rintro ⟨g, ⟨s, htake, hsettles⟩, g', hg', rfl⟩
    have hgiven : (s.settled g).given.withEnvironment environment = .ok g' := hg'
    simp only [read, htake, hsettles.settle, hgiven]

/-- The reader accepts the arguments that give a configuration together with the environment, and
nothing else. -/
theorem read_eq_ok_iff :
    read arguments environment = .ok config ↔
      ∃ given, Gives arguments given ∧ Determines (withEnvironment given environment) config := by
  simp only [read_eq_ok_iff_ends, State.ends_start_iff, determines_iff, assignAll_withEnvironment]
  constructor
  · rintro ⟨g, ⟨given, hgives, hg⟩, g', hg', rfl⟩
    exact ⟨given, hgives, g', ⟨g, hg, hg'⟩, rfl⟩
  · rintro ⟨given, hgives, g', ⟨g, hg, hg'⟩, rfl⟩
    exact ⟨g, ⟨given, hgives, hg⟩, g', hg', rfl⟩

theorem Gives.read_eq_ok_iff (h : Gives arguments given) :
    read arguments environment = .ok config ↔
      Determines (withEnvironment given environment) config := by
  rw [CommandLine.read_eq_ok_iff]
  constructor
  · rintro ⟨given', hgives, hconfig⟩
    rwa [← h.unique hgives]
  · exact fun hconfig => ⟨given, h, hconfig⟩

theorem Gives.read_iff_withEnvironment {g : Given} (h : Gives arguments given)
    (hg : Given.nothing.Extends given g) :
    read arguments environment = .ok config ↔
      ∃ g', g.withEnvironment environment = .ok g' ∧ config = g'.toConfig := by
  have hassigns := Given.assignAll_eq_ok_iff.mpr hg
  rw [h.read_eq_ok_iff, determines_iff]
  simp only [assignAll_withEnvironment, hassigns, Except.ok.injEq, exists_eq_left']

/-- The frame limit that an environment supplies, which without a text is the default. -/
def FrameLimit : Option String → Nat → Prop
  | none, n => n = 536870912
  | some text, n => CountText text n

/-- Where no argument gives the frame limit, the environment decides it and nothing else. -/
theorem Given.exists_withEnvironment_iff {g : Given} (h : g.maxFrameSize = none) :
    (∃ g', g.withEnvironment environment = .ok g' ∧ config = g'.toConfig) ↔
      FrameLimit environment config.maxFrameSize ∧
        config = { g.toConfig with maxFrameSize := config.maxFrameSize } := by
  have hdefault : g.toConfig.maxFrameSize = 536870912 := by
    rw [toConfig, h]
    rfl
  cases environment with
  | none =>
      constructor
      · rintro ⟨g', hg', rfl⟩
        cases hg'
        exact ⟨hdefault, rfl⟩
      · rintro ⟨hlimit, hconfig⟩
        rw [show config.maxFrameSize = 536870912 from hlimit, ← hdefault] at hconfig
        exact ⟨g, rfl, hconfig⟩
  | some text =>
      have hhas : ¬ g.has .maxFrameSize = true := by
        rw [has, h]
        exact Bool.false_ne_true
      simp only [withEnvironment, if_neg hhas, assign_eq_ok_iff]
      constructor
      · rintro ⟨g', ⟨-, v, hv, rfl⟩, rfl⟩
        exact ⟨hv, rfl⟩
      · rintro ⟨hlimit, hconfig⟩
        exact ⟨_, ⟨h, config.maxFrameSize, hlimit, rfl⟩, hconfig⟩

theorem Chosen.perm (hperm : given.Perm given') {v : setting.Value} (h : Chosen given setting v) :
    Chosen given' setting v := by
  rcases h with ⟨text, hp, hv⟩ | ⟨hnew, hv⟩
  · exact .inl ⟨text, hperm.mem_iff.mp hp, hv⟩
  · exact .inr ⟨mt (hperm.map Prod.fst).mem_iff.mpr hnew, hv⟩

theorem Determines.perm (hperm : given.Perm given') (h : Determines given config) :
    Determines given' config where
  once := (hperm.map Prod.fst).nodup_iff.mp h.once
  chosen setting := (h.chosen setting).perm hperm
  sweeps := h.sweeps

theorem perm_withEnvironment (hperm : given.Perm given') (environment : Option String) :
    (withEnvironment given environment).Perm (withEnvironment given' environment) := by
  simp only [withEnvironment, (hperm.map Prod.fst).mem_iff]
  split
  · exact hperm
  · exact hperm.append_right _

/-- The name of the option that gives a setting. -/
def Setting.option? : Setting → Option String
  | tcpPort => none
  | bind => some "bind"
  | sweepMillis => some "reap-interval-ms"
  | maxFrameSize => some "max-frame-size"

/-- The arguments that give a setting, with its text attached to the option or behind it. -/
def spelled (attached : Setting → Bool) (p : Setting × String) : List String :=
  match p.1.option? with
  | none => [p.2]
  | some name =>
    if attached p.1 then ["--" ++ name ++ "=" ++ p.2] else ["--" ++ name, p.2]

theorem Setting.ofOption?_of_option? {name : String} (h : setting.option? = some name) :
    ofOption? name = some setting := by
  cases setting <;> cases h <;> rfl

theorem gives_spelled (attached : Setting → Bool) (h : ∀ p ∈ given, ¬ Dashed p.2) :
    Gives (given.flatMap (spelled attached)) given := by
  induction given with
  | nil => exact .nothing
  | cons p more ih =>
      obtain ⟨htext, hmore⟩ := List.forall_mem_cons.mp h
      obtain ⟨setting, text⟩ := p
      rw [List.flatMap_cons, spelled]
      split
      · next hnone =>
          cases setting <;> cases hnone
          exact .positional htext (ih hmore)
      · next name hname =>
          have hsetting := Setting.ofOption?_of_option? hname
          split
          · exact .attached hsetting (ih hmore)
          · exact .detached hsetting htext (ih hmore)

/-- A text that denotes a value is not taken for an option. -/
theorem Setting.Denotes.not_dashed {text : String} {v : setting.Value}
    (h : setting.Denotes text v) : ¬ Dashed text := by
  rintro ⟨c, cs, hchars⟩
  obtain ⟨bytes, hbytes⟩ : ∃ bytes, text.toUTF8.data.toList = 45 :: bytes := by
    rw [← Utf8.encode_eq_toUTF8, Utf8.encode, hchars]
    exact ⟨_, rfl⟩
  have hcount {n : Nat} (h : CountText text n) : False := h.head (by rw [hbytes]; rfl)
  cases setting with
  | tcpPort =>
      obtain ⟨hspells, hpos⟩ := h
      rw [hbytes, Decimal.spells_minus_iff] at hspells
      omega
  | bind =>
      have hread := IpAddress.ofText?_eq_some_iff.mpr h
      rw [IpAddress.ofText?, hchars] at hread
      cases hread
  | sweepMillis => exact hcount h
  | maxFrameSize => exact hcount h

theorem Determines.exists_extends (h : Determines (withEnvironment given environment) config) :
    ∃ g, Given.nothing.Extends given g ∧
      ∃ g', g.withEnvironment environment = .ok g' ∧ config = g'.toConfig := by
  obtain ⟨g', hg', rfl⟩ := determines_iff.mp h
  obtain ⟨g, hg, henvironment⟩ := assignAll_withEnvironment.mp hg'
  exact ⟨g, Given.assignAll_eq_ok_iff.mp hg, g', henvironment, rfl⟩

/-- In what is accepted every setting is given once and every text denotes a value. -/
theorem Determines.sound (h : Determines (withEnvironment given environment) config) :
    (given.map Prod.fst).Nodup ∧ ∀ p ∈ given, ∃ v, p.1.Denotes p.2 v := by
  obtain ⟨honce, hdenotes⟩ := exists_determines_iff.mp ⟨config, h⟩
  exact ⟨nodup_withEnvironment_iff.mp honce, fun p hp => hdenotes p (subset_withEnvironment hp)⟩

/-- Arguments are accepted if they give no setting twice and every text denotes a value, the
environment included where it is asked. -/
theorem exists_read_eq_ok_iff :
    (∃ config, read arguments environment = .ok config) ↔
      ∃ given, Gives arguments given ∧ (given.map Prod.fst).Nodup ∧
        ∀ p ∈ withEnvironment given environment, ∃ v, p.1.Denotes p.2 v := by
  simp only [read_eq_ok_iff]
  rw [exists_comm]
  refine exists_congr fun given => ?_
  rw [exists_and_left, exists_determines_iff, nodup_withEnvironment_iff]

/-- How arguments that give certain texts determine a configuration with an environment. -/
structure Unambiguous (arguments : List String) (environment : Option String)
    (given : List (Setting × String)) (config : Config) : Prop where
  gives : ∀ given', Gives arguments given' ↔ given' = given
  determines : Determines (withEnvironment given environment) config
  /-- Other arguments that give the same in another order are accepted, too. -/
  reordered : ∀ arguments' given', Gives arguments' given' → given.Perm given' →
    read arguments' environment = .ok config
  /-- There are such arguments in each order, and each option may have its text attached or not. -/
  respelled : ∀ attached given', given.Perm given' →
    read (given'.flatMap (spelled attached)) environment = .ok config
  /-- The environment is of no matter, whatever it is, exactly if the frame limit is given. -/
  ignored : (∀ environment', read arguments environment' = .ok config) ↔
    .maxFrameSize ∈ given.map Prod.fst
  /-- Else it decides the frame limit, and a text that denotes none is refused. -/
  consulted : .maxFrameSize ∉ given.map Prod.fst → ∀ environment' config',
    read arguments environment' = .ok config' ↔ FrameLimit environment' config'.maxFrameSize ∧
      config' = { config with maxFrameSize := config'.maxFrameSize }
  tcpPort : 1 ≤ config.tcpPort.toNat ∧ config.tcpPort.toNat ≤ 65535
  sweepMillis : config.sweepMillis = none ↔ Chosen given .sweepMillis (0 : Nat)

theorem Determines.read_spelled (h : Determines (withEnvironment given environment) config)
    (attached : Setting → Bool) :
    read (given.flatMap (spelled attached)) environment = .ok config := by
  have htexts : ∀ p ∈ given, ¬ Dashed p.2 := by
    intro p hp
    obtain ⟨v, hv⟩ := h.sound.2 p hp
    exact hv.not_dashed
  exact (gives_spelled attached htexts).read_eq_ok_iff.mpr h

theorem Gives.read_iff_of_notMem (hgives : Gives arguments given)
    (h : Determines (withEnvironment given environment) config)
    (hnew : .maxFrameSize ∉ given.map Prod.fst) (environment' : Option String) (config' : Config) :
    read arguments environment' = .ok config' ↔ FrameLimit environment' config'.maxFrameSize ∧
      config' = { config with maxFrameSize := config'.maxFrameSize } := by
  obtain ⟨g, hg, hconfig⟩ := h.exists_extends
  have hnone : g.maxFrameSize = none := hg.kept .maxFrameSize hnew
  obtain ⟨-, hconfig⟩ := (Given.exists_withEnvironment_iff hnone).mp hconfig
  have hothers : { config with maxFrameSize := config'.maxFrameSize } =
      { g.toConfig with maxFrameSize := config'.maxFrameSize } := by
    rw [hconfig]
  rw [hgives.read_iff_withEnvironment hg, Given.exists_withEnvironment_iff hnone, hothers]

theorem Gives.unambiguous (hgives : Gives arguments given)
    (h : Determines (withEnvironment given environment) config) :
    Unambiguous arguments environment given config where
  gives given' := ⟨hgives.unique, fun heq => heq ▸ hgives⟩
  determines := h
  reordered arguments' given' hgives' hperm :=
    hgives'.read_eq_ok_iff.mpr (h.perm (perm_withEnvironment hperm environment))
  respelled attached given' hperm :=
    (h.perm (perm_withEnvironment hperm environment)).read_spelled attached
  ignored := by
    constructor
    · intro hall
      by_contra hnew
      have hlimit := ((hgives.read_iff_of_notMem h hnew (some "") config).mp (hall _)).1
      exact hlimit.spells.ne_nil rfl
    · intro hmem environment'
      rw [hgives.read_eq_ok_iff, withEnvironment, if_pos hmem]
      rwa [withEnvironment, if_pos hmem] at h
  consulted := hgives.read_iff_of_notMem h
  tcpPort := by
    refine ⟨?_, Nat.le_of_lt_succ config.tcpPort.toNat_lt⟩
    rcases h.chosen .tcpPort with ⟨text, -, hv⟩ | ⟨-, hdefault⟩
    · exact hv.pos
    · rw [show config.tcpPort = 6379 from hdefault]
      decide
  sweepMillis := by
    have hchosen := (chosen_withEnvironment_iff (by decide)).mp (h.chosen .sweepMillis)
    rw [valueIn] at hchosen
    constructor
    · intro hnone
      rwa [hnone] at hchosen
    · intro hzero
      have hgetD := hchosen.unique h.sound.1 hzero
      cases hmillis : config.sweepMillis with
      | none => rfl
      | some n =>
          rw [hmillis] at hgetD
          exact absurd (hmillis.trans (congrArg some hgetD)) h.sweeps

/-- Accepted arguments give one configuration, in whatever order and spelling they come, and
arguments of which a setting comes twice or a text denotes nothing are accepted in no order. All
other arguments that give something are accepted, with an environment that denotes a limit if it
is asked. -/
theorem read_unambiguous (arguments : List String) :
    (∀ environment config, read arguments environment = .ok config →
      ∃ given, Unambiguous arguments environment given config) ∧
    (∀ given, Gives arguments given →
      (¬ (given.map Prod.fst).Nodup ∨ ∃ p ∈ given, ∀ v, ¬ p.1.Denotes p.2 v) →
        ∀ arguments' given', Gives arguments' given' → given.Perm given' →
          ∀ environment config, read arguments' environment ≠ .ok config) ∧
    ∀ environment, (∃ config, read arguments environment = .ok config) ↔
      ∃ given, Gives arguments given ∧ (given.map Prod.fst).Nodup ∧
        ∀ p ∈ withEnvironment given environment, ∃ v, p.1.Denotes p.2 v := by
  refine ⟨?_, ?_, fun environment => exists_read_eq_ok_iff⟩
  · intro environment config hread
    obtain ⟨given, hgives, h⟩ := read_eq_ok_iff.mp hread
    exact ⟨given, hgives.unambiguous h⟩
  · rintro given - hunsound arguments' given' hgives' hperm environment config hread
    have h := (hgives'.read_eq_ok_iff.mp hread).perm (perm_withEnvironment hperm.symm environment)
    obtain ⟨honce, hdenotes⟩ := h.sound
    rcases hunsound with htwice | ⟨p, hp, hnothing⟩
    · exact htwice honce
    · obtain ⟨v, hv⟩ := hdenotes p hp
      exact hnothing v hv

theorem read_unambiguous_loopback :
    (∃ given, Unambiguous ["--bind=::1", "--max-frame-size", "+7", "--", "080"] (some "many") given
      ⟨.v6 #v[0, 0, 0, 0, 0, 0, 0, 1], 80, 7, none⟩) ∧
    ∀ arguments' given', Gives arguments' given' →
      [(Setting.tcpPort, "80"), (.tcpPort, "81")].Perm given' →
        ∀ environment config, read arguments' environment ≠ .ok config :=
  ⟨(read_unambiguous _).1 _ _ (by decide),
    (read_unambiguous ["--", "80", "81"]).2.1 _ .escaped (.inl (by decide))⟩

end RespServer.CommandLine
