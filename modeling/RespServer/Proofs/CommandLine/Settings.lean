import Mathlib.Data.List.Nodup
import RespServer.CommandLine.Reader
import RespServer.Proofs.Address.Notation
import RespServer.Proofs.Text.Decimal
import RespServer.Proofs.Text.Utf8

/-!
# Settings and their texts

Every setting has a text that denotes its value: a number in decimal digits, or an address. A text
is assigned if its setting has no value yet and the text denotes one, and this is all that an
assignment changes. So texts can be assigned in a row exactly if no setting comes twice and every
text denotes a value, and their order makes no difference.
-/

namespace RespServer.CommandLine

/-- What a setting is set to. -/
def Setting.Value : Setting → Type
  | tcpPort => UInt16
  | bind => IpAddress
  | sweepMillis => Nat
  | maxFrameSize => Nat

/-- A text of an unsigned number of 64 bits. A plus sign is allowed and a minus sign is not, not
even in front of zero. -/
structure CountText (text : String) (n : Nat) : Prop where
  spells : Decimal.Spells text.toUTF8.data.toList n
  head : text.toUTF8.data.toList.head? ≠ some 45
  lt_max : n < 2 ^ 64

/-- A text of a number from 1 to 65535. -/
structure PortText (text : String) (n : UInt16) : Prop where
  spells : Decimal.Spells text.toUTF8.data.toList n.toNat
  pos : 1 ≤ n.toNat

/-- A text and the value that it denotes. -/
def Setting.Denotes : (setting : Setting) → String → setting.Value → Prop
  | tcpPort => PortText
  | bind => fun text => IpAddress.Notation text.toList
  | sweepMillis => CountText
  | maxFrameSize => CountText

theorem readTcpPort_eq_ok_iff {text : String} {n : UInt16} :
    readTcpPort text = .ok n ↔ PortText text n := by
  rw [readTcpPort, Utf8.encode_eq_toUTF8]
  constructor
  · intro h
    split at h
    · cases h
    · next i hread =>
        split at h
        · next hrange =>
            cases h
            have hlt : i.toInt.toNat < UInt16.size :=
              Nat.lt_of_le_of_lt (show i.toInt.toNat ≤ 65535 by omega) (by decide)
            have hi : ((UInt16.ofNat i.toInt.toNat).toNat : Int) = i.toInt := by
              rw [UInt16.toNat_ofNat_of_lt' hlt]
              omega
            refine ⟨?_, by omega⟩
            rw [hi]
            exact (Decimal.readInt64_eq_ok_iff.mp hread).spells
        · cases h
  · rintro ⟨hspells, hpos⟩
    have hlt := n.toNat_lt
    have hi : (Int64.ofNat n.toNat).toInt = n.toNat := Int64.toInt_ofNat_of_lt (by omega)
    have hread := Decimal.readInt64_eq_ok_iff.mpr (Decimal.numeral_toInt_iff.mpr (hi ▸ hspells))
    simp only [hread, hi]
    rw [if_pos (by omega), Int.toNat_natCast, UInt16.ofNat_toNat]

theorem readCount_eq_ok_iff {text : String} {n : Nat} :
    readCount text = .ok n ↔ CountText text n := by
  have hread : Decimal.readNat (UInt64.size - 1) text.toUTF8.data.toList = .ok n ↔ _ :=
    Decimal.readNat_eq_ok_iff
  rw [readCount, Utf8.encode_eq_toUTF8]
  constructor
  · intro h
    split at h
    · cases h
    · next m heq =>
        cases h
        obtain ⟨hspells, hhead, hle⟩ := hread.mp heq
        exact ⟨hspells, hhead, Nat.lt_of_le_pred (by decide) hle⟩
  · rintro ⟨hspells, hhead, hlt⟩
    simp only [hread.mpr ⟨hspells, hhead, Nat.le_pred_of_lt hlt⟩]

theorem readAddress_eq_ok_iff {text : String} {address : IpAddress} :
    readAddress text = .ok address ↔ IpAddress.Notation text.toList address := by
  rw [readAddress, ← IpAddress.ofText?_eq_some_iff]
  cases IpAddress.ofText? text <;> simp

namespace Setting

def read : (setting : Setting) → String → Except ValueError setting.Value
  | tcpPort => readTcpPort
  | bind => readAddress
  | sweepMillis => readCount
  | maxFrameSize => readCount

theorem read_eq_ok_iff {setting : Setting} {text : String} {v : setting.Value} :
    setting.read text = .ok v ↔ setting.Denotes text v := by
  cases setting with
  | tcpPort => exact readTcpPort_eq_ok_iff
  | bind => exact readAddress_eq_ok_iff
  | sweepMillis => exact readCount_eq_ok_iff
  | maxFrameSize => exact readCount_eq_ok_iff

/-- A text denotes one value only. -/
theorem Denotes.unique {setting : Setting} {text : String} {v v' : setting.Value}
    (h : setting.Denotes text v) (h' : setting.Denotes text v') : v = v' :=
  Except.ok.inj ((read_eq_ok_iff.mpr h).symm.trans (read_eq_ok_iff.mpr h'))

end Setting

namespace Given

variable {g g' : Given} {setting : Setting} {text : String}

/-- The value of a setting. -/
def value? (g : Given) : (setting : Setting) → Option setting.Value
  | .tcpPort => g.tcpPort
  | .bind => g.bind
  | .sweepMillis => g.sweepMillis
  | .maxFrameSize => g.maxFrameSize

def put (g : Given) : (setting : Setting) → setting.Value → Given
  | .tcpPort, v => { g with tcpPort := some v }
  | .bind, v => { g with bind := some v }
  | .sweepMillis, v => { g with sweepMillis := some v }
  | .maxFrameSize, v => { g with maxFrameSize := some v }

theorem ext_value? (h : ∀ setting, g.value? setting = g'.value? setting) : g = g' := by
  obtain ⟨tcpPort, bind, sweepMillis, maxFrameSize⟩ := g
  obtain rfl : tcpPort = g'.tcpPort := h .tcpPort
  obtain rfl : bind = g'.bind := h .bind
  obtain rfl : sweepMillis = g'.sweepMillis := h .sweepMillis
  obtain rfl : maxFrameSize = g'.maxFrameSize := h .maxFrameSize
  rfl

/-- The values of all settings may be found one by one. -/
theorem exists_value? {P : (setting : Setting) → Option setting.Value → Prop}
    (h : ∀ setting, ∃ o, P setting o) : ∃ g : Given, ∀ setting, P setting (g.value? setting) := by
  obtain ⟨tcpPort, htcpPort⟩ := h .tcpPort
  obtain ⟨bind, hbind⟩ := h .bind
  obtain ⟨sweepMillis, hsweepMillis⟩ := h .sweepMillis
  obtain ⟨maxFrameSize, hmaxFrameSize⟩ := h .maxFrameSize
  exact ⟨⟨tcpPort, bind, sweepMillis, maxFrameSize⟩, fun setting => by cases setting <;> assumption⟩

@[simp] theorem value?_nothing (setting : Setting) : nothing.value? setting = none := by
  cases setting <;> rfl

@[simp] theorem value?_put_self (v : setting.Value) :
    (g.put setting v).value? setting = some v := by
  cases setting <;> rfl

theorem value?_put_of_ne {other : Setting} (h : other ≠ setting) (v : setting.Value) :
    (g.put setting v).value? other = g.value? other := by
  cases setting <;> cases other <;> first | rfl | exact absurd rfl h

theorem has_eq (g : Given) (setting : Setting) :
    g.has setting = (g.value? setting).isSome := by
  cases setting <;> rfl

theorem read_eq (g : Given) (setting : Setting) (text : String) :
    g.read setting text = (setting.read text).map (g.put setting) := by
  cases setting <;> rfl

theorem assign_eq_ok_iff :
    g.assign setting text = .ok g' ↔
      g.value? setting = none ∧ ∃ v, setting.Denotes text v ∧ g' = g.put setting v := by
  rw [assign, has_eq, read_eq]
  cases g.value? setting with
  | some v => simp
  | none =>
      simp only [← Setting.read_eq_ok_iff]
      cases setting.read text with
      | error cause => simp [Except.map]
      | ok v => simp [Except.map, eq_comm]

/-- Assigns the texts to their settings in order. -/
def assignAll (g : Given) : List (Setting × String) → Except Stop Given
  | [] => .ok g
  | (setting, text) :: more =>
    match g.assign setting text with
    | .error e => .error e
    | .ok g' => g'.assignAll more

theorem assignAll_cons {more : List (Setting × String)} :
    g.assignAll ((setting, text) :: more) = .ok g' ↔
      ∃ middle, g.assign setting text = .ok middle ∧ middle.assignAll more = .ok g' := by
  rw [assignAll]
  cases g.assign setting text with
  | error e => exact ⟨nofun, fun ⟨_, h, _⟩ => nomatch h⟩
  | ok middle => exact ⟨fun h => ⟨middle, rfl, h⟩, fun ⟨_, hg, h⟩ => Except.ok.inj hg ▸ h⟩

theorem assignAll_singleton :
    g.assignAll [(setting, text)] = .ok g' ↔ g.assign setting text = .ok g' := by
  rw [assignAll_cons]
  exact ⟨fun ⟨_, h, hrest⟩ => Except.ok.inj hrest ▸ h, fun h => ⟨g', h, rfl⟩⟩

theorem assignAll_append {front more : List (Setting × String)} :
    g.assignAll (front ++ more) = .ok g' ↔
      ∃ middle, g.assignAll front = .ok middle ∧ middle.assignAll more = .ok g' := by
  induction front generalizing g with
  | nil => exact ⟨fun h => ⟨g, rfl, h⟩, fun ⟨_, hg, h⟩ => Except.ok.inj hg ▸ h⟩
  | cons first front ih =>
      obtain ⟨setting, text⟩ := first
      simp only [List.cons_append, assignAll_cons, ih]
      constructor
      · rintro ⟨next, hfirst, middle, hfront, hmore⟩
        exact ⟨middle, ⟨next, hfirst, hfront⟩, hmore⟩
      · rintro ⟨middle, ⟨next, hfirst, hfront⟩, hmore⟩
        exact ⟨next, hfirst, middle, hfront, hmore⟩

/-- The settings with what is given put in. The order of what is given does not matter. -/
structure Extends (g : Given) (given : List (Setting × String)) (g' : Given) : Prop where
  once : (given.map Prod.fst).Nodup
  fresh : ∀ setting ∈ given.map Prod.fst, g.value? setting = none
  reads : ∀ p ∈ given, ∃ v, p.1.Denotes p.2 v ∧ g'.value? p.1 = some v
  kept : ∀ setting ∉ given.map Prod.fst, g'.value? setting = g.value? setting

theorem extends_cons_iff {more : List (Setting × String)} :
    g.Extends ((setting, text) :: more) g' ↔
      g.value? setting = none ∧
        ∃ v, setting.Denotes text v ∧ (g.put setting v).Extends more g' := by
  constructor
  · rintro ⟨honce, hfresh, hreads, hkept⟩
    obtain ⟨hnew, honce⟩ := List.nodup_cons.mp honce
    obtain ⟨v, hv, hvalue⟩ := hreads _ List.mem_cons_self
    refine ⟨hfresh setting List.mem_cons_self, v, hv, honce, ?_, ?_, ?_⟩
    · intro other hother
      rw [value?_put_of_ne (ne_of_mem_of_not_mem hother hnew)]
      exact hfresh other (List.mem_cons_of_mem _ hother)
    · intro p hp
      exact hreads p (List.mem_cons_of_mem _ hp)
    · intro other hother
      by_cases heq : other = setting
      · subst heq
        rw [hvalue, value?_put_self]
      · rw [value?_put_of_ne heq]
        exact hkept other (List.not_mem_cons_of_ne_of_not_mem heq hother)
  · rintro ⟨hnone, v, hv, honce, hfresh, hreads, hkept⟩
    have hnew : setting ∉ more.map Prod.fst := by
      intro hmem
      have hsome := hfresh setting hmem
      rw [value?_put_self] at hsome
      cases hsome
    refine ⟨List.nodup_cons.mpr ⟨hnew, honce⟩, ?_, ?_, ?_⟩
    · intro other hother
      rcases List.mem_cons.mp hother with rfl | hother
      · exact hnone
      · rw [← value?_put_of_ne (ne_of_mem_of_not_mem hother hnew) v]
        exact hfresh other hother
    · intro p hp
      rcases List.mem_cons.mp hp with rfl | hp
      · exact ⟨v, hv, (hkept setting hnew).trans (value?_put_self v)⟩
      · exact hreads p hp
    · intro other hother
      rw [List.map_cons, List.mem_cons, not_or] at hother
      rw [hkept other hother.2, value?_put_of_ne hother.1]

/-- What has a value had one or is given one. -/
theorem Extends.value?_ne_none_iff {given : List (Setting × String)} (h : g.Extends given g')
    (setting : Setting) :
    g'.value? setting ≠ none ↔ g.value? setting ≠ none ∨ setting ∈ given.map Prod.fst := by
  by_cases hmem : setting ∈ given.map Prod.fst
  · obtain ⟨p, hp, rfl⟩ := List.mem_map.mp hmem
    obtain ⟨v, -, hvalue⟩ := h.reads p hp
    simp only [hvalue, hmem, or_true, ne_eq, reduceCtorEq, not_false_eq_true]
  · simp only [h.kept setting hmem, hmem, or_false]

theorem assignAll_eq_ok_iff {given : List (Setting × String)} :
    g.assignAll given = .ok g' ↔ g.Extends given g' := by
  induction given generalizing g with
  | nil =>
      constructor
      · intro h
        cases h
        exact ⟨List.nodup_nil, nofun, nofun, fun _ _ => rfl⟩
      · intro h
        rw [assignAll, ext_value? fun setting => (h.kept setting List.not_mem_nil).symm]
  | cons first more ih =>
      obtain ⟨setting, text⟩ := first
      rw [assignAll_cons, extends_cons_iff]
      constructor
      · rintro ⟨middle, hfirst, hmore⟩
        obtain ⟨hnone, v, hv, rfl⟩ := assign_eq_ok_iff.mp hfirst
        exact ⟨hnone, v, hv, ih.mp hmore⟩
      · rintro ⟨hnone, v, hv, hmore⟩
        exact ⟨g.put setting v, assign_eq_ok_iff.mpr ⟨hnone, v, hv, rfl⟩, ih.mpr hmore⟩

end Given

end RespServer.CommandLine
