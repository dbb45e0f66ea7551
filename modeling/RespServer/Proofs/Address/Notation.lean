import Mathlib.Data.List.Forall2
import Mathlib.Data.Nat.Digits.Lemmas
import Mathlib.Tactic.Ring
import RespServer.Address

/-!
# The notation of addresses

What the text of an address is, said without the reader. An IPv4 address is four decimal bytes
with dots between them. An IPv6 address is eight hexadecimal groups with colons between them,
where two colons in a row stand for the groups of zero that are missing, of which there is at
least one, and the last two groups may be written as an IPv4 address. The reader accepts the
texts of addresses and nothing else.
-/

namespace RespServer.IpAddress

/-- A digit to a base of at most sixteen, in either case, and its value. -/
def Digit (base : Nat) (c : Char) (d : Nat) : Prop :=
  d < base ∧ ("0123456789abcdef".toList[d]? = some c ∨ "0123456789ABCDEF".toList[d]? = some c)

/-- One or more digits, the first one being the highest, and their number. -/
def Number (base : Nat) (cs : List Char) (n : Nat) : Prop :=
  cs ≠ [] ∧ ∃ ds, List.Forall₂ (Digit base) cs ds ∧ n = Nat.ofDigits base ds.reverse

/-- One to three decimal digits, of which the first is no zero unless it is alone. -/
structure ByteText (cs : List Char) (b : UInt8) : Prop where
  number : Number 10 cs b.toNat
  length_le : cs.length ≤ 3
  zero : cs.head? = some '0' → cs.length = 1

/-- One to four hexadecimal digits. -/
structure GroupText (cs : List Char) (g : UInt16) : Prop where
  number : Number 16 cs g.toNat
  length_le : cs.length ≤ 4

/-- Four bytes with dots between them. -/
inductive QuadText : List Char → UInt8 × UInt8 × UInt8 × UInt8 → Prop
  | mk {as bs cs ds : List Char} {a b c d : UInt8} (ha : ByteText as a) (hb : ByteText bs b)
      (hc : ByteText cs c) (hd : ByteText ds d) :
      QuadText (as ++ '.' :: (bs ++ '.' :: (cs ++ '.' :: ds))) (a, b, c, d)

/-- What stands in front of a group. -/
def colon (first : Bool) : List Char :=
  if first then [] else [':']

/-- Groups with colons between them; the first one has a colon in front unless `first`. The last
two are a quad if so marked. -/
inductive GroupsText : Bool → Bool → List Char → List UInt16 → Prop
  | nil {first : Bool} : GroupsText first false [] []
  | quad {first : Bool} {cs : List Char} {a b c d : UInt8} (hcs : QuadText cs (a, b, c, d)) :
      GroupsText first true (colon first ++ cs) [pairBytes a b, pairBytes c d]
  | cons {first quad : Bool} {cs more : List Char} {g : UInt16} {gs : List UInt16}
      (hcs : GroupText cs g) (hmore : GroupsText false quad more gs) :
      GroupsText first quad (colon first ++ cs ++ more) (g :: gs)

/-- Eight groups. Two colons in a row stand for the zeros that are missing. -/
inductive V6Text : List Char → List UInt16 → Prop
  | full {quad : Bool} {cs : List Char} {gs : List UInt16} (hcs : GroupsText true quad cs gs)
      (hlength : gs.length = 8) : V6Text cs gs
  | shortened {quad : Bool} {front behind : List Char} {head tail : List UInt16}
      (hfront : GroupsText true false front head) (hbehind : GroupsText true quad behind tail)
      (hroom : head.length + tail.length < 8) :
      V6Text (front ++ ':' :: ':' :: behind)
        (head ++ List.replicate (8 - head.length - tail.length) 0 ++ tail)

/-- A text and the address that it denotes. -/
inductive Notation : List Char → IpAddress → Prop
  | v4 {cs : List Char} {a b c d : UInt8} (hcs : QuadText cs (a, b, c, d)) :
      Notation cs (.v4 a b c d)
  | v6 {cs : List Char} {groups : Vector UInt16 8} (hcs : V6Text cs groups.toList) :
      Notation cs (.v6 groups)

instance (base : Nat) (c : Char) (d : Nat) : Decidable (Digit base c d) :=
  inferInstanceAs (Decidable (_ ∧ _))

theorem hexDigit?_eq_some_iff {c : Char} {d : Nat} : hexDigit? c = some d ↔ Digit 16 c d := by
  constructor
  · intro h
    have hsmall : ∀ n < 103, ∀ d ∈ hexDigit? (Char.ofNat n), Digit 16 (Char.ofNat n) d := by decide
    have hlt : c.toNat < 103 := by
      by_contra hlarge
      simp only [hexDigit?] at h
      rw [if_neg (by omega), if_neg (by omega), if_neg (by omega)] at h
      cases h
    have hc := hsmall c.toNat hlt
    rw [Char.ofNat_toNat] at hc
    exact hc d h
  · rintro ⟨hd, h⟩
    interval_cases d <;> rcases h with h | h <;> cases h <;> rfl

theorem decimalDigit?_eq_some_iff {c : Char} {d : Nat} :
    decimalDigit? c = some d ↔ Digit 10 c d := by
  rw [decimalDigit?, Option.filter_eq_some_iff, hexDigit?_eq_some_iff, Digit, Digit]
  simp only [decide_eq_true_eq]
  constructor
  · rintro ⟨⟨-, h⟩, hd⟩
    exact ⟨hd, h⟩
  · rintro ⟨hd, h⟩
    exact ⟨⟨by omega, h⟩, hd⟩

/-- A digit to any base is one to the base of sixteen. -/
theorem Digit.hex {base : Nat} {c : Char} {d : Nat} (h : Digit base c d) : Digit 16 c d := by
  refine ⟨?_, h.2⟩
  rcases h.2 with h | h <;> exact (List.getElem?_eq_some_iff.mp h).1

theorem Digit.eq_zero_iff {base : Nat} {c : Char} {d : Nat} (h : Digit base c d) :
    d = 0 ↔ c = '0' := by
  constructor
  · rintro rfl
    rcases h.2 with h | h <;> cases h <;> rfl
  · rintro rfl
    exact (Option.some.inj (hexDigit?_eq_some_iff.mpr h.hex)).symm

section Numbers

variable {base most : Nat} {digit? : Char → Option Nat}

/-- A text that does not begin with a digit. -/
def Stops (digit? : Char → Option Nat) (rest : List Char) : Prop :=
  ∀ c ∈ rest.head?, digit? c = none

theorem spanDigits_append {front rest : List Char} {ds : List Nat}
    (h : List.Forall₂ (fun c d => digit? c = some d) front ds) (hrest : Stops digit? rest) :
    spanDigits digit? (front ++ rest) = (ds, rest) := by
  induction h with
  | nil =>
      cases rest with
      | nil => rfl
      | cons c rest => rw [List.nil_append, spanDigits, hrest c rfl]
  | cons hd _ ih => simp only [List.cons_append, spanDigits, hd, ih]

theorem exists_of_spanDigits (digit? : Char → Option Nat) (cs : List Char) :
    ∃ front, cs = front ++ (spanDigits digit? cs).2 ∧
      List.Forall₂ (fun c d => digit? c = some d) front (spanDigits digit? cs).1 ∧
      Stops digit? (spanDigits digit? cs).2 := by
  induction cs with
  | nil => exact ⟨[], rfl, .nil, nofun⟩
  | cons c cs ih =>
      rw [spanDigits]
      cases hc : digit? c with
      | none =>
          refine ⟨[], rfl, .nil, ?_⟩
          rintro c' hc'
          cases hc'
          exact hc
      | some d =>
          obtain ⟨front, hsplit, hdigits, hstops⟩ := ih
          exact ⟨c :: front, congrArg (c :: ·) hsplit, .cons hc hdigits, hstops⟩

theorem foldl_eq_ofDigits (base : Nat) (ds : List Nat) :
    ds.foldl (fun n d => n * base + d) 0 = Nat.ofDigits base ds.reverse := by
  rw [Nat.ofDigits_eq_foldr, List.foldr_reverse]
  congr 1
  funext n d
  simp only [Nat.cast_id]
  ring

/-- The reader of numbers takes all digits that are in front. -/
theorem readNumber_eq_some_iff (hdigit : ∀ c d, digit? c = some d ↔ Digit base c d)
    {cs rest : List Char} {ds : List Nat} {n : Nat} :
    readNumber base most digit? cs = some (ds, n, rest) ↔
      ∃ front, cs = front ++ rest ∧ front ≠ [] ∧ List.Forall₂ (Digit base) front ds ∧
        n = Nat.ofDigits base ds.reverse ∧ front.length ≤ most ∧ Stops digit? rest := by
  have hrel : (fun c d => digit? c = some d) = Digit base := by
    funext c d
    exact propext (hdigit c d)
  constructor
  · obtain ⟨front, hsplit, hdigits, hstops⟩ := exists_of_spanDigits digit? cs
    rw [hrel] at hdigits
    intro h
    rw [readNumber] at h
    generalize spanDigits digit? cs = span at hsplit hdigits hstops h
    obtain ⟨ds, rest⟩ := span
    simp only [Option.ite_none_left_eq_some, not_or, Nat.not_lt, List.isEmpty_iff] at h
    obtain ⟨⟨hne, hle⟩, h⟩ := h
    cases h
    refine ⟨front, hsplit, ?_, hdigits, foldl_eq_ofDigits base ds, ?_, hstops⟩
    · rintro rfl
      cases hdigits
      exact hne rfl
    · rwa [hdigits.length_eq]
  · rintro ⟨front, rfl, hne, hdigits, rfl, hle, hstops⟩
    rw [readNumber, spanDigits_append (hrel ▸ hdigits) hstops, ← foldl_eq_ofDigits]
    simp only [Option.ite_none_left_eq_some, not_or, Nat.not_lt, List.isEmpty_iff, and_true]
    rw [← hdigits.length_eq]
    refine ⟨?_, hle⟩
    rintro rfl
    cases hdigits
    exact hne rfl

end Numbers

theorem ofDigits_lt {base : Nat} (hbase : 1 < base) {front : List Char} {ds : List Nat}
    (h : List.Forall₂ (Digit base) front ds) :
    Nat.ofDigits base ds.reverse < base ^ front.length := by
  have hlt : ∀ d ∈ ds, d < base := by
    induction h with
    | nil => nofun
    | cons hd _ ih => exact List.forall_mem_cons.mpr ⟨hd.1, ih⟩
  rw [h.length_eq, ← List.length_reverse]
  exact Nat.ofDigits_lt_base_pow_length hbase fun d hd => hlt d (List.mem_reverse.mp hd)

theorem leadingZero_iff {base : Nat} {front : List Char} {ds : List Nat}
    (h : List.Forall₂ (Digit base) front ds) :
    (∃ d more, ds = 0 :: d :: more) ↔ ¬ (front.head? = some '0' → front.length = 1) := by
  cases h with
  | nil => simp
  | cons hd hmore => cases hmore <;> simp [hd.eq_zero_iff]

theorem readByte_eq_some_iff {cs rest : List Char} {b : UInt8} :
    readByte cs = some (b, rest) ↔
      ∃ front, cs = front ++ rest ∧ ByteText front b ∧ Stops decimalDigit? rest := by
  have hnumber {ds : List Nat} {n : Nat} {rest : List Char} :
      readNumber 10 3 decimalDigit? cs = some (ds, n, rest) ↔ _ :=
    readNumber_eq_some_iff fun _ _ => decimalDigit?_eq_some_iff
  constructor
  · intro h
    rw [readByte] at h
    split at h
    · cases h
    · next ds n rest' hzero hread =>
        obtain ⟨front, hsplit, hne, hdigits, hn, hle, hstops⟩ := hnumber.mp hread
        split at h
        · next hlt =>
            cases h
            refine ⟨front, hsplit, ⟨⟨hne, ds, hdigits, ?_⟩, hle, ?_⟩, hstops⟩
            · rw [UInt8.toNat_ofNat_of_lt' hlt, hn]
            · by_contra hleading
              obtain ⟨d, more, rfl⟩ := (leadingZero_iff hdigits).mpr hleading
              exact hzero d more rfl
        · cases h
    · cases h
  · rintro ⟨front, hsplit, ⟨⟨hne, ds, hdigits, hn⟩, hle, hzero⟩, hstops⟩
    have hread := hnumber.mpr ⟨front, hsplit, hne, hdigits, hn, hle, hstops⟩
    rw [readByte, hread]
    split
    · next d more n' rest' heq =>
        cases heq
        exact absurd hzero ((leadingZero_iff hdigits).mp ⟨d, more, rfl⟩)
    · next ds' n' rest' hne' heq =>
        cases heq
        rw [if_pos b.toNat_lt, UInt8.ofNat_toNat]
    · next heq => cases heq

theorem readGroup_eq_some_iff {cs rest : List Char} {g : UInt16} :
    readGroup cs = some (g, rest) ↔
      ∃ front, cs = front ++ rest ∧ GroupText front g ∧ Stops hexDigit? rest := by
  have hnumber {ds : List Nat} {n : Nat} {rest : List Char} :
      readNumber 16 4 hexDigit? cs = some (ds, n, rest) ↔ _ :=
    readNumber_eq_some_iff fun _ _ => hexDigit?_eq_some_iff
  constructor
  · intro h
    rw [readGroup] at h
    split at h
    · next ds n rest' hread =>
        cases h
        obtain ⟨front, hsplit, hne, hdigits, hn, hle, hstops⟩ := hnumber.mp hread
        have hlt : n < UInt16.size := by
          rw [hn]
          exact Nat.lt_of_lt_of_le (ofDigits_lt (by decide) hdigits)
            (Nat.pow_le_pow_right (by decide) hle)
        refine ⟨front, hsplit, ⟨⟨hne, ds, hdigits, ?_⟩, hle⟩, hstops⟩
        rw [UInt16.toNat_ofNat_of_lt' hlt, hn]
    · cases h
  · rintro ⟨front, hsplit, ⟨⟨hne, ds, hdigits, hn⟩, hle⟩, hstops⟩
    have hread := hnumber.mpr ⟨front, hsplit, hne, hdigits, hn, hle, hstops⟩
    rw [readGroup, hread]
    exact congrArg some (congrArg (·, rest) (UInt16.ofNat_toNat))

theorem skip_eq_some_iff {c : Char} {cs behind : List Char} :
    skip c cs = some behind ↔ cs = c :: behind := by
  cases cs <;> simp [skip]

theorem stops_dot (behind : List Char) : Stops decimalDigit? ('.' :: behind) := by
  rintro c hc
  cases hc
  rfl

theorem readV4_eq_some_iff {cs rest : List Char} {q : UInt8 × UInt8 × UInt8 × UInt8} :
    readV4 cs = some (q, rest) ↔
      ∃ front, cs = front ++ rest ∧ QuadText front q ∧ Stops decimalDigit? rest := by
  constructor
  · intro h
    simp only [readV4, Option.bind_eq_bind, Option.bind_eq_some_iff, Prod.exists] at h
    obtain ⟨a, _, ha, b, _, ⟨_, hskipA, hb⟩, c, _, ⟨_, hskipB, hc⟩, d, _, ⟨_, hskipC, hd⟩, h⟩ := h
    cases h
    obtain ⟨as, rfl, has, -⟩ := readByte_eq_some_iff.mp ha
    obtain ⟨bs, rfl, hbs, -⟩ := readByte_eq_some_iff.mp hb
    obtain ⟨cs, rfl, hcs, -⟩ := readByte_eq_some_iff.mp hc
    obtain ⟨ds, rfl, hds, hstops⟩ := readByte_eq_some_iff.mp hd
    refine ⟨_, ?_, .mk has hbs hcs hds, hstops⟩
    rw [skip_eq_some_iff.mp hskipA, skip_eq_some_iff.mp hskipB, skip_eq_some_iff.mp hskipC]
    simp only [List.append_assoc, List.cons_append]
  · rintro ⟨_, rfl, @⟨as, bs, cs, ds, a, b, c, d, ha, hb, hc, hd⟩, hstops⟩
    have hlast := readByte_eq_some_iff.mpr ⟨ds, rfl, hd, hstops⟩
    simp only [List.append_assoc, List.cons_append]
    have hdot {front behind : List Char} {x : UInt8} (hx : ByteText front x) :
        readByte (front ++ '.' :: behind) = some (x, '.' :: behind) :=
      readByte_eq_some_iff.mpr ⟨front, rfl, hx, stops_dot behind⟩
    rw [readV4, hdot ha]
    simp only [Option.bind_eq_bind, Option.bind_some, skip, if_true, hdot hb, hdot hc, hlast]

/-- What may stand behind a group. -/
def Closes (rest : List Char) : Prop :=
  ∀ c ∈ rest.head?, c = ':'

/-- What may stand behind all groups. -/
def Ends (rest : List Char) : Prop :=
  rest = [] ∨ ∃ behind, rest = ':' :: ':' :: behind

theorem Closes.stops {rest : List Char} (h : Closes rest) : Stops hexDigit? rest := by
  intro c hc
  rw [h c hc]
  rfl

theorem Stops.decimal {rest : List Char} (h : Stops hexDigit? rest) : Stops decimalDigit? rest := by
  intro c hc
  rw [decimalDigit?, h c hc]
  rfl

theorem Ends.closes {rest : List Char} (h : Ends rest) : Closes rest := by
  rcases h with rfl | ⟨behind, rfl⟩
  · nofun
  · rintro c hc
    exact (Option.some.inj hc).symm

theorem GroupsText.closes {quad : Bool} {front rest : List Char} {gs : List UInt16}
    (h : GroupsText false quad front gs) (hrest : Closes rest) : Closes (front ++ rest) := by
  cases h with
  | nil => exact hrest
  | quad _ => exact fun c hc => (Option.some.inj hc).symm
  | cons _ _ => exact fun c hc => (Option.some.inj hc).symm

theorem Number.spanDigits {base : Nat} {cs rest : List Char} {n : Nat} (h : Number base cs n)
    (hrest : Stops hexDigit? rest) : (spanDigits hexDigit? (cs ++ rest)).2 = rest := by
  obtain ⟨-, ds, hdigits, -⟩ := h
  have hhex := hdigits.imp fun c d hd => hexDigit?_eq_some_iff.mpr hd.hex
  rw [spanDigits_append hhex hrest]

/-- A group is not taken for the start of a quad. -/
theorem GroupText.readV4 {cs rest : List Char} {g : UInt16} (h : GroupText cs g)
    (hrest : Closes rest) : readV4 (cs ++ rest) = none := by
  rw [Option.eq_none_iff_forall_ne_some]
  rintro ⟨q, rest'⟩ hread
  obtain ⟨_, hsplit, ⟨ha, -, -, -⟩, -⟩ := readV4_eq_some_iff.mp hread
  have hspan := h.number.spanDigits hrest.stops
  rw [hsplit, List.append_assoc, List.cons_append,
    ha.number.spanDigits (fun c hc => by cases hc; rfl)] at hspan
  exact absurd (hrest '.' (by rw [← hspan]; rfl)) (by decide)

theorem start_eq_some_iff {first : Bool} {cs start : List Char} :
    (if first then some cs else skip ':' cs) = some start ↔ cs = colon first ++ start := by
  cases first with
  | true => exact Option.some_inj
  | false => exact skip_eq_some_iff

theorem readGroups_sound (first : Bool) (room : Nat) (cs : List Char) :
    ∃ front, cs = front ++ (readGroups first room cs).rest ∧
      GroupsText first (readGroups first room cs).endsInV4 front
        (readGroups first room cs).groups ∧
      (readGroups first room cs).groups.length ≤ room := by
  induction room generalizing first cs with
  | zero => exact ⟨[], rfl, .nil, Nat.le_refl 0⟩
  | succ room ih =>
      rw [readGroups]
      split
      · exact ⟨[], rfl, .nil, Nat.zero_le _⟩
      · next start hstart =>
          obtain rfl := start_eq_some_iff.mp hstart
          split
          · next a b c d rest hquad =>
              rw [Option.ite_none_left_eq_some] at hquad
              obtain ⟨front, rfl, hfront, -⟩ := readV4_eq_some_iff.mp hquad.2
              exact ⟨colon first ++ front, (List.append_assoc _ _ _).symm, .quad hfront,
                Nat.succ_le_succ (Nat.pos_of_ne_zero hquad.1)⟩
          · split
            · exact ⟨[], rfl, .nil, Nat.zero_le _⟩
            · next g rest hgroup =>
                obtain ⟨front, rfl, hfront, -⟩ := readGroup_eq_some_iff.mp hgroup
                obtain ⟨more, hsplit, hmore, hlength⟩ := ih false rest
                refine ⟨colon first ++ front ++ more, ?_, .cons hfront hmore,
                  Nat.succ_le_succ hlength⟩
                rw [List.append_assoc, List.append_assoc, ← hsplit]

theorem readGroups_of_ends (first : Bool) (room : Nat) {rest : List Char} (h : Ends rest) :
    readGroups first room rest = ⟨[], false, rest⟩ := by
  cases room with
  | zero => rfl
  | succ room => rcases h with rfl | ⟨behind, rfl⟩ <;> cases first <;> cases room <;> rfl

/-- The reader takes all groups there is room for. -/
theorem GroupsText.readGroups {first quad : Bool} {front rest : List Char} {gs : List UInt16}
    {room : Nat} (h : GroupsText first quad front gs) (hroom : gs.length ≤ room)
    (hrest : Ends rest) : readGroups first room (front ++ rest) = ⟨gs, quad, rest⟩ := by
  induction h generalizing room with
  | nil => exact readGroups_of_ends _ room hrest
  | @quad first cs a b c d hcs =>
      obtain ⟨room, rfl⟩ := Nat.exists_eq_add_of_le' hroom
      have hquad : readV4 (cs ++ rest) = some ((a, b, c, d), rest) :=
        readV4_eq_some_iff.mpr ⟨cs, rfl, hcs, hrest.closes.stops.decimal⟩
      rw [List.append_assoc]
      change IpAddress.readGroups first (room + 1 + 1) _ = _
      rw [IpAddress.readGroups, start_eq_some_iff.mpr rfl]
      simp only [hquad, Nat.succ_ne_zero, if_false]
  | @cons first quad cs more g gs hcs hmore ih =>
      obtain ⟨room, rfl⟩ := Nat.exists_eq_succ_of_ne_zero (Nat.ne_of_gt (Nat.zero_lt_of_lt hroom))
      have hcloses := hmore.closes hrest.closes
      have hgroup : readGroup (cs ++ (more ++ rest)) = some (g, more ++ rest) :=
        readGroup_eq_some_iff.mpr ⟨cs, rfl, hcs, hcloses.stops⟩
      rw [IpAddress.readGroups, List.append_assoc, List.append_assoc, start_eq_some_iff.mpr rfl]
      simp only [hcs.readV4 hcloses, ite_self, hgroup, ih (Nat.le_of_succ_le_succ hroom)]

theorem ofGroups?_eq_some_iff {gs : List UInt16} {address : IpAddress} :
    ofGroups? gs = some address ↔
      ∃ groups : Vector UInt16 8, address = .v6 groups ∧ groups.toList = gs := by
  rw [ofGroups?]
  split
  · next h =>
      constructor
      · intro heq
        exact ⟨_, (Option.some.inj heq).symm, rfl⟩
      · rintro ⟨groups, rfl, rfl⟩
        rfl
  · next h =>
      constructor
      · nofun
      · rintro ⟨groups, -, rfl⟩
        exact absurd groups.length_toList h

theorem ends_colons (behind : List Char) : Ends (':' :: ':' :: behind) :=
  .inr ⟨behind, rfl⟩

theorem v6Text_of_readV6 {cs : List Char} {address : IpAddress}
    (h : readV6 cs = some (address, [])) :
    ∃ groups : Vector UInt16 8, address = .v6 groups ∧ V6Text cs groups.toList := by
  obtain ⟨front, hsplit, hfront, hle⟩ := readGroups_sound true 8 cs
  rw [readV6] at h
  generalize IpAddress.readGroups true 8 cs = head at hsplit hfront hle h
  obtain ⟨head, quad, rest⟩ := head
  simp only [Option.bind_eq_bind] at hsplit hfront hle h
  split at h
  · next hlength =>
      obtain ⟨_, hgroups, heq⟩ := Option.bind_eq_some_iff.mp h
      cases heq
      obtain ⟨groups, rfl, rfl⟩ := ofGroups?_eq_some_iff.mp hgroups
      rw [List.append_nil] at hsplit
      exact ⟨groups, rfl, hsplit ▸ .full hfront hlength⟩
  · next hlength =>
      split at h
      · cases h
      · next hquad =>
          rw [Bool.not_eq_true] at hquad
          subst hquad
          obtain ⟨start, hskip, h⟩ := Option.bind_eq_some_iff.mp h
          obtain ⟨colons, hcolon, hcolons⟩ := Option.bind_eq_some_iff.mp hskip
          rw [skip_eq_some_iff.mp hcolon, skip_eq_some_iff.mp hcolons] at hsplit
          obtain ⟨behind, hstart, hbehind, hroom⟩ := readGroups_sound true (7 - head.length) start
          generalize IpAddress.readGroups true (7 - head.length) start = tail at *
          obtain ⟨_, hgroups, heq⟩ := Option.bind_eq_some_iff.mp h
          obtain ⟨groups, rfl, htoList⟩ := ofGroups?_eq_some_iff.mp hgroups
          obtain ⟨haddress, hrest⟩ := Prod.mk.inj (Option.some.inj heq)
          rw [hrest, List.append_nil] at hstart
          refine ⟨groups, haddress.symm, ?_⟩
          rw [hsplit, hstart, htoList]
          exact .shortened hfront hbehind (by omega)

theorem V6Text.readV6 {cs : List Char} {groups : Vector UInt16 8} (h : V6Text cs groups.toList) :
    readV6 cs = some (.v6 groups, []) := by
  have hgroups : ofGroups? groups.toList = some (.v6 groups) :=
    ofGroups?_eq_some_iff.mpr ⟨groups, rfl, rfl⟩
  generalize groups.toList = gs at h hgroups
  rw [IpAddress.readV6]
  cases h with
  | @full quad _ _ hcs hlength =>
      have hread := hcs.readGroups (Nat.le_of_eq hlength) (.inl rfl)
      rw [List.append_nil] at hread
      rw [hread]
      simp only [hlength, if_true, hgroups]
      rfl
  | @shortened quad front behind head tail hfront hbehind hroom =>
      have htail : IpAddress.readGroups true (7 - head.length) (behind ++ []) = ⟨tail, quad, []⟩ :=
        hbehind.readGroups (by omega) (.inl rfl)
      rw [List.append_nil] at htail
      rw [hfront.readGroups (by omega) (ends_colons behind)]
      simp only [htail, hgroups, skip, if_true, Option.bind_eq_bind, Option.bind_some,
        show head.length ≠ 8 by omega, if_false, Bool.false_eq_true]

/-- An address of groups is not taken for a quad. -/
theorem V6Text.readV4 {cs : List Char} {gs : List UInt16} (h : V6Text cs gs) :
    readV4 cs = none := by
  cases h with
  | full hcs hlength =>
      cases hcs with
      | nil => cases hlength
      | quad _ => cases hlength
      | cons hgroup hmore =>
          have hcloses := hmore.closes (Ends.closes (.inl rfl))
          rw [List.append_nil] at hcloses
          exact hgroup.readV4 hcloses
  | @shortened quad front behind head tail hfront _ _ =>
      cases hfront with
      | nil => rfl
      | cons hgroup hmore =>
          rw [List.append_assoc]
          exact hgroup.readV4 (hmore.closes (ends_colons behind).closes)

/-- The reader accepts the texts of addresses and nothing else. -/
theorem ofText?_eq_some_iff {text : String} {address : IpAddress} :
    ofText? text = some address ↔ Notation text.toList address := by
  rw [ofText?]
  constructor
  · intro h
    split at h
    · next a b c d rest hread =>
        obtain ⟨front, hsplit, hquad, -⟩ := readV4_eq_some_iff.mp hread
        rw [Option.ite_none_right_eq_some, List.isEmpty_iff] at h
        obtain ⟨rfl, h⟩ := h
        cases h
        rw [hsplit, List.append_nil]
        exact .v4 hquad
    · split at h
      · next address' rest hread =>
          rw [Option.ite_none_right_eq_some, List.isEmpty_iff] at h
          obtain ⟨rfl, h⟩ := h
          cases h
          obtain ⟨groups, rfl, hgroups⟩ := v6Text_of_readV6 hread
          exact .v6 hgroups
      · cases h
  · intro h
    generalize text.toList = cs at h
    cases h with
    | @v4 a b c d hcs =>
        have hread : IpAddress.readV4 cs = some ((a, b, c, d), []) :=
          readV4_eq_some_iff.mpr ⟨cs, (List.append_nil cs).symm, hcs, nofun⟩
        rw [hread]
        rfl
    | v6 hcs =>
        rw [hcs.readV4]
        simp only [hcs.readV6]
        rfl

example : Notation "a::1.2.3.4".toList (.v6 #v[10, 0, 0, 0, 0, 0, 0x102, 0x304]) :=
  ofText?_eq_some_iff.mp (by decide)

end RespServer.IpAddress
