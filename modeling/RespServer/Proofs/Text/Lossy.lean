import Mathlib.Data.Nat.Find
import RespServer.Proofs.Text.Utf8

/-!
# Lossy readings

Any bytes can be read as a text if some of them are given up. Where no character stands, the
longest part that could still have become one, and a single byte at least, is read as the
character U+FFFD. Every byte string has one such reading, which is that of the lossy reader.
-/

namespace RespServer.Utf8

/-- The bytes are the front of some character, or all of it. -/
def Begins (front : Bytes) : Prop :=
  ∃ c, front <+: encodeChar c

/-- No character stands in front of the bytes, and `part` is the longest part there that could
have become one. -/
structure Subpart (part rest : Bytes) : Prop where
  not_char : ∀ c, ¬ encodeChar c <+: part ++ rest
  begins : part.length = 1 ∨ part ≠ [] ∧ Begins part
  longest : ∀ front, front <+: part ++ rest → part.length < front.length → ¬ Begins front

/-- Characters where they stand, and U+FFFD for each part that is none. -/
inductive Lossy : Bytes → List Char → Prop
  | nil : Lossy [] []
  | char (c : Char) {rest : Bytes} {cs : List Char} (hrest : Lossy rest cs) :
      Lossy (encodeChar c ++ rest) (c :: cs)
  | subpart {part rest : Bytes} {cs : List Char} (hpart : Subpart part rest)
      (hrest : Lossy rest cs) : Lossy (part ++ rest) (Char.ofNat 0xFFFD :: cs)

/-- A started sequence takes the bytes and is still open behind them. -/
inductive Leads : Pending → Bytes → Pending → Prop
  | nil (p : Pending) : Leads p [] p
  | cons {bits after low high : Nat} {b : UInt8} {bytes : Bytes} {last : Pending}
      (hb : low ≤ b.toNat ∧ b.toNat ≤ high)
      (h : Leads ⟨bits * 64 + (b.toNat - 0x80), after, 0x80, 0xBF⟩ bytes last) :
      Leads ⟨bits, after + 1, low, high⟩ (b :: bytes) last

/-- Every byte behind a leading one carries six bits. -/
structure Pending.Narrow (p : Pending) : Prop where
  ge_low : 0x80 ≤ p.low
  le_high : p.high ≤ 0xBF

theorem narrow_of_ofLead? {n : Nat} {p : Pending} (h : Pending.ofLead? n = some p) : p.Narrow :=
  ⟨(ofLead?_bounds h).1, (ofLead?_bounds h).2⟩

namespace Leads

variable {p last : Pending} {bytes : Bytes}

theorem foldl_feed (h : Leads p bytes last) (read : List (Option Char)) :
    bytes.foldl Scanner.feed ⟨read, some p⟩ = ⟨read, some last⟩ := by
  induction h with
  | nil p => rfl
  | cons hb _ ih => rw [List.foldl_cons, feed_continuation hb, ih]

theorem narrow (h : Leads p bytes last) (hp : p.Narrow) : last.Narrow := by
  induction h with
  | nil p => exact hp
  | cons _ _ ih => exact ih ⟨Nat.le_refl _, Nat.le_refl _⟩

/-- What the sequence can still become, it could become before. -/
theorem admits (h : Leads p bytes last) (hp : p.Narrow) {n : Nat} (hn : last.Admits n) :
    p.Admits n ∧ continuation (p.after + 1) n = bytes ++ continuation (last.after + 1) n := by
  induction h with
  | nil p => exact ⟨hn, rfl⟩
  | @cons bits after low high b bytes last hb _ ih =>
      obtain ⟨⟨hbits, -, -⟩, hcontinuation⟩ := ih ⟨Nat.le_refl _, Nat.le_refl _⟩ hn
      obtain ⟨hlow, hhigh⟩ := hp
      simp only at hlow hhigh hbits hcontinuation ⊢
      have hmod : n / 64 ^ (after + 1) % 64 = b.toNat - 0x80 := by omega
      have hsum : 0x80 + (b.toNat - 0x80) = b.toNat := by omega
      have hdiv := eq_div_mul_add n (after + 1)
      refine ⟨⟨?_, ?_, ?_⟩, ?_⟩
      · simp only
        omega
      · simp only [hmod]
        omega
      · simp only [hmod]
        omega
      · rw [continuation_succ, hmod, hsum, UInt8.ofNat_toNat, hcontinuation, List.cons_append]

end Leads

theorem length_continuation (k n : Nat) : (continuation k n).length = k := by
  induction k with
  | zero => rfl
  | succ k ih => rw [continuation_succ, List.length_cons, ih]

/-- A sequence that is on the way to a character stays open until its last byte. -/
theorem exists_leads {p : Pending} {n : Nat} (hn : p.Admits n) {bytes : Bytes}
    (hbytes : bytes <+: continuation (p.after + 1) n) (hlength : bytes.length ≤ p.after) :
    ∃ last, Leads p bytes last := by
  obtain ⟨bits, after, low, high⟩ := p
  induction after generalizing bits low high bytes with
  | zero =>
      obtain rfl := List.length_eq_zero_iff.mp (Nat.le_zero.mp hlength)
      exact ⟨_, .nil _⟩
  | succ after ih =>
      cases bytes with
      | nil => exact ⟨_, .nil _⟩
      | cons b bytes =>
          obtain ⟨hbits, hlow, hhigh⟩ := hn
          simp only at hbits hlow hhigh
          rw [continuation_succ, List.cons_prefix_cons] at hbytes
          obtain ⟨hhead, hbytes⟩ := hbytes
          have hb : b.toNat = 0x80 + n / 64 ^ (after + 1) % 64 := by
            rw [hhead, toNat_ofNat_of_lt (by omega)]
          have hdiv := eq_div_mul_add n (after + 1)
          have hnext : Pending.Admits ⟨bits * 64 + (b.toNat - 0x80), after, 0x80, 0xBF⟩ n :=
            ⟨by simp only; omega, by simp only; omega, by simp only; omega⟩
          obtain ⟨last, hlast⟩ := ih _ _ _ hnext hbytes (Nat.le_of_succ_le_succ hlength)
          exact ⟨last, .cons (by omega) hlast⟩

/-- A byte in range brings an open sequence on the way to some character. -/
theorem exists_admits_of_mem_range {p : Pending} (hp : p.Narrow) {b : UInt8}
    (hb : p.low ≤ b.toNat ∧ b.toNat ≤ p.high) :
    ∃ n, p.Admits n ∧ [b] <+: continuation (p.after + 1) n := by
  obtain ⟨hlow, hhigh⟩ := hp
  let n := (p.bits * 64 + (b.toNat - 0x80)) * 64 ^ p.after
  have hdiv : n / 64 ^ p.after = p.bits * 64 + (b.toNat - 0x80) :=
    Nat.mul_div_cancel _ (Nat.pow_pos (by decide))
  have hmod : n / 64 ^ p.after % 64 = b.toNat - 0x80 := by omega
  have hsum : 0x80 + (b.toNat - 0x80) = b.toNat := by omega
  have hsplit := eq_div_mul_add n p.after
  refine ⟨n, ⟨by omega, by omega, by omega⟩, ?_⟩
  rw [continuation_succ, hmod, hsum, UInt8.ofNat_toNat, List.cons_prefix_cons]
  exact ⟨rfl, List.nil_prefix⟩

theorem start_read (read : List (Option Char)) (n : Nat) :
    Scanner.start read n =
      ⟨(Scanner.start [] n).read ++ read, (Scanner.start [] n).pending⟩ := by
  unfold Scanner.start
  split
  · rfl
  · split <;> rfl

/-- What has been read has no bearing on what is read next. -/
theorem feed_read (read : List (Option Char)) (pending : Option Pending) (b : UInt8) :
    Scanner.feed ⟨read, pending⟩ b = ⟨(Scanner.feed ⟨[], pending⟩ b).read ++ read,
      (Scanner.feed ⟨[], pending⟩ b).pending⟩ := by
  cases pending with
  | none => exact start_read read b.toNat
  | some p =>
      obtain ⟨bits, after, low, high⟩ := p
      by_cases hb : low ≤ b.toNat ∧ b.toNat ≤ high
      · cases after with
        | zero =>
            rw [feed_last hb, feed_last hb]
            rfl
        | succ after =>
            rw [feed_continuation hb, feed_continuation hb]
            rfl
      · rw [feed_refused hb, feed_refused hb, start_read, start_read [none], List.append_assoc]
        rfl

theorem finish_read (read : List (Option Char)) (pending : Option Pending) :
    Scanner.finish ⟨read, pending⟩ = read.reverse ++ Scanner.finish ⟨[], pending⟩ := by
  cases pending with
  | none => exact (List.append_nil _).symm
  | some p => exact List.reverse_cons

theorem finish_foldl_feed (read : List (Option Char)) (pending : Option Pending) (bytes : Bytes) :
    (bytes.foldl Scanner.feed ⟨read, pending⟩).finish =
      read.reverse ++ (bytes.foldl Scanner.feed ⟨[], pending⟩).finish := by
  induction bytes generalizing read pending with
  | nil => exact finish_read read pending
  | cons b bytes ih =>
      rw [List.foldl_cons, List.foldl_cons, feed_read, ih, List.reverse_append, List.append_assoc,
        ← ih]

theorem scan_encodeChar_append (c : Char) (rest : Bytes) :
    scan (encodeChar c ++ rest) = some c :: scan rest := by
  rw [scan, List.foldl_append, foldl_feed_encodeChar, finish_foldl_feed]
  rfl

/-- Bytes behind which a sequence is open are one mark if the sequence cannot go on. -/
theorem scan_of_open {front : Bytes} {p : Pending}
    (hopen : front.foldl Scanner.feed ⟨[], none⟩ = ⟨[], some p⟩) (rest : Bytes)
    (hrest : ∀ b ∈ rest.head?, ¬ (p.low ≤ b.toNat ∧ b.toNat ≤ p.high)) :
    scan (front ++ rest) = none :: scan rest := by
  rw [scan, List.foldl_append, hopen]
  cases rest with
  | nil => rfl
  | cons b rest =>
      have hfeed : Scanner.feed ⟨[], some p⟩ b = Scanner.feed ⟨[none], none⟩ b :=
        feed_refused (hrest b rfl)
      rw [List.foldl_cons, hfeed, ← List.foldl_cons, finish_foldl_feed]
      rfl

/-- A longer character begins with a leading byte, and the rest of it is admitted. -/
theorem exists_lead_of_prefix {b : UInt8} {more : Bytes} {c : Char} (hb : ¬ b.toNat < 0x80)
    (h : b :: more <+: encodeChar c) :
    ∃ p n, Pending.ofLead? b.toNat = some p ∧ p.Admits n ∧
      encodeChar c = b :: continuation (p.after + 1) n := by
  by_cases h80 : c.toNat < 0x80
  · rw [encodeChar, if_pos h80, List.cons_prefix_cons] at h
    rw [h.1, toNat_ofNat_of_lt (by omega)] at hb
    exact absurd h80 hb
  · obtain ⟨lead, p, -, hlead, hadmits⟩ := exists_lead c.valid h80
    have hchar := (encodeChar_of_admits hlead hadmits).2
    change encodeChar (Char.ofNat c.toNat) = _ at hchar
    rw [Char.ofNat_toNat] at hchar
    rw [hchar, List.cons_prefix_cons] at h
    obtain ⟨rfl, -⟩ := h
    exact ⟨p, c.toNat, hlead, hadmits, hchar⟩

theorem Subpart.ne_nil {part rest : Bytes} (h : Subpart part rest) : part ≠ [] := by
  rcases h.begins with hlength | ⟨hne, -⟩
  · exact List.length_pos_iff.mp (hlength ▸ Nat.one_pos)
  · exact hne

section Subpart

variable {b : UInt8} {more rest : Bytes} (h : Subpart (b :: more) rest)
include h

theorem Subpart.not_ascii : ¬ b.toNat < 0x80 := by
  intro hb
  have hvalid : b.toNat.isValidChar := Or.inl (by omega)
  refine h.not_char (Char.ofNat b.toNat) ?_
  rw [encodeChar, toNat_char_ofNat hvalid, if_pos hb, UInt8.ofNat_toNat, List.cons_append,
    List.cons_prefix_cons]
  exact ⟨rfl, List.nil_prefix⟩

/-- Behind a byte that starts nothing there is nothing more to give up. -/
theorem Subpart.eq_nil_of_ofLead? (hlead : Pending.ofLead? b.toNat = none) : more = [] := by
  rcases h.begins with hlength | ⟨-, c, hc⟩
  · exact List.length_eq_zero_iff.mp (Nat.succ.inj hlength)
  · obtain ⟨p, -, hp, -⟩ := exists_lead_of_prefix h.not_ascii hc
    rw [hlead] at hp
    cases hp

/-- Behind a leading byte, all that is given up goes on with its sequence. -/
theorem Subpart.exists_leads {p : Pending} (hlead : Pending.ofLead? b.toNat = some p) :
    ∃ last, Leads p more last := by
  rcases h.begins with hlength | ⟨-, c, hc⟩
  · obtain rfl := List.length_eq_zero_iff.mp (Nat.succ.inj hlength)
    exact ⟨p, .nil p⟩
  · obtain ⟨p', n, hp', hn, hchar⟩ := exists_lead_of_prefix h.not_ascii hc
    obtain rfl : p' = p := Option.some.inj (hp'.symm.trans hlead)
    have hnot := h.not_char c
    rw [hchar, List.cons_prefix_cons] at hc
    obtain ⟨-, front, hfront⟩ := hc
    refine Utf8.exists_leads hn ⟨front, hfront⟩ ?_
    -- the character is not there as a whole
    have hpos : front ≠ [] := by
      rintro rfl
      rw [List.append_nil] at hfront
      rw [hchar, ← hfront] at hnot
      exact hnot (List.prefix_append _ _)
    have hlength := congrArg List.length hfront
    rw [List.length_append, length_continuation] at hlength
    have := List.length_pos_iff.mpr hpos
    omega

/-- A byte that could go on with the sequence would have been given up as well. -/
theorem Subpart.not_mem_range {p last : Pending} (hlead : Pending.ofLead? b.toNat = some p)
    (hleads : Leads p more last) :
    ∀ b' ∈ rest.head?, ¬ (last.low ≤ b'.toNat ∧ b'.toNat ≤ last.high) := by
  intro b' hb' hrange
  obtain ⟨rest, rfl⟩ := List.head?_eq_some_iff.mp hb'
  have hnarrow := narrow_of_ofLead? hlead
  obtain ⟨n, hn, tail, htail⟩ := exists_admits_of_mem_range (hleads.narrow hnarrow) hrange
  obtain ⟨hadmits, hcontinuation⟩ := hleads.admits hnarrow hn
  have hchar := (encodeChar_of_admits hlead hadmits).2
  refine h.longest (b :: more ++ [b']) ⟨rest, List.append_assoc ..⟩ ?_ ⟨Char.ofNat n, tail, ?_⟩
  · rw [List.length_append, List.length_singleton]
    exact Nat.lt_succ_self _
  · rw [hchar, hcontinuation, ← htail, List.cons_append, List.cons_append, List.append_assoc]

/-- What is given up is one mark. -/
theorem Subpart.scan_append : scan (b :: more ++ rest) = none :: scan rest := by
  have hb := h.not_ascii
  cases hlead : Pending.ofLead? b.toNat with
  | none =>
      obtain rfl := h.eq_nil_of_ofLead? hlead
      have hfeed : Scanner.feed ⟨[], none⟩ b = ⟨[none], none⟩ := by
        simp only [Scanner.feed, Scanner.start, if_neg hb, hlead]
      rw [scan, List.cons_append, List.nil_append, List.foldl_cons, hfeed, finish_foldl_feed]
      rfl
  | some p =>
      obtain ⟨last, hleads⟩ := h.exists_leads hlead
      refine scan_of_open (p := last) ?_ rest (h.not_mem_range hlead hleads)
      rw [List.foldl_cons, feed_lead hb hlead, hleads.foldl_feed]

end Subpart

theorem Lossy.eq_scan {bytes : Bytes} {cs : List Char} (h : Lossy bytes cs) :
    cs = (scan bytes).map fun c => c.getD (Char.ofNat 0xFFFD) := by
  induction h with
  | nil => rfl
  | char c _ ih => rw [scan_encodeChar_append, ih, List.map_cons, Option.getD_some]
  | @subpart part rest cs hpart _ ih =>
      cases part with
      | nil => exact absurd rfl hpart.ne_nil
      | cons b more => rw [hpart.scan_append, ih, List.map_cons, Option.getD_none]

/-- Where no character stands, some part is given up. -/
theorem exists_subpart {bytes : Bytes} (hne : bytes ≠ []) (h : ∀ c, ¬ encodeChar c <+: bytes) :
    ∃ part rest, bytes = part ++ rest ∧ Subpart part rest := by
  classical
  let P (k : Nat) : Prop := k = 1 ∨ k ≠ 0 ∧ Begins (bytes.take k)
  let k := Nat.findGreatest P bytes.length
  have hpos := List.length_pos_iff.mpr hne
  have hk : P k := Nat.findGreatest_spec (P := P) hpos (Or.inl rfl)
  have hle : k ≤ bytes.length := Nat.findGreatest_le _
  have hlength : (bytes.take k).length = k := List.length_take_of_le hle
  have hk0 : k ≠ 0 := by
    rcases hk with hk | hk
    · omega
    · exact hk.1
  have hnil : bytes.take k ≠ [] := by
    intro h
    rw [h] at hlength
    exact hk0 hlength.symm
  refine ⟨bytes.take k, bytes.drop k, (List.take_append_drop k bytes).symm, ?_⟩
  constructor
  · rwa [List.take_append_drop]
  · rcases hk with hk | hk
    · exact .inl (hlength.trans hk)
    · exact .inr ⟨hnil, hk.2⟩
  · intro front hfront hlt hbegins
    rw [List.take_append_drop] at hfront
    rw [hlength] at hlt
    have hnot := Nat.findGreatest_is_greatest (P := P) hlt hfront.length_le
    refine hnot (.inr ⟨by omega, ?_⟩)
    rwa [← List.prefix_iff_eq_take.mp hfront]

theorem exists_lossy (bytes : Bytes) : ∃ cs, Lossy bytes cs := by
  induction hn : bytes.length using Nat.strongRecOn generalizing bytes with
  | ind n ih =>
      by_cases hnil : bytes = []
      · subst hnil
        exact ⟨[], .nil⟩
      by_cases hchar : ∃ c, encodeChar c <+: bytes
      · obtain ⟨c, rest, rfl⟩ := hchar
        have hpos := List.length_pos_iff.mpr (encodeChar_ne_nil c)
        rw [List.length_append] at hn
        obtain ⟨cs, hcs⟩ := ih rest.length (by omega) rest rfl
        exact ⟨c :: cs, .char c hcs⟩
      · obtain ⟨part, rest, rfl, hpart⟩ := exists_subpart hnil fun c hc => hchar ⟨c, hc⟩
        have hpos := List.length_pos_iff.mpr hpart.ne_nil
        rw [List.length_append] at hn
        obtain ⟨cs, hcs⟩ := ih rest.length (by omega) rest rfl
        exact ⟨Char.ofNat 0xFFFD :: cs, .subpart hpart hcs⟩

/-- The lossy reader gives the one lossy reading of any bytes. -/
theorem lossy_iff {bytes : Bytes} {cs : List Char} :
    Lossy bytes cs ↔ (decodeLossy bytes).toList = cs := by
  rw [decodeLossy, String.toList_ofList]
  constructor
  · exact fun h => h.eq_scan.symm
  · rintro rfl
    obtain ⟨cs, hcs⟩ := exists_lossy bytes
    rwa [← hcs.eq_scan]

/-- Two bytes of a euro sign are one part, and those of an overlong form are two. -/
example : (decodeLossy [0xE2, 0x82, 0xC0, 0x80, 0x41]).toList =
    [Char.ofNat 0xFFFD, Char.ofNat 0xFFFD, Char.ofNat 0xFFFD, 'A'] := by decide

end RespServer.Utf8
