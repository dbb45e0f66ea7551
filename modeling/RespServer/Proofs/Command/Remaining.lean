import Mathlib.Algebra.Order.Round
import Mathlib.Data.Rat.Floor
import RespServer.Proofs.Store.Reachable
import RespServer.Proofs.Text.Decimal

/-!
# The time that is left

The reply to `TTL` tells a key that is missing from one that stays and from one that expires.
The last is shown with the seconds that are left, to the nearest one. Without a write of the
key they never increase, and no time that the clock can hold is too long to be shown.
-/

namespace RespServer

namespace Store

variable {s : Store} {now : Instant} {key : Bytes}

theorem lifetime_eq_missing_iff : s.lifetime now key = .missing ↔ s.get? now key = none := by
  rw [lifetime, get?]
  cases s.findLive? now key with
  | none => simp
  | some e => cases hd : e.deadline <;> simp [hd]

theorem WellFormed.findLive?_eq_some_iff (hs : s.WellFormed) {e : Entry} :
    s.findLive? now key = some e ↔ (e ∈ s.entries ∧ e.key = key) ∧ e.expired now = false := by
  rw [findLive?, Option.filter_eq_some_iff, hs.find?_eq_some_iff, Bool.not_eq_true']

theorem WellFormed.lifetime_eq_persistent_iff (hs : s.WellFormed) :
    s.lifetime now key = .persistent ↔ ∃ value, ⟨key, value, none⟩ ∈ s.entries := by
  constructor
  · intro h
    unfold lifetime at h
    split at h
    · cases h
    · next e hlive =>
        split at h
        · next hd =>
            obtain ⟨⟨hmem, rfl⟩, -⟩ := hs.findLive?_eq_some_iff.mp hlive
            exact ⟨e.value, hd ▸ hmem⟩
        · cases h
  · rintro ⟨value, hmem⟩
    rw [lifetime, hs.findLive?_eq_some_iff.mpr ⟨⟨hmem, rfl⟩, rfl⟩]

theorem WellFormed.lifetime_eq_remaining_iff (hs : s.WellFormed) {nanos : Nat} :
    s.lifetime now key = .remaining nanos ↔
      ∃ value d, ⟨key, value, some d⟩ ∈ s.entries ∧ now.nanos < d.nanos ∧
        nanos = (d.nanos - now.nanos).toNat := by
  constructor
  · intro h
    unfold lifetime at h
    split at h
    · cases h
    · next e hlive =>
        split at h
        · cases h
        · next d hd =>
            obtain ⟨⟨hmem, rfl⟩, hexpired⟩ := hs.findLive?_eq_some_iff.mp hlive
            cases h
            refine ⟨e.value, d, hd ▸ hmem, ?_, rfl⟩
            simpa [Entry.expired, hd, Instant.reached] using hexpired
  · rintro ⟨value, d, hmem, hlt, rfl⟩
    have hexpired : Entry.expired now ⟨key, value, some d⟩ = false := by
      simpa [Entry.expired, Instant.reached] using hlt
    rw [lifetime, hs.findLive?_eq_some_iff.mpr ⟨⟨hmem, rfl⟩, hexpired⟩]

/-- The lifetime of a key that has just been written. -/
theorem WellFormed.lifetime_setFor (hs : s.WellFormed) (value : Bytes) {duration : Nat}
    (hpos : 0 < duration) :
    (s.setFor now key value duration).lifetime now key =
      if now.nanos + duration ≤ Instant.latest.nanos then .remaining duration
      else .persistent := by
  have hwf : (s.setFor now key value duration).WellFormed := hs.set key value _
  have hfind := hs.find?_set key value (now.after? duration) key
  rw [if_pos rfl] at hfind
  have hwritten := (hwf.find?_eq_some_iff.mp hfind).1
  split
  · next hfits =>
      rw [Instant.after?_eq_some_iff.mpr ⟨hfits, rfl⟩] at hwritten
      apply hwf.lifetime_eq_remaining_iff.mpr
      refine ⟨value, now.after duration, hwritten, ?_, ?_⟩
      · simp only [Instant.after]
        omega
      · simp only [Instant.after]
        omega
  · next hfits =>
      have hnone : now.after? duration = none := if_neg hfits
      rw [hnone] at hwritten
      exact hwf.lifetime_eq_persistent_iff.mpr ⟨value, hwritten⟩

/-- Without a write of the key, the time that is left becomes shorter. -/
theorem WellFormed.remaining_le_of_useAll (hs : s.WellFormed) {later : Instant}
    (hle : now.nanos ≤ later.nanos) {uses : List (Instant × Use)}
    (hothers : ∀ u ∈ uses, ∀ written, u.2.written? u.1 = some written → written.key ≠ key)
    {nanos : Nat} (h : (s.useAll uses).lifetime later key = .remaining nanos) :
    ∃ more, nanos ≤ more ∧ s.lifetime now key = .remaining more := by
  have hwf := hs.useAll uses
  obtain ⟨value, d, hmem, hlt, rfl⟩ := hwf.lifetime_eq_remaining_iff.mp h
  have hfound := hs.found_useAll hothers (hwf.find?_eq_some_iff.mpr ⟨hmem, rfl⟩)
  have hmem' := (hs.find?_eq_some_iff.mp hfound).1
  refine ⟨(d.nanos - now.nanos).toNat, by omega, ?_⟩
  exact hs.lifetime_eq_remaining_iff.mpr ⟨value, d, hmem', by omega, rfl⟩

/-- From a second on, no time that is left is longer than the clock without that second. -/
theorem Reachable.remaining_le (hs : s.Reachable) (hnow : Instant.second ≤ now.nanos) {nanos : Nat}
    (h : s.lifetime now key = .remaining nanos) :
    (nanos + Instant.second : Int) ≤ Instant.latest.nanos := by
  obtain ⟨value, d, hmem, hlt, rfl⟩ := hs.wellFormed.lifetime_eq_remaining_iff.mp h
  have hfind := hs.wellFormed.find?_eq_some_iff.mpr ⟨hmem, rfl⟩
  have hle := hs.deadline_le hfind rfl
  omega

end Store

namespace Command

/-- To drop what is less than a millisecond does not change the nearest second. -/
theorem shownSeconds_eq (nanos : Nat) :
    shownSeconds nanos = (nanos + Instant.second / 2) / Instant.second := by
  unfold shownSeconds Instant.millisecond Instant.second
  omega

theorem shownSeconds_mono {n m : Nat} (h : n ≤ m) : shownSeconds n ≤ shownSeconds m := by
  rw [shownSeconds_eq, shownSeconds_eq]
  exact Nat.div_le_div_right (Nat.add_le_add_right h _)

theorem shownSeconds_mul_second (n : Nat) : shownSeconds (n * Instant.second) = n := by
  unfold shownSeconds Instant.millisecond Instant.second
  omega

/-- Half a second is rounded up. -/
theorem shownSeconds_eq_round (nanos : Nat) :
    (shownSeconds nanos : Int) = round ((nanos : ℚ) / 1000000000) := by
  calc
    (shownSeconds nanos : Int) = ((nanos + 500000000 : Nat) / (1000000000 : Nat) : Int) := by
      rw [shownSeconds_eq]
      rfl
    _ = ⌊((nanos + 500000000 : Nat) : ℚ) / (1000000000 : Nat)⌋ :=
      (Rat.floor_natCast_div_natCast _ _).symm
    _ = ⌊(nanos : ℚ) / 1000000000 + 1 / 2⌋ := by
      congr 1
      push_cast
      ring
    _ = round ((nanos : ℚ) / 1000000000) := (round_eq _).symm

/-- The reply to `TTL` on numbers without bounds. -/
def ttlNumber : Lifetime → Int
  | .missing => -2
  | .persistent => -1
  | .remaining nanos => shownSeconds nanos

theorem ttlNumber_eq_neg_two_iff {l : Lifetime} : ttlNumber l = -2 ↔ l = .missing := by
  cases l <;> simp [ttlNumber]

theorem ttlNumber_eq_neg_one_iff {l : Lifetime} : ttlNumber l = -1 ↔ l = .persistent := by
  cases l <;> simp [ttlNumber]

/-- A time that is a second shorter than the clock does not run over as a number of 64 bits. -/
theorem toInt_ttlReply_remaining {nanos : Nat}
    (h : (nanos + Instant.second : Int) ≤ Instant.latest.nanos) :
    (ttlReply (.remaining nanos)).toInt = shownSeconds nanos := by
  apply Decimal.toInt_ofNat_of_le
  simp only [Instant.second, Instant.latest] at h
  rw [shownSeconds_eq]
  unfold Instant.second Decimal.maxInt64
  omega

theorem toInt_ttlReply {l : Lifetime} (h : ∀ nanos : Nat, l = .remaining nanos →
    (nanos + Instant.second : Int) ≤ Instant.latest.nanos) :
    (ttlReply l).toInt = ttlNumber l := by
  cases l with
  | missing => rfl
  | persistent => rfl
  | remaining nanos => exact toInt_ttlReply_remaining (h nanos rfl)

theorem readSeconds_ofNat {n : Nat} (hpos : 0 < n) (hlt : n < 2 ^ 63) :
    readSeconds (Decimal.ofNat n) = .ok n := by
  have hvalue : (Int64.ofNat n).toInt = n := Int64.toInt_ofNat_of_lt hlt
  have hread : Decimal.readInt64 (Decimal.ofNat n) = .ok (Int64.ofNat n) := by
    apply Decimal.readInt64_eq_ok_iff.mpr
    rw [hvalue]
    exact Decimal.numeral_ofNat hlt
  simp only [readSeconds, hread, hvalue]
  rw [if_neg (by omega)]
  rfl

theorem ofFrame_set_ex (key value : Bytes) {n : Nat} (hpos : 0 < n) (hlt : n < 2 ^ 63) :
    ofFrame (.array ([asciiBytes "SET", key, value, asciiBytes "EX", Decimal.ofNat n].map .bulk)) =
      .ok (.set key value (some n)) := by
  change readSet key value (asciiBytes "EX") (Decimal.ofNat n) = _
  have hoption : sameLetters (asciiBytes "EX") (asciiBytes "ex") = true := by decide
  rw [readSet, if_pos hoption, readSeconds_ofNat hpos hlt]

end Command

section Request

variable {now : Instant} {s : Store} {key : Bytes} {f g : Frame}

theorem execute_ttl_fst (hf : Command.ofFrame f = .ok (.ttl key)) :
    (execute now s f).1 = .integer (Command.ttlReply (s.lifetime now key)) := by
  simp only [execute, hf, Command.execute]

theorem execute_get_fst_eq_null_iff (hg : Command.ofFrame g = .ok (.get key)) :
    (execute now s g).1 = .null ↔ s.get? now key = none := by
  simp only [execute, hg, Command.execute]
  cases s.get? now key <;> simp

theorem execute_set_snd {value : Bytes} {n : Nat}
    (hg : Command.ofFrame g = .ok (.set key value (some n))) :
    (execute now s g).2 = s.setFor now key value (n * Instant.second) := by
  simp only [execute, hg, Command.execute]

end Request

section Shown

variable {s : Store} {now : Instant} {key : Bytes}

/-- A key that neither is missing nor stays is shown with what is left of its lifetime. -/
theorem Store.WellFormed.ttlNumber_eq_round (hs : s.WellFormed)
    (hmissing : Command.ttlNumber (s.lifetime now key) ≠ -2)
    (hpersistent : Command.ttlNumber (s.lifetime now key) ≠ -1) :
    ∃ value d, ⟨key, value, some d⟩ ∈ s.entries ∧ 0 < d.nanos - now.nanos ∧
      0 ≤ Command.ttlNumber (s.lifetime now key) ∧
      Command.ttlNumber (s.lifetime now key) =
        round (((d.nanos - now.nanos : Int) : ℚ) / 1000000000) := by
  cases hl : s.lifetime now key with
  | missing => exact absurd (Command.ttlNumber_eq_neg_two_iff.mpr hl) hmissing
  | persistent => exact absurd (Command.ttlNumber_eq_neg_one_iff.mpr hl) hpersistent
  | remaining nanos =>
      obtain ⟨value, d, hmem, hpos, rfl⟩ := hs.lifetime_eq_remaining_iff.mp hl
      have hnanos : (((d.nanos - now.nanos).toNat : Nat) : Int) = d.nanos - now.nanos := by omega
      refine ⟨value, d, hmem, by omega, Int.natCast_nonneg _, ?_⟩
      rw [Command.ttlNumber, Command.shownSeconds_eq_round, ← hnanos]
      rfl

/-- A lifetime of whole seconds is shown as it was given, unless it ends past the clock. -/
theorem Store.WellFormed.toInt_ttlReply_setFor (hs : s.WellFormed) (value : Bytes) {n : Nat}
    (hnow : Instant.second ≤ now.nanos) (hpos : 0 < n) :
    (Command.ttlReply
        ((s.setFor now key value (n * Instant.second)).lifetime now key)).toInt =
      if now.nanos + (n * Instant.second : Nat) ≤ Instant.latest.nanos then (n : Int) else -1 := by
  have hduration : 0 < n * Instant.second := Nat.mul_pos hpos (by decide)
  rw [hs.lifetime_setFor value hduration]
  split
  · next hfits =>
      rw [Command.toInt_ttlReply_remaining (by omega), Command.shownSeconds_mul_second]
  · rfl

/-- As long as the key is not written, less and less is left to be shown. -/
theorem Store.Reachable.toInt_ttlReply_useAll_le (hs : s.Reachable)
    (hnow : Instant.second ≤ now.nanos) {later : Instant} (hle : now.nanos ≤ later.nanos)
    {uses : List (Instant × Store.Use)}
    (hothers : ∀ u ∈ uses, ∀ written, u.2.written? u.1 = some written → written.key ≠ key)
    (hpos : 0 ≤ (Command.ttlReply ((s.useAll uses).lifetime later key)).toInt) :
    (Command.ttlReply ((s.useAll uses).lifetime later key)).toInt ≤
      (Command.ttlReply (s.lifetime now key)).toInt := by
  cases hl : (s.useAll uses).lifetime later key with
  | missing =>
      rw [hl] at hpos
      exact absurd hpos (by decide)
  | persistent =>
      rw [hl] at hpos
      exact absurd hpos (by decide)
  | remaining nanos =>
      obtain ⟨more, hmore, hl'⟩ := hs.wellFormed.remaining_le_of_useAll hle hothers hl
      have hbound := hs.remaining_le hnow hl'
      rw [hl', Command.toInt_ttlReply_remaining hbound,
        Command.toInt_ttlReply_remaining (by omega)]
      exact Int.ofNat_le.mpr (Command.shownSeconds_mono hmore)

end Shown

/-- On a clock that stands at a second or later, `TTL` answers -2 exactly where `GET` finds
nothing, -1 exactly for a key that stays, and otherwise with the time that is left to the
nearest second. A lifetime is shown as it was given, or as none if it ends past the end of the
clock. Without a write of the key, what is shown never grows. -/
theorem ttl_reply {s : Store} (hs : s.Reachable) {now : Instant}
    (hnow : Instant.second ≤ now.nanos) {key : Bytes} {f : Frame}
    (hf : Command.ofFrame f = .ok (.ttl key)) :
    (∃ shown : Int64, (execute now s f).1 = .integer shown ∧
      (∀ g, Command.ofFrame g = .ok (.get key) →
        (shown.toInt = -2 ↔ (execute now s g).1 = .null)) ∧
      (shown.toInt = -1 ↔ ∃ value, ⟨key, value, none⟩ ∈ s.entries) ∧
      (shown.toInt ≠ -2 → shown.toInt ≠ -1 →
        ∃ value d, ⟨key, value, some d⟩ ∈ s.entries ∧ 0 < d.nanos - now.nanos ∧
          0 ≤ shown.toInt ∧ shown.toInt < 2 ^ 63 ∧
          shown.toInt = round (((d.nanos - now.nanos : Int) : ℚ) / 1000000000))) ∧
    (∀ n value, 0 < n → n < 2 ^ 63 →
      Command.ofFrame (.array
          ([asciiBytes "SET", key, value, asciiBytes "EX", Decimal.ofNat n].map .bulk)) =
        .ok (.set key value (some n)) ∧
      ∀ g, Command.ofFrame g = .ok (.set key value (some n)) →
        ∃ shown : Int64, (execute now (execute now s g).2 f).1 = .integer shown ∧
          shown.toInt =
            if now.nanos + (n * Instant.second : Nat) ≤ Instant.latest.nanos then (n : Int)
            else -1) ∧
    ∀ (later : Instant) (uses : List (Instant × Store.Use)), now.nanos ≤ later.nanos →
      (∀ u ∈ uses, ∀ written, u.2.written? u.1 = some written → written.key ≠ key) →
      ∀ shown shown' : Int64, (execute now s f).1 = .integer shown →
        (execute later (s.useAll uses) f).1 = .integer shown' → 0 ≤ shown'.toInt →
        shown'.toInt ≤ shown.toInt := by
  have hwf := hs.wellFormed
  have hshown : (Command.ttlReply (s.lifetime now key)).toInt =
      Command.ttlNumber (s.lifetime now key) :=
    Command.toInt_ttlReply fun _ => hs.remaining_le hnow
  refine ⟨⟨_, execute_ttl_fst hf, ?_, ?_, ?_⟩, ?_, ?_⟩
  · intro g hg
    rw [hshown, Command.ttlNumber_eq_neg_two_iff, Store.lifetime_eq_missing_iff,
      execute_get_fst_eq_null_iff hg]
  · rw [hshown, Command.ttlNumber_eq_neg_one_iff, hwf.lifetime_eq_persistent_iff]
  · intro hmissing hpersistent
    have hlt := (Command.ttlReply (s.lifetime now key)).toInt_lt
    rw [hshown] at hmissing hpersistent hlt ⊢
    obtain ⟨value, d, hmem, hleft, hpos, hround⟩ := hwf.ttlNumber_eq_round hmissing hpersistent
    exact ⟨value, d, hmem, hleft, hpos, hlt, hround⟩
  · intro n value hpos hlt
    refine ⟨Command.ofFrame_set_ex key value hpos hlt, fun g hg => ?_⟩
    refine ⟨_, execute_ttl_fst hf, ?_⟩
    rw [execute_set_snd hg, hwf.toInt_ttlReply_setFor value hnow hpos]
  · intro later uses hle hothers shown shown' hreply hreply' hpos
    rw [execute_ttl_fst hf] at hreply hreply'
    obtain rfl := Frame.integer.inj hreply
    obtain rfl := Frame.integer.inj hreply'
    exact hs.toInt_ttlReply_useAll_le hnow hle hothers hpos

/-- The longest time that is ever left, a lifetime of two seconds and one that is too long. -/
theorem ttl_reply_latest :
    let now : Instant := ⟨Instant.second⟩
    let key := asciiBytes "a"
    let s := (Store.withBuckets 1).use now (.operate (.set key [] (some Instant.latest)))
    let f := requestOf ["TTL", "a"]
    let g := requestOf ["SET", "a", "1", "EX", "2"]
    let g' := requestOf ["SET", "a", "1", "EX", "9223372036854775807"]
    s.Reachable ∧ Instant.second ≤ now.nanos ∧ Command.ofFrame f = .ok (.ttl key) ∧
      (execute now s f).1 = .integer 9223372036854775807 ∧
      (9223372036854775807 : Int64).toInt =
        round (((Instant.latest.nanos - now.nanos : Int) : ℚ) / 1000000000) ∧
      (∃ shown : Int64, (execute now (execute now s g).2 f).1 = .integer shown ∧ shown.toInt = 2) ∧
      (∃ shown : Int64, (execute now (execute now s g').2 f).1 = .integer shown ∧
        shown.toInt = -1) ∧
      ∀ later : Instant, now.nanos ≤ later.nanos → ∀ shown : Int64,
        (execute later s f).1 = .integer shown → 0 ≤ shown.toInt →
          shown.toInt ≤ 9223372036854775807 := by
  intro now key s f g g'
  have hs : s.Reachable := .use (.new 1) now (Int.le_refl Instant.latest.nanos)
  have hnow : Instant.second ≤ now.nanos := Int.le_refl _
  have hf : Command.ofFrame f = .ok (.ttl key) := rfl
  have hreply : (execute now s f).1 = .integer 9223372036854775807 := by decide
  obtain ⟨⟨shown, hshown, -, -, hleft⟩, hset, hlater⟩ := ttl_reply hs hnow hf
  obtain rfl : shown = 9223372036854775807 := Frame.integer.inj (hshown.symm.trans hreply)
  obtain ⟨value, d, hmem, -, -, -, hround⟩ := hleft (by decide) (by decide)
  have hentries : s.entries = [⟨key, [], some Instant.latest⟩] := by decide
  rw [hentries, List.mem_singleton] at hmem
  cases hmem
  refine ⟨hs, hnow, hf, hreply, hround, ?_, ?_, ?_⟩
  · exact (hset 2 (asciiBytes "1") (by decide) (by decide)).2 g rfl
  · exact (hset (2 ^ 63 - 1) (asciiBytes "1") (by decide) (by decide)).2 g' rfl
  · intro later hle shown' hshown'
    exact hlater later [] hle nofun _ shown' hreply hshown'

end RespServer
