import RespServer.Proofs.Command.Effect
import RespServer.Proofs.Keyspace.Replay

/-!
# The last write

What is read of a key depends on the history of that key alone: it has the value of
the last `set`, if it was not deleted since and the lifetime of that `set` has not run
out. Refused requests, other keys, sweeps and entries that have expired but are still
linked play no part.
-/

namespace RespServer

/-- What an accepted request has done to a key, and when. -/
inductive Mark where
  | written (value : Bytes) (time : Instant) (seconds : Option Nat)
  | deleted

/-- The value that a mark leaves a key at the time `t`. A lifetime runs out even where
its end is past the end of the clock. -/
def Mark.value? (t : Instant) : Mark → Option Bytes
  | written value _ none => some value
  | written value time (some seconds) =>
    if t.nanos < time.nanos + (seconds * Instant.second : Nat) then some value else none
  | deleted => none

/-- The value of a key at the time `t`, by the last of its marks. -/
def seen (t : Instant) (marks : List Mark) : Option Bytes :=
  marks.getLast?.bind (Mark.value? t)

namespace Command

/-- The mark that a command leaves on a key it names. -/
def mark? (now : Instant) (key : Bytes) : Command → Option Mark
  | set target value seconds => if target = key then some (.written value now seconds) else none
  | delete targets => if key ∈ targets then some .deleted else none
  | _ => none

end Command

/-- The marks that a turn leaves on a key; a request that is refused leaves none. -/
def Turn.marks (now : Instant) (key : Bytes) : Turn → List Mark
  | request _ f =>
    match Command.ofFrame f with
    | .ok command => (command.mark? now key).toList
    | .error _ => []
  | _ => []

/-- All marks that a history leaves on a key, in order. -/
def marks (now : Instant) (key : Bytes) : List Turn → List Mark
  | [] => []
  | t :: ts => t.marks now key ++ marks (t.clock now) key ts

/-- The reply to a request that comes now. -/
def Keyspace.ask (k : Keyspace) (f : Frame) : Frame :=
  (RespServer.execute k.now k.store f).1

/-- A deadline past the end of the clock is as good as none. -/
theorem any_reached_after? {t : Instant} (ht : t.nanos ≤ Instant.latest.nanos) (now : Instant)
    (duration : Nat) :
    (now.after? duration).any (fun d => d.reached t) =
      !decide (t.nanos < now.nanos + duration) := by
  unfold Instant.after?
  split
  · rw [Option.any_some, Instant.reached, Instant.after, ← decide_not]
    exact decide_eq_decide.mpr Int.not_lt.symm
  · next h =>
      have hlt : t.nanos < now.nanos + duration := Int.lt_of_le_of_lt ht (Int.not_le.mp h)
      rw [decide_eq_true hlt]
      rfl

namespace Command

variable {s : Store} (hs : s.WellFormed)
include hs

theorem get?_removeAll (targets : List Bytes) (t : Instant) (key : Bytes) :
    (removeAll targets s).2.get? t key = if key ∈ targets then none else s.get? t key := by
  rw [Store.get?, Store.findLive?, find?_removeAll hs]
  split
  · rfl
  · rfl

/-- What is read of a key after a command, at any time the clock can still reach. -/
theorem get?_effect (now : Instant) (command : Command) (key : Bytes) {t : Instant}
    (ht : t.nanos ≤ Instant.latest.nanos) :
    (command.effect now s).get? t key =
      ((command.mark? now key).map (Mark.value? t)).getD (s.get? t key) := by
  cases command with
  | delete targets =>
      rw [effect, get?_removeAll hs, mark?]
      split
      · rfl
      · rfl
  | set target value seconds =>
      rw [effect, hs.get?_set, mark?]
      by_cases hkey : target = key
      · rw [if_pos hkey, if_pos hkey]
        cases seconds with
        | none => rfl
        | some n =>
            rw [Option.bind_some, any_reached_after? ht, Option.map_some, Option.getD_some,
              Mark.value?]
            by_cases hlt : t.nanos < now.nanos + (n * Instant.second : Nat)
            · rw [decide_eq_true hlt, if_pos hlt]
              rfl
            · rw [decide_eq_false hlt, if_neg hlt]
              rfl
      · rw [if_neg hkey, if_neg hkey]
        rfl
  | _ => rfl

end Command

theorem seen_append_toList (t : Instant) (ms : List Mark) (m : Option Mark) :
    seen t (ms ++ m.toList) = (m.map (Mark.value? t)).getD (seen t ms) := by
  cases m with
  | none =>
      rw [Option.toList_none, List.append_nil]
      rfl
  | some m =>
      rw [Option.toList_some, seen, List.getLast?_concat]
      rfl

/-- A mark that shows no value shows none later. -/
theorem Mark.value?_eq_none_of_le {t u : Instant} (htu : t.nanos ≤ u.nanos) {m : Mark}
    (h : m.value? t = none) : m.value? u = none := by
  cases m with
  | deleted => rfl
  | written value time seconds =>
      cases seconds with
      | none => cases h
      | some n =>
          rw [value?] at h ⊢
          split at h
          · cases h
          · next hlt =>
              apply if_neg
              intro hlt'
              exact hlt (Int.lt_of_le_of_lt htu hlt')

/-- Without a new write, a key that shows no value shows none later. -/
theorem seen_append_eq_none {t u : Instant} (htu : t.nanos ≤ u.nanos) {ms later : List Mark}
    (h : seen t ms = none) (hlater : ∀ m ∈ later, m = .deleted) : seen u (ms ++ later) = none := by
  rw [seen, List.getLast?_append]
  cases hlast : later.getLast? with
  | none =>
      rw [Option.none_or]
      cases hm : ms.getLast? with
      | none => rfl
      | some m =>
          rw [seen, hm] at h
          exact Mark.value?_eq_none_of_le htu h
  | some m =>
      rw [Option.some_or, hlater m (List.mem_of_getLast? hlast)]
      rfl

theorem Turn.nanos_le_clock (now : Instant) (t : Turn) : now.nanos ≤ (t.clock now).nanos := by
  cases t with
  | advance duration => exact Int.le_add_of_nonneg_right (Int.natCast_nonneg duration)
  | request i f => exact Int.le_refl now.nanos
  | sweep => exact Int.le_refl now.nanos

/-- The clock of a history never goes back. -/
theorem nanos_le_foldl_clock (now : Instant) (ts : List Turn) :
    now.nanos ≤ (ts.foldl Turn.clock now).nanos := by
  induction ts generalizing now with
  | nil => exact Int.le_refl now.nanos
  | cons t ts ih => exact Int.le_trans (t.nanos_le_clock now) (ih (t.clock now))

/-- An accepted `set` leaves its mark on its key. -/
theorem Turn.marks_set {g : Frame} {key value : Bytes} {seconds : Option Nat}
    (hg : Command.ofFrame g = .ok (.set key value seconds)) (now : Instant) (i : Nat) :
    (request i g).marks now key = [.written value now seconds] := by
  simp only [Turn.marks, hg, Command.mark?, if_pos, Option.toList_some]

theorem marks_append (now : Instant) (key : Bytes) (ts us : List Turn) :
    marks now key (ts ++ us) =
      marks now key ts ++ marks (ts.foldl Turn.clock now) key us := by
  induction ts generalizing now with
  | nil => rfl
  | cons t ts ih => rw [List.cons_append, marks, marks, ih, List.append_assoc, List.foldl_cons]

/-- Of every key the store shows, from now on, what its marks say. -/
structure Store.Shows (s : Store) (now : Instant) (ms : Bytes → List Mark) : Prop where
  wellFormed : s.WellFormed
  get?_eq : ∀ key t, now.nanos ≤ t.nanos → t.nanos ≤ Instant.latest.nanos →
    s.get? t key = seen t (ms key)

namespace Store.Shows

variable {s : Store} {now : Instant} {ms : Bytes → List Mark}

theorem withBuckets (n : Nat) (now : Instant) :
    (Store.withBuckets n).Shows now fun _ => [] where
  wellFormed := wellFormed_withBuckets n
  get?_eq key t _ _ := get?_withBuckets n t key

theorem of_le (h : s.Shows now ms) {now' : Instant} (hle : now.nanos ≤ now'.nanos) :
    s.Shows now' ms where
  wellFormed := h.wellFormed
  get?_eq key t ht hlatest := h.get?_eq key t (Int.le_trans hle ht) hlatest

theorem sweep (h : s.Shows now ms) : (s.sweep now).2.Shows now ms where
  wellFormed := h.wellFormed.sweep now
  get?_eq key t ht hlatest := by
    rw [h.wellFormed.get?_sweep now ht, h.get?_eq key t ht hlatest]

theorem effect (h : s.Shows now ms) (command : Command) :
    (command.effect now s).Shows now fun key => ms key ++ (command.mark? now key).toList where
  wellFormed := Command.wellFormed_effect h.wellFormed now command
  get?_eq key t ht hlatest := by
    rw [Command.get?_effect h.wellFormed now command key hlatest, h.get?_eq key t ht hlatest,
      seen_append_toList]

/-- What one turn adds to the marks, the store shows. -/
theorem turn {k : Keyspace} (h : k.store.Shows k.now ms) (t : Turn) :
    (k.turn t).2.store.Shows (k.turn t).2.now fun key => ms key ++ t.marks k.now key := by
  cases t with
  | request i f =>
      change (RespServer.execute k.now k.store f).2.Shows k.now fun key =>
        ms key ++ (Turn.request i f).marks k.now key
      rw [execute_snd]
      simp only [Turn.marks]
      cases Command.ofFrame f with
      | ok command => exact h.effect command
      | error refusal =>
          simp only [List.append_nil]
          exact h
  | advance duration =>
      simp only [Turn.marks, List.append_nil]
      refine k.advance_induction (P := fun s => s.Shows (k.now.after duration) ms) duration ?_ ?_
      · intro s hs
        exact hs.sweep
      · exact h.of_le (Turn.nanos_le_clock k.now (.advance duration))
  | sweep =>
      simp only [Turn.marks, List.append_nil]
      exact h.sweep

theorem replay {k : Keyspace} (h : k.store.Shows k.now ms) (ts : List Turn) :
    (k.replay ts).2.store.Shows (k.replay ts).2.now fun key => ms key ++ marks k.now key ts := by
  induction ts generalizing k ms with
  | nil =>
      simp only [marks, List.append_nil]
      exact h
  | cons t ts ih =>
      have hts := ih (h.turn t)
      simp only [Keyspace.now_turn, List.append_assoc] at hts
      exact hts

end Store.Shows

namespace Keyspace

variable {k : Keyspace} {f : Frame}

theorem ask_get {key : Bytes} (hf : Command.ofFrame f = .ok (.get key)) :
    k.ask f = (k.store.get? k.now key).elim .null .bulk := by
  simp only [ask, RespServer.execute, hf, Command.execute]
  cases k.store.get? k.now key with
  | none => rfl
  | some value => rfl

theorem ask_existing {keys : List Bytes} (hf : Command.ofFrame f = .ok (.existing keys)) :
    k.ask f = .integer (Int64.ofNat (keys.countP (k.store.contains k.now))) := by
  simp only [ask, RespServer.execute, hf, Command.execute]

theorem ask_keys {pattern : Option Bytes} (hf : Command.ofFrame f = .ok (.keys pattern)) :
    k.ask f = .array ((k.store.keys k.now).map .bulk) := by
  simp only [ask, RespServer.execute, hf, Command.execute]

section Replay

variable (n : Nat) (now : Instant) (held : Bool) (reapers : List Reaper) {ts : List Turn}
  (hclock : (ts.foldl Turn.clock now).nanos ≤ Instant.latest.nanos)
include hclock

/-- After any history, what is read of a key is what its marks say. -/
theorem get?_replay (key : Bytes) :
    let k := (replay ⟨now, Store.withBuckets n, held, reapers⟩ ts).2
    k.store.get? k.now key = seen (ts.foldl Turn.clock now) (marks now key ts) := by
  intro k
  have hshows : k.store.Shows k.now _ := (Store.Shows.withBuckets n now).replay ts
  have hnow : k.now = ts.foldl Turn.clock now := now_replay _ ts
  calc
    k.store.get? k.now key = seen k.now ([] ++ marks now key ts) :=
      hshows.get?_eq key k.now (Int.le_refl _) (hnow ▸ hclock)
    _ = seen (ts.foldl Turn.clock now) (marks now key ts) := by rw [List.nil_append, hnow]

theorem ask_get_replay {key : Bytes} (hf : Command.ofFrame f = .ok (.get key)) :
    (replay ⟨now, Store.withBuckets n, held, reapers⟩ ts).2.ask f =
      (seen (ts.foldl Turn.clock now) (marks now key ts)).elim .null .bulk := by
  rw [ask_get hf, get?_replay n now held reapers hclock]

end Replay

end Keyspace

/-- The last write wins, for exactly its lifetime. After any history of requests, time
and sweeps that the clock can hold, the replies to `GET`, `EXISTS` and `KEYS` are given
by the last mark of each key. A key that is gone comes back only by a new `SET` of it,
and behind a `SET` without a lifetime no older deadline counts. -/
theorem ask_replay (n : Nat) (now : Instant) (held : Bool) (reapers : List Reaper)
    (ts : List Turn) (hclock : (ts.foldl Turn.clock now).nanos ≤ Instant.latest.nanos) :
    let k : Keyspace := ⟨now, Store.withBuckets n, held, reapers⟩
    let shown := fun key => seen (ts.foldl Turn.clock now) (marks now key ts)
    (∀ f key, Command.ofFrame f = .ok (.get key) →
        (k.replay ts).2.ask f = (shown key).elim .null .bulk) ∧
      (∀ f keys, Command.ofFrame f = .ok (.existing keys) →
        (k.replay ts).2.ask f =
          .integer (Int64.ofNat (keys.countP fun key => (shown key).isSome))) ∧
      (∀ f pattern, Command.ofFrame f = .ok (.keys pattern) →
        ∃ listed : List Bytes, (k.replay ts).2.ask f = .array (listed.map .bulk) ∧
          ∀ key, key ∈ listed ↔ (shown key).isSome) ∧
      (∀ f key before later, ts = before ++ later → Command.ofFrame f = .ok (.get key) →
        (k.replay before).2.ask f = .null →
        (∀ m ∈ marks (before.foldl Turn.clock now) key later, m = .deleted) →
        (k.replay ts).2.ask f = .null) ∧
      ∀ f g i key value before later, ts = before ++ .request i g :: later →
        Command.ofFrame f = .ok (.get key) → Command.ofFrame g = .ok (.set key value none) →
        marks (before.foldl Turn.clock now) key later = [] →
        (k.replay ts).2.ask f = .bulk value := by
  intro k shown
  have hget := Keyspace.get?_replay n now held reapers hclock
  refine ⟨?_, ?_, ?_, ?_, ?_⟩
  · intro f key hf
    exact Keyspace.ask_get_replay n now held reapers hclock hf
  · intro f keys hf
    have hcontains : (k.replay ts).2.store.contains (k.replay ts).2.now =
        fun key => (shown key).isSome := by
      funext key
      rw [Store.contains, hget]
    rw [Keyspace.ask_existing hf, hcontains]
  · intro f pattern hf
    refine ⟨_, Keyspace.ask_keys hf, ?_⟩
    intro key
    have hshows := (Store.Shows.withBuckets n now).replay (k := k) ts
    rw [hshows.wellFormed.mem_keys_iff, hget]
  · intro f key before later hts hf hnull hlater
    subst hts
    have hle := nanos_le_foldl_clock (before.foldl Turn.clock now) later
    rw [← List.foldl_append] at hle
    rw [Keyspace.ask_get_replay n now held reapers (Int.le_trans hle hclock) hf] at hnull
    have hgone : seen (before.foldl Turn.clock now) (marks now key before) = none := by
      cases hs : seen (before.foldl Turn.clock now) (marks now key before) with
      | none => rfl
      | some value =>
          rw [hs] at hnull
          cases hnull
    rw [Keyspace.ask_get_replay n now held reapers hclock hf, marks_append,
      seen_append_eq_none hle hgone hlater]
    rfl
  · intro f g i key value before later hts hf hg hlater
    subst hts
    have hlast : (marks now key (before ++ .request i g :: later)).getLast? =
        some (.written value (before.foldl Turn.clock now) none) := by
      rw [marks_append, marks, Turn.marks_set hg, ← List.append_assoc]
      simp only [Turn.clock, hlater, List.append_nil, List.getLast?_concat]
    rw [Keyspace.ask_get_replay n now held reapers hclock hf, seen, hlast]
    rfl

/-- The request that consists of these words. -/
def requestOf (words : List String) : Frame :=
  .array (words.map fun word => .bulk (asciiBytes word))

/-- A deadline that is written over, one that passes and one past the end of the clock. -/
def threeLifetimes : List Turn :=
  [.request 0 (requestOf ["SET", "a", "1", "EX", "2"]),
    .request 1 (requestOf ["SET", "b", "2", "EX", "2"]), .request 1 (requestOf ["SET", "b"]),
    .request 2 (requestOf ["SET", "c", "3", "EX", "9223372036854775807"]),
    .advance Instant.second, .request 1 (requestOf ["SET", "a", "4"]), .sweep,
    .advance Instant.second]

theorem ask_threeLifetimes :
    let k : Keyspace := ⟨⟨0⟩, Store.withBuckets 1, true, [Reaper.new 100 ⟨0⟩]⟩
    (threeLifetimes.foldl Turn.clock ⟨0⟩).nanos ≤ Instant.latest.nanos ∧
      (k.replay threeLifetimes).2.ask (requestOf ["GET", "a"]) = .bulk (asciiBytes "4") ∧
      (k.replay threeLifetimes).2.ask (requestOf ["GET", "b"]) = .null ∧
      (k.replay threeLifetimes).2.ask (requestOf ["EXISTS", "a", "b", "c"]) = .integer 2 := by
  intro k
  have hclock : (threeLifetimes.foldl Turn.clock ⟨0⟩).nanos ≤ Instant.latest.nanos := by decide
  obtain ⟨hget, hexisting, -, -, hset⟩ :=
    ask_replay 1 ⟨0⟩ true [Reaper.new 100 ⟨0⟩] threeLifetimes hclock
  refine ⟨hclock, ?_, ?_, ?_⟩
  · exact hset _ _ 1 (asciiBytes "a") _ (threeLifetimes.take 5) _ rfl rfl rfl rfl
  · exact hget _ (asciiBytes "b") rfl
  · exact hexisting _ [asciiBytes "a", asciiBytes "b", asciiBytes "c"] rfl

end RespServer
