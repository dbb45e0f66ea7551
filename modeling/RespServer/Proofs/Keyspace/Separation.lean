import RespServer.Proofs.Command.Effect
import RespServer.Proofs.Command.LastWrite

/-!
# Clients on separate keys

Two groups of clients share a store, and one of them names no key that the other one
changes. The first group is answered as if it were alone: the run without the requests of
the others leaves the same entries under the keys it names. Where in the buckets these
entries lie plays no part.
-/

namespace RespServer

namespace Command

/-- The keys that a command names. -/
def named : Command → List Bytes
  | delete targets | existing targets => targets
  | get key | set key _ _ | ttl key => [key]
  | _ => []

/-- The keys that a command writes or removes. -/
def changed : Command → List Bytes
  | delete targets => targets
  | set key _ _ => [key]
  | _ => []

/-- Whether the reply depends on no keys but the named ones. -/
def confined : Command → Bool
  | dbSize | keys _ => false
  | _ => true

theorem outcome?_of_notMem {command : Command} {key : Bytes} (h : key ∉ command.changed)
    (now : Instant) : command.outcome? now key = none := by
  cases command with
  | delete targets => exact if_neg (mt List.contains_iff_mem.mp h)
  | set target value seconds =>
      apply if_neg
      rintro rfl
      exact h List.mem_cons_self
  | _ => rfl

end Command

/-- The keys that a request names; one that is refused names none. -/
def namedBy (f : Frame) : List Bytes :=
  match Command.ofFrame f with
  | .ok command => command.named
  | .error _ => []

/-- The keys that a request writes or removes, if it is accepted. -/
def changedBy (f : Frame) : List Bytes :=
  match Command.ofFrame f with
  | .ok command => command.changed
  | .error _ => []

/-- Whether a request is refused, or its reply depends on no keys but those it names. -/
def confinedBy (f : Frame) : Bool :=
  match Command.ofFrame f with
  | .ok command => command.confined
  | .error _ => true

/-- Our clients ask only for keys that they name, and the others change none of these. -/
structure Separate (ours : Nat → Bool) (asked : List (Nat × Frame)) : Prop where
  confined : ∀ p ∈ asked, ours p.1 = true → confinedBy p.2 = true
  apart : ∀ p ∈ asked, ours p.1 = true → ∀ q ∈ asked, ours q.1 = false →
    ∀ key ∈ changedBy q.2, key ∉ namedBy p.2

namespace Store

/-- The same is linked under each of the keys in `own`. -/
structure AgreesOn (own : Bytes → Prop) (s u : Store) : Prop where
  wellFormed : s.WellFormed
  wellFormed_alone : u.WellFormed
  find?_eq : ∀ key, own key → s.find? key = u.find? key

namespace AgreesOn

variable {own : Bytes → Prop} {s u : Store} (h : s.AgreesOn own u)
include h

theorem remove (key : Bytes) : (s.remove key).2.AgreesOn own (u.remove key).2 where
  wellFormed := h.wellFormed.remove key
  wellFormed_alone := h.wellFormed_alone.remove key
  find?_eq key' hkey' := by
    rw [h.wellFormed.find?_remove, h.wellFormed_alone.find?_remove, h.find?_eq key' hkey']

theorem sweep (now : Instant) : (s.sweep now).2.AgreesOn own (u.sweep now).2 where
  wellFormed := h.wellFormed.sweep now
  wellFormed_alone := h.wellFormed_alone.sweep now
  find?_eq key hkey := by
    rw [h.wellFormed.find?_sweep, h.wellFormed_alone.find?_sweep, h.find?_eq key hkey]

/-- A command on both stores. -/
theorem effect (now : Instant) (command : Command) :
    (command.effect now s).AgreesOn own (command.effect now u) where
  wellFormed := Command.wellFormed_effect h.wellFormed now command
  wellFormed_alone := Command.wellFormed_effect h.wellFormed_alone now command
  find?_eq key hkey := by
    rw [Command.find?_effect h.wellFormed, Command.find?_effect h.wellFormed_alone,
      h.find?_eq key hkey]

/-- A command on one store that changes other keys only. -/
theorem effect_left (now : Instant) {command : Command}
    (hother : ∀ key ∈ command.changed, ¬ own key) : (command.effect now s).AgreesOn own u where
  wellFormed := Command.wellFormed_effect h.wellFormed now command
  wellFormed_alone := h.wellFormed_alone
  find?_eq key hkey := by
    have hnot : key ∉ command.changed := fun hmem => hother key hmem hkey
    rw [Command.find?_effect h.wellFormed, Command.outcome?_of_notMem hnot, Option.getD_none,
      h.find?_eq key hkey]

theorem findLive?_eq (now : Instant) {key : Bytes} (hkey : own key) :
    s.findLive? now key = u.findLive? now key := by
  rw [findLive?, findLive?, h.find?_eq key hkey]

theorem get?_eq (now : Instant) {key : Bytes} (hkey : own key) :
    s.get? now key = u.get? now key := by
  rw [get?, get?, h.findLive?_eq now hkey]

theorem removeAll_fst_eq {targets : List Bytes} (htargets : ∀ key ∈ targets, own key) :
    (Command.removeAll targets s).1 = (Command.removeAll targets u).1 := by
  induction targets generalizing s u with
  | nil => rfl
  | cons target targets ih =>
      have hfirst : (s.remove target).1 = (u.remove target).1 := by
        rw [remove_fst, remove_fst, h.find?_eq target (htargets target List.mem_cons_self)]
      have hrest := ih (h.remove target) fun key hkey =>
        htargets key (List.mem_cons_of_mem target hkey)
      simp only [Command.removeAll, hfirst, hrest]

/-- The reply to a command that depends on agreed keys only. -/
theorem execute_fst_eq (now : Instant) {command : Command} (hconfined : command.confined = true)
    (hnamed : ∀ key ∈ command.named, own key) :
    (command.execute now s).1 = (command.execute now u).1 := by
  cases command with
  | dbSize => cases hconfined
  | keys pattern => cases hconfined
  | delete targets =>
      exact congrArg (fun n => Frame.integer (Int64.ofNat n)) (h.removeAll_fst_eq hnamed)
  | existing targets =>
      have hcount : targets.countP (s.contains now) = targets.countP (u.contains now) := by
        apply List.countP_congr
        intro key hkey
        rw [contains, contains, h.get?_eq now (hnamed key hkey)]
      simp only [Command.execute, hcount]
  | get key =>
      simp only [Command.execute, h.get?_eq now (hnamed key List.mem_cons_self)]
      cases u.get? now key with
      | none => rfl
      | some value => rfl
  | ttl key =>
      simp only [Command.execute, lifetime, h.findLive?_eq now (hnamed key List.mem_cons_self)]
  | set key value seconds =>
      cases seconds with
      | none => rfl
      | some n => rfl
  | ping message =>
      cases message with
      | none => rfl
      | some text => rfl
  | echo message => rfl

end AgreesOn

end Store

/-- The history without the requests of the other clients, at the same times. -/
def onlyOf (ours : Nat → Bool) (ts : List Turn) : List Turn :=
  ts.filter fun t => t.request?.all fun p => ours p.1

/-- The replies to the clients of a group. -/
def repliesTo (ours : Nat → Bool) (replies : List (Nat × Frame)) : List (Nat × Frame) :=
  replies.filter fun p => ours p.1

namespace Keyspace

/-- Two keyspaces at one time, with the same reapers, whose stores agree on some keys. -/
structure AgreesOn (own : Bytes → Prop) (k u : Keyspace) : Prop where
  now_eq : k.now = u.now
  held_eq : k.held = u.held
  reapers_eq : k.reapers = u.reapers
  store : k.store.AgreesOn own u.store

namespace AgreesOn

variable {own : Bytes → Prop} {k u : Keyspace} (h : k.AgreesOn own u)
include h

theorem sweep : k.sweep.AgreesOn own u.sweep where
  now_eq := h.now_eq
  held_eq := h.held_eq
  reapers_eq := h.reapers_eq
  store := by
    rw [Keyspace.sweep, Keyspace.sweep, h.now_eq]
    exact h.store.sweep u.now

theorem advance (duration : Nat) :
    (k.advance duration).AgreesOn own (u.advance duration) := by
  obtain ⟨hreapers, hstore⟩ := runAll_congr (R := Store.AgreesOn own)
    (fun _ _ hstores => hstores.sweep (u.now.after duration)) u.held u.reapers h.store
  refine ⟨congrArg (Instant.after · duration) h.now_eq, h.held_eq, ?_, ?_⟩
  · simp only [Keyspace.advance, runReapers, h.now_eq, h.held_eq, h.reapers_eq, hreapers]
  · simp only [Keyspace.advance, runReapers, h.now_eq, h.held_eq, h.reapers_eq]
    exact hstore

/-- A request that is made of both. -/
theorem request (i : Nat) (f : Frame) :
    (k.turn (.request i f)).2.AgreesOn own (u.turn (.request i f)).2 := by
  refine ⟨h.now_eq, h.held_eq, h.reapers_eq, ?_⟩
  change (RespServer.execute k.now k.store f).2.AgreesOn own
    (RespServer.execute u.now u.store f).2
  rw [h.now_eq, execute_snd, execute_snd]
  cases Command.ofFrame f with
  | ok command => exact h.store.effect u.now command
  | error refusal => exact h.store

/-- A request of the others, made of one keyspace only. -/
theorem request_left (i : Nat) {f : Frame} (hother : ∀ key ∈ changedBy f, ¬ own key) :
    (k.turn (.request i f)).2.AgreesOn own u := by
  refine ⟨h.now_eq, h.held_eq, h.reapers_eq, ?_⟩
  change (RespServer.execute k.now k.store f).2.AgreesOn own u.store
  rw [changedBy] at hother
  rw [execute_snd]
  cases hf : Command.ofFrame f with
  | ok command =>
      simp only [hf] at hother
      exact h.store.effect_left k.now hother
  | error refusal => exact h.store

theorem ask_eq {f : Frame} (hconfined : confinedBy f = true)
    (hnamed : ∀ key ∈ namedBy f, own key) : k.ask f = u.ask f := by
  rw [confinedBy] at hconfined
  rw [namedBy] at hnamed
  rw [ask, ask, h.now_eq, RespServer.execute, RespServer.execute]
  cases hf : Command.ofFrame f with
  | ok command =>
      simp only [hf] at hconfined hnamed
      exact h.store.execute_fst_eq u.now hconfined hnamed
  | error refusal => rfl

/-- Our clients are answered alike in the run of all requests and in that of their own. -/
theorem repliesTo_replay {ours : Nat → Bool} {ts : List Turn}
    (hours : ∀ p ∈ ts.filterMap Turn.request?, ours p.1 = true →
      confinedBy p.2 = true ∧ ∀ key ∈ namedBy p.2, own key)
    (hothers : ∀ p ∈ ts.filterMap Turn.request?, ours p.1 = false →
      ∀ key ∈ changedBy p.2, ¬ own key) :
    repliesTo ours (k.replay ts).1 = (u.replay (onlyOf ours ts)).1 := by
  induction ts generalizing k u with
  | nil => rfl
  | cons t ts ih =>
      cases t with
      | request i f =>
          have hours' := fun p hp => hours p (List.mem_cons_of_mem (i, f) hp)
          have hothers' := fun p hp => hothers p (List.mem_cons_of_mem (i, f) hp)
          cases hi : ours i with
          | true =>
              obtain ⟨hconfined, hnamed⟩ := hours (i, f) List.mem_cons_self hi
              have hkept : onlyOf ours (.request i f :: ts) = .request i f :: onlyOf ours ts :=
                List.filter_cons_of_pos hi
              have hreply : repliesTo ours (k.replay (.request i f :: ts)).1 =
                  (i, k.ask f) :: repliesTo ours ((k.turn (.request i f)).2.replay ts).1 :=
                List.filter_cons_of_pos hi
              rw [hkept, hreply, ih (h.request i f) hours' hothers', h.ask_eq hconfined hnamed]
              rfl
          | false =>
              have hnot : ¬ ours i = true := Bool.eq_false_iff.mp hi
              have hdropped : onlyOf ours (.request i f :: ts) = onlyOf ours ts :=
                List.filter_cons_of_neg hnot
              have hreply : repliesTo ours (k.replay (.request i f :: ts)).1 =
                  repliesTo ours ((k.turn (.request i f)).2.replay ts).1 :=
                List.filter_cons_of_neg hnot
              have hother := hothers (i, f) List.mem_cons_self hi
              rw [hdropped, hreply]
              exact ih (h.request_left i hother) hours' hothers'
      | advance duration => exact ih (h.advance duration) hours hothers
      | sweep => exact ih h.sweep hours hothers

end AgreesOn

theorem agreesOn_self {k : Keyspace} (hk : k.store.WellFormed) (own : Bytes → Prop) :
    k.AgreesOn own k :=
  ⟨rfl, rfl, rfl, hk, hk, fun _ _ => rfl⟩

/-- Our clients are answered as if the others were not there. -/
theorem repliesTo_replay_of_separate {k : Keyspace} (hk : k.store.WellFormed)
    {ours : Nat → Bool} {ts : List Turn} (h : Separate ours (ts.filterMap Turn.request?)) :
    repliesTo ours (k.replay ts).1 = (k.replay (onlyOf ours ts)).1 := by
  let own := fun key => ∃ p ∈ ts.filterMap Turn.request?, ours p.1 = true ∧ key ∈ namedBy p.2
  apply (agreesOn_self hk own).repliesTo_replay
  · intro p hp hours
    exact ⟨h.confined p hp hours, fun key hkey => ⟨p, hp, hours, hkey⟩⟩
  · rintro q hq hothers key hkey ⟨p, hp, hours, hnamed⟩
    exact h.apart p hp hours q hq hothers key hkey hnamed

end Keyspace

theorem filterMap_request?_onlyOf (ours : Nat → Bool) (ts : List Turn) :
    (onlyOf ours ts).filterMap Turn.request? =
      (ts.filterMap Turn.request?).filter fun p => ours p.1 := by
  rw [onlyOf, List.filterMap_filter, List.filter_filterMap]
  congr 1
  funext t
  cases t with
  | request i f =>
      cases hi : ours i with
      | true => simp [Turn.request?, Option.filter_some, hi]
      | false => simp [Turn.request?, Option.filter_some, hi]
  | advance duration => rfl
  | sweep => rfl

/-- Histories with the same requests of each group are separate alike. -/
theorem Separate.of_onlyOf_eq {ours : Nat → Bool} {ts ts' : List Turn}
    (h : Separate ours (ts.filterMap Turn.request?)) (hours : onlyOf ours ts' = onlyOf ours ts)
    (hothers : onlyOf (fun i => !ours i) ts' = onlyOf (fun i => !ours i) ts) :
    Separate ours (ts'.filterMap Turn.request?) := by
  have hmem : ∀ p ∈ ts'.filterMap Turn.request?, p ∈ ts.filterMap Turn.request? := by
    intro p hp
    cases hi : ours p.1 with
    | true =>
        have hin : p ∈ (onlyOf ours ts').filterMap Turn.request? := by
          rw [filterMap_request?_onlyOf]
          exact List.mem_filter.mpr ⟨hp, hi⟩
        rw [hours, filterMap_request?_onlyOf] at hin
        exact List.mem_of_mem_filter hin
    | false =>
        have hin : p ∈ (onlyOf (fun i => !ours i) ts').filterMap Turn.request? := by
          rw [filterMap_request?_onlyOf]
          exact List.mem_filter.mpr ⟨hp, congrArg not hi⟩
        rw [hothers, filterMap_request?_onlyOf] at hin
        exact List.mem_of_mem_filter hin
  constructor
  · exact fun p hp => h.confined p (hmem p hp)
  · exact fun p hp hi q hq => h.apart p (hmem p hp) hi q (hmem q hq)

/-- Clients on separate keys do not interfere. In any history our clients are answered as in
the one without the requests of the others, at the same times and with the same sweeps. So
they are answered alike in all histories that have the same requests of each group at the
same times, however these are interleaved. -/
theorem replay_onlyOf (k : Keyspace) (hk : k.store.WellFormed) (ours : Nat → Bool)
    (ts : List Turn) (h : Separate ours (ts.filterMap Turn.request?)) :
    repliesTo ours (k.replay ts).1 = (k.replay (onlyOf ours ts)).1 ∧
      ∀ ts', onlyOf ours ts' = onlyOf ours ts →
        onlyOf (fun i => !ours i) ts' = onlyOf (fun i => !ours i) ts →
        repliesTo ours (k.replay ts').1 = repliesTo ours (k.replay ts).1 := by
  have halone := Keyspace.repliesTo_replay_of_separate hk h
  refine ⟨halone, ?_⟩
  intro ts' hours hothers
  have halone' := Keyspace.repliesTo_replay_of_separate hk (h.of_onlyOf_eq hours hothers)
  rw [halone', halone, hours]

/-- Two clients on one bucket; the second one's removal moves the first one's entry. -/
def twoClients : List Turn :=
  [.request 1 (requestOf ["SET", "b", "1"]), .request 0 (requestOf ["SET", "c", "2"]),
    .request 0 (requestOf ["SET", "a", "3", "EX", "2"]), .request 1 (requestOf ["DEL", "b", "x"]),
    .advance Instant.second, .request 1 (requestOf ["KEYS"]), .request 0 (requestOf ["FLUSHALL"]),
    .sweep, .request 0 (requestOf ["DEL", "c", "a", "c"])]

theorem replay_twoClients :
    let k : Keyspace := ⟨⟨0⟩, Store.withBuckets 1, true, [Reaper.new 100 ⟨0⟩]⟩
    let ours := fun i : Nat => i == 0
    k.store.WellFormed ∧ Separate ours (twoClients.filterMap Turn.request?) ∧
      repliesTo ours (k.replay twoClients).1 = (k.replay (onlyOf ours twoClients)).1 ∧
      repliesTo ours (k.replay twoClients).1 =
        [(0, .simple "OK"), (0, .simple "OK"), (0, .error "ERR unknown command 'FLUSHALL'"),
          (0, .integer 2)] := by
  intro k ours
  have hk : k.store.WellFormed := Store.wellFormed_withBuckets 1
  have hseparate : Separate ours (twoClients.filterMap Turn.request?) := by
    constructor
    · decide
    · decide
  refine ⟨hk, hseparate, (replay_onlyOf k hk ours twoClients hseparate).1, ?_⟩
  decide +kernel

end RespServer
