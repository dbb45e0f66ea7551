import RespServer.Proofs.Command.Effect
import RespServer.Proofs.Command.LastWrite
import RespServer.Proofs.Store.Thinned

/-!
# Histories without their sweeps

A run with sweeps is compared with the one without them. Its store is thinned from the
other one at every point, so all that is read is the same. Only counts of linked keys
can tell the runs apart; they are lower in the run with sweeps.
-/

namespace RespServer

def Turn.isSweep : Turn → Bool
  | sweep => true
  | _ => false

/-- The same requests at the same times, and nothing swept in between. -/
def unswept (ts : List Turn) : List Turn :=
  ts.filter fun t => !t.isSweep

/-- How the replies to a command compare that come from the run with sweeps and from the
one without. No count of linked keys is above `limit`. -/
def Command.Resembles (limit : Nat) (swept full : Frame) : Command → Prop
  | keys _ => ∃ listed listed' : List Bytes, listed.Perm listed' ∧
      swept = .array (listed.map .bulk) ∧ full = .array (listed'.map .bulk)
  | dbSize | delete _ => ∃ m n : Nat, m ≤ n ∧ n ≤ limit ∧
      swept = .integer (Int64.ofNat m) ∧ full = .integer (Int64.ofNat n)
  | _ => swept = full

/-- How the replies to a request compare; errors are the same. -/
def Resembles (limit : Nat) (request swept full : Frame) : Prop :=
  match Command.ofFrame request with
  | .ok command => command.Resembles limit swept full
  | .error _ => swept = full

namespace Command

section Thinned

variable {s u : Store} {now : Instant} (h : s.ThinnedFrom u now)
include h

theorem thinnedFrom_removeAll (targets : List Bytes) :
    (removeAll targets s).2.ThinnedFrom (removeAll targets u).2 now := by
  induction targets generalizing s u with
  | nil => exact h
  | cons target targets ih => exact ih (h.remove target)

theorem removeAll_fst_le (targets : List Bytes) :
    (removeAll targets s).1 ≤ (removeAll targets u).1 := by
  induction targets generalizing s u with
  | nil => exact Nat.le_refl 0
  | cons target targets ih => exact Nat.add_le_add (ih (h.remove target)) (h.remove_fst_le target)

theorem thinnedFrom_effect (command : Command) :
    (command.effect now s).ThinnedFrom (command.effect now u) now := by
  cases command with
  | delete targets => exact thinnedFrom_removeAll h targets
  | set key value seconds => exact h.set key value _
  | _ => exact h

/-- The replies are the same but for the order of keys and for counts of linked keys. -/
theorem resembles_execute {limit : Nat} (hlimit : u.size ≤ limit) (command : Command) :
    command.Resembles limit (command.execute now s).1 (command.execute now u).1 := by
  cases command with
  | dbSize => exact ⟨s.size, u.size, h.size_le, hlimit, rfl, rfl⟩
  | delete targets =>
      have hsize := removeAll_fst_add_size h.wellFormed_full targets
      exact ⟨_, _, removeAll_fst_le h targets, by omega, rfl, rfl⟩
  | keys pattern => exact ⟨_, _, h.keys_perm, rfl, rfl⟩
  | existing targets =>
      change (execute now s (.existing targets)).1 = (execute now u (.existing targets)).1
      rw [execute, execute, h.contains_eq]
  | get key =>
      change (execute now s (.get key)).1 = (execute now u (.get key)).1
      rw [execute, execute, h.get?_eq]
      cases u.get? now key with
      | none => rfl
      | some value => rfl
  | ttl key =>
      change (execute now s (.ttl key)).1 = (execute now u (.ttl key)).1
      rw [execute, execute, h.lifetime_eq]
  | ping message =>
      cases message with
      | none => rfl
      | some text => rfl
  | set key value seconds =>
      cases seconds with
      | none => rfl
      | some n => rfl
  | echo message => rfl

end Thinned

end Command

namespace Keyspace

/-- One keyspace has been swept at times, the other has not and never will. -/
structure SweptFrom (k u : Keyspace) : Prop where
  now_eq : k.now = u.now
  reapers_eq : u.reapers = []
  thinned : k.store.ThinnedFrom u.store k.now

theorem advance_of_reapers_eq {u : Keyspace} (h : u.reapers = []) (duration : Nat) :
    u.advance duration = { u with now := u.now.after duration } := by
  obtain ⟨now, store, held, reapers⟩ := u
  cases h
  rfl

namespace SweptFrom

variable {k u : Keyspace} (h : k.SweptFrom u)
include h

theorem sweep : k.sweep.SweptFrom u where
  now_eq := h.now_eq
  reapers_eq := h.reapers_eq
  thinned := h.thinned.sweep

/-- Reapers sweep one of the keyspaces as its clock goes on. -/
theorem advance (duration : Nat) : (k.advance duration).SweptFrom (u.advance duration) := by
  rw [advance_of_reapers_eq h.reapers_eq]
  refine ⟨congrArg (Instant.after · duration) h.now_eq, h.reapers_eq, ?_⟩
  apply k.advance_induction (P := fun s => s.ThinnedFrom u.store (k.now.after duration)) duration
  · intro s hs
    exact hs.sweep
  · exact h.thinned.of_le (Turn.nanos_le_clock k.now (.advance duration))

theorem request (i : Nat) (f : Frame) :
    (k.turn (.request i f)).2.SweptFrom (u.turn (.request i f)).2 := by
  refine ⟨h.now_eq, h.reapers_eq, ?_⟩
  change (RespServer.execute k.now k.store f).2.ThinnedFrom
    (RespServer.execute u.now u.store f).2 k.now
  rw [← h.now_eq, execute_snd, execute_snd]
  cases Command.ofFrame f with
  | ok command => exact Command.thinnedFrom_effect h.thinned command
  | error refusal => exact h.thinned

theorem resembles_ask {limit : Nat} (hlimit : u.store.size ≤ limit) (f : Frame) :
    Resembles limit f (k.ask f) (u.ask f) := by
  rw [ask, ask, ← h.now_eq, Resembles, RespServer.execute, RespServer.execute]
  cases Command.ofFrame f with
  | ok command => exact Command.resembles_execute h.thinned hlimit command
  | error refusal => rfl

theorem size_request_le (i : Nat) (f : Frame) :
    (u.turn (.request i f)).2.store.size ≤ u.store.size + 1 :=
  size_execute_le h.thinned.wellFormed_full u.now f

theorem replay (ts : List Turn) : (k.replay ts).2.SweptFrom (u.replay (unswept ts)).2 := by
  induction ts generalizing k u with
  | nil => exact h
  | cons t ts ih =>
      cases t with
      | request i f => exact ih (h.request i f)
      | advance duration => exact ih (h.advance duration)
      | sweep => exact ih h.sweep

/-- The replies to one request, at its place among the replies of both runs. -/
theorem replies {earlier : Nat} (hsize : u.store.size ≤ earlier) {ts : List Turn} {j i : Nat}
    {f : Frame} (hj : (ts.filterMap Turn.request?)[j]? = some (i, f)) :
    ∃ r r', (k.replay ts).1[j]? = some (i, r) ∧
      (u.replay (unswept ts)).1[j]? = some (i, r') ∧ Resembles (earlier + j) f r r' := by
  induction ts generalizing k u earlier j with
  | nil => cases hj
  | cons t ts ih =>
      cases t with
      | request i' f' =>
          cases j with
          | zero =>
              cases hj
              exact ⟨k.ask f, u.ask f, rfl, rfl, h.resembles_ask hsize f⟩
          | succ j =>
              have hsize' := Nat.le_trans (h.size_request_le i' f') (Nat.succ_le_succ hsize)
              rw [← Nat.succ_add_eq_add_succ earlier]
              exact ih (h.request i' f') hsize' hj
      | advance duration =>
          have hstore : (u.advance duration).store.size ≤ earlier := by
            rwa [advance_of_reapers_eq h.reapers_eq]
          exact ih (h.advance duration) hstore hj
      | sweep => exact ih h.sweep hsize hj

end SweptFrom

/-- Every request is answered once. -/
theorem length_replay (k : Keyspace) (ts : List Turn) :
    (k.replay ts).1.length = (ts.filterMap Turn.request?).length := by
  induction ts generalizing k with
  | nil => rfl
  | cons t ts ih =>
      cases t with
      | request i f => exact congrArg Nat.succ (ih _)
      | advance duration => exact ih _
      | sweep => exact ih _

theorem filterMap_request?_unswept (ts : List Turn) :
    (unswept ts).filterMap Turn.request? = ts.filterMap Turn.request? := by
  rw [unswept, List.filterMap_filter]
  congr 1
  funext t
  cases t with
  | _ => rfl

end Keyspace

/-- No read observes a sweep. A run with sweeps at any points and any reapers answers as
the run without them does, up to the order of listed keys and lower counts of linked keys.
At every point its linked keys are among those of the other run, and both have the same
live entries. -/
theorem replay_unswept (n : Nat) (now : Instant) (held held' : Bool) (reapers : List Reaper)
    (ts : List Turn) :
    let swept : Keyspace := ⟨now, Store.withBuckets n, held, reapers⟩
    let full : Keyspace := ⟨now, Store.withBuckets n, held', []⟩
    let asked := ts.filterMap Turn.request?
    (swept.replay ts).1.length = asked.length ∧
      (full.replay (unswept ts)).1.length = asked.length ∧
      (∀ j i f, asked[j]? = some (i, f) →
        ∃ r r', (swept.replay ts).1[j]? = some (i, r) ∧
          (full.replay (unswept ts)).1[j]? = some (i, r') ∧ Resembles j f r r') ∧
      ∀ before, before <+: ts →
        let k := (swept.replay before).2
        let u := (full.replay (unswept before)).2
        k.now = u.now ∧ k.store.entries.map Entry.key ⊆ u.store.entries.map Entry.key ∧
          (Chain.live k.now k.store.entries).Perm (Chain.live u.now u.store.entries) := by
  intro swept full asked
  have hstart : swept.SweptFrom full :=
    ⟨rfl, rfl, (Store.wellFormed_withBuckets n).thinnedFrom_self now⟩
  refine ⟨Keyspace.length_replay swept ts, ?_, ?_, ?_⟩
  · rw [Keyspace.length_replay, Keyspace.filterMap_request?_unswept]
  · intro j i f hj
    have hreplies := hstart.replies (Nat.le_refl 0) hj
    rwa [Nat.zero_add] at hreplies
  · intro before _ k u
    have hpoint : k.SweptFrom u := hstart.replay before
    refine ⟨hpoint.now_eq, List.map_subset _ hpoint.thinned.entries_subset, ?_⟩
    rw [← hpoint.now_eq]
    exact hpoint.thinned.live_perm

/-- A sweep can be told from the number of linked keys, and from nothing else. -/
example :
    let k : Keyspace := ⟨⟨0⟩, Store.withBuckets 1, true, []⟩
    let ts := [.request 0 (requestOf ["SET", "a", "1", "EX", "1"]), .advance Instant.second,
      .sweep, .request 0 (requestOf ["GET", "a"]), .request 0 (requestOf ["DBSIZE"])]
    (k.replay ts).1 = [(0, .simple "OK"), (0, .null), (0, .integer 0)] ∧
      (k.replay (unswept ts)).1 = [(0, .simple "OK"), (0, .null), (0, .integer 1)] := by
  decide +kernel

end RespServer
