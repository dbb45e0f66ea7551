import Mathlib.Algebra.Ring.Nat
import RespServer.Proofs.Command.Effect
import RespServer.Proofs.Session.Answers

/-!
# How much a session holds

Each key that is linked and each byte that is buffered is paid for with a byte that has
arrived: a frame takes at least one byte, and a request links at most one key. So no
more keys can be listed than bytes have been read.
-/

namespace RespServer

theorem Frame.length_frames_add_leftover_le (stream : Bytes) :
    (frames stream).length + (leftover stream).length ≤ stream.length := by
  induction stream using stream_induction with
  | stopped stream e h =>
      rw [frames_of_error h, leftover_of_error h]
      exact Nat.le_of_eq (Nat.zero_add _)
  | frame stream f rest h ih =>
      have hlt := length_of_parse h
      rw [frames_of_ok h, leftover_of_ok h, List.length_cons]
      omega

/-- What is decoded and what stays buffered are at most the bytes that were there. -/
theorem Decoder.length_frames_add_drain_le (d : Decoder) :
    (Frame.frames d.buffer).length + d.drain.2.buffer.length ≤ d.buffer.length := by
  have hle := Frame.length_frames_add_leftover_le d.buffer
  rw [drain_eq d.limit d.buffer]
  simp only [residue]
  split
  · exact hle
  · exact Nat.le_of_add_right_le hle

theorem wellFormed_executeAll {s : Store} (hs : s.WellFormed) (now : Instant)
    (requests : List Frame) : (executeAll now requests s).WellFormed := by
  induction requests generalizing s with
  | nil => exact hs
  | cons f requests ih => exact ih (wellFormed_execute hs now f)

theorem size_executeAll_le {s : Store} (hs : s.WellFormed) (now : Instant)
    (requests : List Frame) : (executeAll now requests s).size ≤ s.size + requests.length := by
  induction requests generalizing s with
  | nil => exact Nat.le_refl _
  | cons f requests ih =>
      have hfirst := size_execute_le hs now f
      have hrest := ih (wellFormed_execute hs now f)
      rw [List.length_cons]
      change (executeAll now requests (execute now s f).2).size ≤ _
      omega

namespace Session

/-- The number of bytes that a connection has buffered. -/
def pending (connection : Option Decoder) : Nat :=
  (connection.map fun d => d.buffer.length).getD 0

def buffered (connections : List (Option Decoder)) : Nat :=
  (connections.map pending).sum

theorem buffered_set {connections : List (Option Decoder)} {i : Nat} {old : Option Decoder}
    (h : connections[i]? = some old) (new : Option Decoder) :
    buffered (connections.set i new) + pending old = buffered connections + pending new := by
  induction connections generalizing i with
  | nil => cases h
  | cons c connections ih =>
      cases i with
      | zero =>
          cases h
          simp only [buffered, List.set_cons_zero, List.map_cons, List.sum_cons]
          omega
      | succ i =>
          have hrest := ih h
          simp only [buffered, List.set_cons_succ, List.map_cons, List.sum_cons] at hrest ⊢
          omega

/-- A request takes at least one of the bytes that were there or are read. -/
theorem length_requestsAmong_drainEach_le (d : Decoder) (reads : List Bytes) :
    (requestsAmong (d.drainEach reads).1).length ≤ d.buffer.length + reads.flatten.length := by
  induction reads generalizing d with
  | nil => exact Nat.zero_le _
  | cons chunk reads ih =>
      have hfirst := (d.feed chunk).length_frames_add_drain_le
      have hfeed : (d.feed chunk).buffer.length = d.buffer.length + chunk.length :=
        List.length_append
      have hlater := ih (d.feed chunk).drain.2
      rw [Decoder.drainEach, requestsAmong_append, List.length_append, requestsAmong_drain,
        List.flatten_cons, List.length_append]
      omega

/-- The number of bytes that an action reads. -/
def Action.volume : Action → Nat
  | .event (.read _ chunk) => chunk.length
  | _ => 0

/-- The number of bytes that are read in all. -/
def received (actions : List Action) : Nat :=
  (actions.map Action.volume).sum

theorem received_concat (before : List Action) (action : Action) :
    received (before ++ [action]) = received before + action.volume := by
  simp [received]

/-- What an action reads pays for the requests that it completes and for what it leaves
buffered. -/
theorem length_arriving_add_buffered_le {s s' : Session} {action : Action}
    {sent : List (Nat × Bytes)} (h : s.act action = .ok (sent, s')) :
    (s.arriving action).length + buffered s'.connections ≤
      buffered s.connections + action.volume := by
  cases action with
  | sweep =>
      cases h
      exact Nat.le_of_eq (Nat.zero_add _)
  | event e =>
      cases e with
      | connect =>
          cases h
          change 0 + buffered s.connect.2.connections ≤ _
          rw [connect_snd]
          split
          · simp [buffered, pending, Decoder.new]
          · exact Nat.le_of_eq (Nat.zero_add _)
      | read i chunk =>
          obtain ⟨d, hd⟩ := exists_connection?_of_act h (.inl ⟨chunk, rfl⟩)
          rw [act_read_executed hd] at h
          cases h
          have hset := buffered_set (getElem?_of_connection? hd) (some (d.feed chunk).drain.2)
          have hdrain := (d.feed chunk).length_frames_add_drain_le
          rw [arriving_read hd]
          simp only [pending, Decoder.feed, Option.map_some, Option.getD_some,
            List.length_append] at hset hdrain ⊢
          simp only [Action.volume]
          omega
      | close i =>
          obtain ⟨d, hd⟩ := exists_connection?_of_act h (.inr rfl)
          rw [act_close hd] at h
          cases h
          have hset := buffered_set (getElem?_of_connection? hd) none
          simp only [pending, Option.map_none, Option.getD_none] at hset
          simp only [arriving, List.length_nil]
          omega
      | _ =>
          cases h
          exact Nat.le_of_eq (Nat.zero_add _)

/-- A session in which `before` has happened holds no more than has been read. -/
structure Covered (before : List Action) (s : Session) : Prop where
  wellFormed : s.keyspace.store.WellFormed
  size_le : s.keyspace.store.size + buffered s.connections ≤ received before

theorem covered_start (network : Network) (limit : Nat) (reaper : Option Nat) (now : Instant) :
    Covered [] (start network limit reaper now) := by
  have hstore : (start network limit reaper now).keyspace.store.WellFormed ∧
      (start network limit reaper now).keyspace.store.size ≤ 0 := by
    apply store_start_induction (P := fun u => u.WellFormed ∧ u.size ≤ 0)
    · rintro now u ⟨hu, hsize⟩
      exact ⟨hu.sweep now, Nat.le_trans (u.size_sweep_le now) hsize⟩
    · exact ⟨Store.wellFormed_withBuckets _, Nat.le_refl 0⟩
  exact ⟨hstore.1, hstore.2⟩

namespace Covered

variable {before : List Action} {s s' : Session}

theorem act (h : Covered before s) {action : Action} {sent : List (Nat × Bytes)}
    (hact : s.act action = .ok (sent, s')) : Covered (before ++ [action]) s' := by
  let most := s.keyspace.store.size + (s.arriving action).length
  have hstore : s'.keyspace.store.WellFormed ∧ s'.keyspace.store.size ≤ most := by
    apply store_act_induction (P := fun u => u.WellFormed ∧ u.size ≤ most) hact
    · rintro now u ⟨hu, hsize⟩
      exact ⟨hu.sweep now, Nat.le_trans (u.size_sweep_le now) hsize⟩
    · exact ⟨wellFormed_executeAll h.wellFormed _ _, size_executeAll_le h.wellFormed _ _⟩
  have hbuffered := length_arriving_add_buffered_le hact
  have hsize := h.size_le
  refine ⟨hstore.1, ?_⟩
  rw [received_concat]
  omega

theorem perform (h : Covered before s) {actions : List Action} {sent : List (Nat × Bytes)}
    (hperform : s.perform actions = .ok (sent, s')) : Covered (before ++ actions) s' :=
  perform_induction (fun _ _ _ _ _ h hact => h.act hact) before h hperform

/-- At no point of the answer to several reads are more keys linked than bytes have been
read. -/
theorem size_executeAll_take_le (h : Covered before s) {i : Nat} {d : Decoder}
    (hopen : s.connection? i = some d) (reads : List Bytes) (j : Nat) :
    (executeAll s.keyspace.now (requestsAmong ((d.drainEach reads).1.take j))
      s.keyspace.store).size ≤ received before + reads.flatten.length := by
  have hexecuted := size_executeAll_le h.wellFormed s.keyspace.now
    (requestsAmong ((d.drainEach reads).1.take j))
  have htake : (requestsAmong ((d.drainEach reads).1.take j)).length ≤
      (requestsAmong (d.drainEach reads).1).length :=
    ((List.take_prefix j _).filterMap Except.toOption).length_le
  have hdrain := length_requestsAmong_drainEach_le d reads
  have hpending : d.buffer.length ≤ buffered s.connections := by
    have hset := buffered_set (getElem?_of_connection? hopen) none
    simp only [pending, Option.map_some, Option.getD_some, Option.map_none,
      Option.getD_none] at hset
    omega
  have hsize := h.size_le
  omega

end Covered

end Session

end RespServer
