import RespServer.Proofs.Store.Usage

/-!
# Reachable stores

A store is reachable if uses alone have made it out of a new one. It is well-formed, and its
deadlines are instants of the clock.
-/

namespace RespServer.Store

/-- A deadline that the caller names is an instant of the clock. -/
def Use.OnClock : Use → Prop
  | operate (.set _ _ (some d)) => d.nanos ≤ Instant.latest.nanos
  | _ => True

/-- The stores that uses make out of a new one, whatever its number of buckets. -/
inductive Reachable : Store → Prop
  | new (n : Nat) : Reachable (withBuckets n)
  | use {s : Store} (hs : Reachable s) (now : Instant) {u : Use} (hu : u.OnClock) :
      Reachable (s.use now u)

/-- Uses that write other keys only may take an entry away, but put none in its place. -/
theorem WellFormed.found_useAll {s : Store} (hs : s.WellFormed) {key : Bytes} {e : Entry}
    {uses : List (Instant × Use)}
    (hothers : ∀ u ∈ uses, ∀ written, u.2.written? u.1 = some written → written.key ≠ key)
    (h : (s.useAll uses).find? key = some e) : s.find? key = some e := by
  induction uses generalizing s with
  | nil => exact h
  | cons u uses ih =>
      obtain ⟨hfirst, hrest⟩ := List.forall_mem_cons.mp hothers
      have hfound := ih (hs.use u.1 u.2) hrest h
      rcases hs.found_use hfound with hwritten | ⟨-, hold⟩
      · have hkey := ((hs.use u.1 u.2).find?_eq_some_iff.mp hfound).2
        exact absurd hkey (hfirst e hwritten)
      · exact hold

theorem Use.deadline_le {now : Instant} {u : Use} (hu : u.OnClock) {e : Entry} {d : Instant}
    (h : u.written? now = some e) (hd : e.deadline = some d) : d.nanos ≤ Instant.latest.nanos := by
  have hafter {duration : Nat} (h : now.after? duration = some d) :
      d.nanos ≤ Instant.latest.nanos := by
    obtain ⟨hle, rfl⟩ := Instant.after?_eq_some_iff.mp h
    exact hle
  unfold Use.written? at h
  split at h
  · cases h
    obtain rfl : _ = some d := hd
    exact hu
  · cases h
    exact hafter hd
  · split at h
    · cases h
      obtain ⟨n, -, hn⟩ := Option.bind_eq_some_iff.mp hd
      exact hafter hn
    · cases h
  · cases h

namespace Reachable

variable {s : Store} (hs : s.Reachable)
include hs

theorem execute (now : Instant) (f : Frame) : (RespServer.execute now s f).2.Reachable :=
  hs.use now (u := .request f) trivial

theorem wellFormed : s.WellFormed := by
  induction hs with
  | new n => exact wellFormed_withBuckets n
  | use _ now _ ih => exact ih.use now _

/-- Every deadline is an instant of the clock. -/
theorem deadline_le {key : Bytes} {e : Entry} {d : Instant} (h : s.find? key = some e)
    (hd : e.deadline = some d) : d.nanos ≤ Instant.latest.nanos := by
  induction hs with
  | new n =>
      rw [find?_withBuckets] at h
      cases h
  | use hs now hu ih =>
      rcases hs.wellFormed.found_use h with hwritten | ⟨-, hold⟩
      · exact Use.deadline_le hu hwritten hd
      · exact ih hold

end Reachable

end RespServer.Store
