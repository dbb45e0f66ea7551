import RespServer.Proofs.Frame.Stream

/-!
# Frames completed by a chunk

A frame is complete once its last byte has arrived. A chunk completes the frames
whose ends lie within it; they are the ones that can be read from what was left
over before, followed by the chunk.
-/

namespace RespServer.Frame

theorem failure?_of_append {stream more : Bytes} (h : failure? (stream ++ more) = none) :
    failure? stream = none := by
  cases hf : failure? stream with
  | none => rfl
  | some e =>
      rw [(append_of_failure more hf).2] at h
      cases h

/-- The frames whose last byte is among those behind `before` up to `now`. -/
def completed (stream : Bytes) (before now : Nat) : List Frame :=
  ((frameEnds stream).filter fun p => before < p.2 ∧ p.2 ≤ now).map Prod.fst

theorem le_of_mem_frameEnds {stream : Bytes} {p : Frame × Nat} (hp : p ∈ frameEnds stream) :
    p.2 ≤ stream.length := by
  obtain ⟨q, -, rfl⟩ := List.mem_map.mp hp
  exact Nat.sub_le _ _

/-- No frame that could not be read before ends within what was there. -/
theorem lt_of_mem_frameEnds {bytes more : Bytes} (h : parse bytes = .error .incomplete)
    {p : Frame × Nat} (hp : p ∈ frameEnds (bytes ++ more)) : bytes.length < p.2 := by
  cases hparse : parse (bytes ++ more) with
  | error e =>
      rw [frameEnds_of_error hparse] at hp
      cases hp
  | ok split =>
      obtain ⟨f, rest⟩ := split
      obtain ⟨used, hsplit, hused⟩ := steady_parse.taken hparse
      have hlong : bytes.length < used.length := by
        by_contra hle
        obtain ⟨behind, rfl⟩ : used <+: bytes :=
          List.prefix_of_prefix_length_le ⟨rest, hsplit.symm⟩ ⟨more, rfl⟩ (Nat.not_lt.mp hle)
        rw [hused] at h
        cases h
      rw [hsplit] at hp hparse
      rw [frameEnds_of_ok hparse] at hp
      rcases List.mem_cons.mp hp with rfl | hp
      · exact hlong
      · obtain ⟨q, -, rfl⟩ := List.mem_map.mp hp
        exact Nat.lt_of_lt_of_le hlong (Nat.le_add_right _ _)

theorem stop_add_length_leftover (stream : Bytes) :
    stop stream + (leftover stream).length = stream.length := by
  have hle : stop stream ≤ stream.length := by
    rw [stop]
    cases hlast : (frameEnds stream).getLast? with
    | none => exact Nat.zero_le _
    | some p => exact le_of_mem_frameEnds (List.mem_of_getLast? hlast)
  rw [leftover, List.length_drop]
  omega

/-- Where a stream is read on, every further end is past what has arrived. -/
theorem lt_of_mem_frameEnds_leftover {stream more : Bytes} (h : failure? stream = none)
    {p : Frame × Nat} (hp : p ∈ frameEnds (leftover stream ++ more)) :
    stream.length < stop stream + p.2 := by
  have hparse := parse_leftover stream
  rw [h, Option.getD_none] at hparse
  have hlt := lt_of_mem_frameEnds hparse hp
  have hlen := stop_add_length_leftover stream
  omega

/-- A chunk completes the frames read from the leftover bytes and the chunk. -/
theorem completed_eq {stream chunk later : Bytes}
    (h : failure? (stream ++ (chunk ++ later)) = none) :
    completed (stream ++ (chunk ++ later)) stream.length (stream.length + chunk.length) =
      frames (leftover stream ++ chunk) := by
  rw [← List.append_assoc] at h
  have hnow : failure? (stream ++ chunk) = none := failure?_of_append h
  have hbefore : failure? stream = none := failure?_of_append hnow
  rw [completed, ← List.append_assoc, frameEnds_append later hnow, frameEnds_append chunk hbefore,
    List.filter_append, List.filter_append]
  have hearly : ((frameEnds stream).filter fun p =>
      stream.length < p.2 ∧ p.2 ≤ stream.length + chunk.length) = [] := by
    apply List.filter_eq_nil_iff.mpr
    intro p hp
    have hle := le_of_mem_frameEnds hp
    simp only [decide_eq_true_eq]
    omega
  have hlate : (((frameEnds (leftover (stream ++ chunk) ++ later)).map fun p =>
      (p.1, stop (stream ++ chunk) + p.2)).filter fun p =>
        stream.length < p.2 ∧ p.2 ≤ stream.length + chunk.length) = [] := by
    apply List.filter_eq_nil_iff.mpr
    intro p hp
    obtain ⟨q, hq, rfl⟩ := List.mem_map.mp hp
    have hlt := lt_of_mem_frameEnds_leftover hnow hq
    rw [List.length_append] at hlt
    simp only [decide_eq_true_eq]
    omega
  have hhere : (((frameEnds (leftover stream ++ chunk)).map fun p =>
      (p.1, stop stream + p.2)).filter fun p =>
        stream.length < p.2 ∧ p.2 ≤ stream.length + chunk.length) =
      (frameEnds (leftover stream ++ chunk)).map fun p => (p.1, stop stream + p.2) := by
    apply List.filter_eq_self.mpr
    intro p hp
    obtain ⟨q, hq, rfl⟩ := List.mem_map.mp hp
    have hlt := lt_of_mem_frameEnds_leftover hbefore hq
    have hle := le_of_mem_frameEnds hq
    have hlen := stop_add_length_leftover stream
    rw [List.length_append] at hle
    simp only [decide_eq_true_eq]
    omega
  rw [hearly, hlate, hhere, List.nil_append, List.append_nil, List.map_map]
  rfl

end RespServer.Frame
