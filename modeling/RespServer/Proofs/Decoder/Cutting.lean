import RespServer.Proofs.Decoder.Drain

/-!
# Cutting a stream into chunks

A stream arrives in chunks, cut anywhere. Behind each chunk frames are taken
until the decoder waits for more or fails. What it yields up to its first error
is what reading the whole stream at once yields; only a limit on unfinished
frames can stop it earlier, and only where a chunk ends.
-/

namespace RespServer.Decoder

open RespServer.Frame (parse frames frameEnds leftover failure?)

/-- What has been decoded up to the first error, the bytes then buffered and the
chunks not yet taken in. -/
structure Output where
  frames : List Frame
  error : Option ProtocolError
  buffer : Bytes
  unread : List Bytes

/-- Takes frames until the decoder waits for more or fails. -/
def takeFrames (d : Decoder) : List Frame × Option ProtocolError × Decoder :=
  match _h : d.next with
  | (.more, d') => ([], none, d')
  | (.failed e, d') => ([], some e, d')
  | (.frame f, d') =>
    let (fs, outcome) := takeFrames d'
    (f :: fs, outcome)
termination_by d.buffer.length
decreasing_by exact buffer_of_next_frame _h

/-- Takes chunks in one behind the other, up to the first error. -/
def readChunks (d : Decoder) : List Bytes → Output
  | [] => ⟨[], none, d.buffer, []⟩
  | chunk :: chunks =>
    match (d.feed chunk).takeFrames with
    | (fs, some e, d') => ⟨fs, some e, d'.buffer, chunks⟩
    | (fs, none, d') =>
      let later := d'.readChunks chunks
      { later with frames := fs ++ later.frames }

/-- The stream up to the end of a chunk. -/
def received (chunks : List Bytes) (j : Nat) : Bytes :=
  (chunks.take j).flatten

/-- Behind the frames of the stream is an unfinished one over the limit. -/
def oversized (limit : Nat) (stream : Bytes) : Bool :=
  failure? stream = none ∧ limit < (leftover stream).length

/-- The first end of a chunk where an unfinished frame is over the limit. -/
def firstOversized? (limit : Nat) (chunks : List Bytes) : Option Nat :=
  (List.range (chunks.length + 1)).find? fun j => oversized limit (received chunks j)

theorem takeFrames_of_more {d d' : Decoder} (h : d.next = (.more, d')) :
    d.takeFrames = ([], none, d') := by
  rw [takeFrames]
  split <;> simp_all

theorem takeFrames_of_failed {d d' : Decoder} {e : ProtocolError}
    (h : d.next = (.failed e, d')) : d.takeFrames = ([], some e, d') := by
  rw [takeFrames]
  split <;> simp_all

theorem takeFrames_of_frame {d d' : Decoder} {f : Frame} (h : d.next = (.frame f, d')) :
    d.takeFrames = (f :: d'.takeFrames.1, d'.takeFrames.2) := by
  rw [takeFrames]
  split <;> simp_all

theorem takeFrames_eq (limit : Nat) (bytes : Bytes) :
    (Decoder.mk limit bytes).takeFrames =
      (frames bytes, verdict limit bytes, ⟨limit, residue limit bytes⟩) := by
  induction bytes using Frame.stream_induction with
  | stopped bytes e h =>
      have hnext := next_of_error (d := ⟨limit, bytes⟩) h
      rw [Frame.frames_of_error h, residue, Frame.leftover_of_error h]
      cases hv : verdict limit bytes with
      | none =>
          rw [hv] at hnext
          exact takeFrames_of_more hnext
      | some err =>
          rw [hv] at hnext
          exact takeFrames_of_failed hnext
  | frame bytes f rest h ih =>
      rw [takeFrames_of_frame (next_of_ok (d := ⟨limit, bytes⟩) h), ih, verdict_of_ok h,
        residue_of_ok h, Frame.frames_of_ok h]

theorem oversized_iff {limit : Nat} {stream : Bytes} :
    oversized limit stream = true ↔ verdict limit stream = some (.frameTooLarge limit) := by
  rw [oversized, verdict, decide_eq_true_iff]
  cases failure? stream with
  | none => simp
  | some e => simp

theorem verdict_of_fits {limit : Nat} {stream : Bytes} (hfail : failure? stream = none)
    (hfits : oversized limit stream = false) : verdict limit stream = none := by
  rw [oversized, decide_eq_false_iff_not, not_and] at hfits
  rw [verdict, hfail]
  exact if_neg (hfits hfail)

theorem received_cons (chunk : Bytes) (chunks : List Bytes) (j : Nat) :
    received (chunk :: chunks) (j + 1) = chunk ++ received chunks j := by
  rw [received, List.take_succ_cons, List.flatten_cons, received]

theorem received_one (chunk : Bytes) (chunks : List Bytes) :
    received (chunk :: chunks) 1 = chunk := by
  rw [received_cons, received, List.take_zero, List.flatten_nil, List.append_nil]

/-- The bytes received are a front part of the stream. -/
theorem exists_received_append (chunks : List Bytes) (j : Nat) :
    ∃ more, chunks.flatten = received chunks j ++ more := by
  refine ⟨(chunks.drop j).flatten, ?_⟩
  rw [received, ← List.flatten_append, List.take_append_drop]

/-- One chunk behind a stream on which no error has occurred. -/
theorem readChunks_cons {limit : Nat} {before : Bytes} (hbefore : failure? before = none)
    (chunk : Bytes) (chunks : List Bytes) :
    (Decoder.mk limit (leftover before)).readChunks (chunk :: chunks) =
      match verdict limit (before ++ chunk) with
      | some e => ⟨frames (leftover before ++ chunk), some e, [], chunks⟩
      | none =>
        let later := (Decoder.mk limit (leftover (before ++ chunk))).readChunks chunks
        { later with frames := frames (leftover before ++ chunk) ++ later.frames } := by
  rw [readChunks]
  change (match (Decoder.mk limit (leftover before ++ chunk)).takeFrames with
    | (fs, some e, d') => _
    | (fs, none, d') => _) = _
  rw [takeFrames_eq, verdict_append hbefore, residue_append hbefore]
  cases hv : verdict limit (before ++ chunk) with
  | none => simp only [residue_of_verdict hv]
  | some e => simp only [residue, hv]

/-- While every unfinished frame keeps to the limit, the chunks yield what the
stream does. -/
theorem readChunks_of_fits {limit : Nat} {before : Bytes} (hbefore : failure? before = none)
    (chunks : List Bytes)
    (hfits : ∀ j ≤ chunks.length, oversized limit (before ++ received chunks j) = false) :
    frames before ++ ((Decoder.mk limit (leftover before)).readChunks chunks).frames =
        frames (before ++ chunks.flatten) ∧
      ((Decoder.mk limit (leftover before)).readChunks chunks).error =
        (failure? (before ++ chunks.flatten)).map .malformed ∧
      ((Decoder.mk limit (leftover before)).readChunks chunks).buffer =
        if (failure? (before ++ chunks.flatten)).isSome then []
        else leftover (before ++ chunks.flatten) := by
  induction chunks generalizing before with
  | nil =>
      rw [List.flatten_nil, List.append_nil, hbefore]
      exact ⟨List.append_nil _, rfl, rfl⟩
  | cons chunk chunks ih =>
      have hassoc : before ++ (chunk :: chunks).flatten = before ++ chunk ++ chunks.flatten := by
        rw [List.flatten_cons, List.append_assoc]
      have hframes := Frame.frames_append chunk hbefore
      have hone := hfits 1 (Nat.le_add_left 1 _)
      rw [received_one] at hone
      rw [readChunks_cons hbefore, hassoc]
      cases hfail : failure? (before ++ chunk) with
      | none =>
          have hv : verdict limit (before ++ chunk) = none := verdict_of_fits hfail hone
          have hrest : ∀ j ≤ chunks.length,
              oversized limit (before ++ chunk ++ received chunks j) = false := by
            intro j hj
            have hj' := hfits (j + 1) (Nat.succ_le_succ hj)
            rwa [received_cons, ← List.append_assoc] at hj'
          obtain ⟨hf, he, hb⟩ := ih hfail hrest
          rw [hv]
          refine ⟨?_, he, hb⟩
          rw [← hf, hframes, List.append_assoc]
      | some e =>
          have hv : verdict limit (before ++ chunk) = some (.malformed e) := by
            rw [verdict, hfail]
          obtain ⟨hends, hfail'⟩ := Frame.append_of_failure chunks.flatten hfail
          rw [hv, hfail']
          refine ⟨?_, rfl, rfl⟩
          rw [← hframes, frames, frames, hends]

/-- The first unfinished frame over the limit stops the decoding where its chunk ends. -/
theorem readChunks_of_oversized {limit : Nat} {before : Bytes} (hbefore : failure? before = none)
    (chunks : List Bytes) {j : Nat} (hj : j ≤ chunks.length)
    (hover : oversized limit (before ++ received chunks j) = true)
    (hfits : ∀ i < j, oversized limit (before ++ received chunks i) = false) (hpos : 0 < j) :
    frames before ++ ((Decoder.mk limit (leftover before)).readChunks chunks).frames =
        frames (before ++ received chunks j) ∧
      ((Decoder.mk limit (leftover before)).readChunks chunks).error =
        some (.frameTooLarge limit) ∧
      ((Decoder.mk limit (leftover before)).readChunks chunks).unread = chunks.drop j := by
  induction chunks generalizing before j with
  | nil => exact absurd hj (Nat.not_le.mpr hpos)
  | cons chunk chunks ih =>
      obtain ⟨i, rfl⟩ : ∃ i, j = i + 1 := ⟨j - 1, (Nat.succ_pred_eq_of_pos hpos).symm⟩
      have hframes := Frame.frames_append chunk hbefore
      rw [received_cons, ← List.append_assoc] at hover ⊢
      rw [readChunks_cons hbefore, List.drop_succ_cons]
      rcases Nat.eq_zero_or_pos i with rfl | hi
      · rw [received, List.take_zero, List.flatten_nil, List.append_nil] at hover ⊢
        rw [oversized_iff.mp hover]
        exact ⟨hframes.symm, rfl, rfl⟩
      · have hfail : failure? (before ++ chunk) = none := by
          -- what has gone wrong stays so and is never over the limit
          cases hf : failure? (before ++ chunk) with
          | none => rfl
          | some e =>
              have hlater := (Frame.append_of_failure (received chunks i) hf).2
              rw [oversized, hlater] at hover
              simp at hover
        have hone := hfits 1 (Nat.succ_lt_succ hi)
        rw [received_one] at hone
        have hv : verdict limit (before ++ chunk) = none := verdict_of_fits hfail hone
        have hrest : ∀ k < i,
            oversized limit (before ++ chunk ++ received chunks k) = false := by
          intro k hk
          have hk' := hfits (k + 1) (Nat.succ_lt_succ hk)
          rwa [received_cons, ← List.append_assoc] at hk'
        obtain ⟨hf, he, hu⟩ := ih hfail (Nat.le_of_succ_le_succ hj) hover hrest hi
        rw [hv]
        refine ⟨?_, he, hu⟩
        rw [← hf, hframes, List.append_assoc]

/-- However a stream is cut, the frames decoded up to the first error are those
of the whole stream, and so is the error, unless an unfinished frame is over the
limit where a chunk ends; then the first such end stops the decoding behind the
frames received by then, which are the first ones of the stream. Without an error
the bytes behind the last frame stay buffered. -/
theorem readChunks_eq_stream (limit : Nat) (chunks : List Bytes) :
    let stream := chunks.flatten
    let out := (Decoder.new limit).readChunks chunks
    (∀ j, frameEnds (received chunks j) <+: frameEnds stream ∧
      parse (leftover (received chunks j)) =
        .error ((failure? (received chunks j)).getD .incomplete)) ∧
      match firstOversized? limit chunks with
      | none =>
        out.frames = frames stream ∧ out.error = (failure? stream).map .malformed ∧
          out.buffer = if (failure? stream).isSome then [] else leftover stream
      | some j =>
        out.frames = frames (received chunks j) ∧ out.error = some (.frameTooLarge limit) ∧
          out.unread = chunks.drop j := by
  intro stream out
  have hnil : failure? [] = none := Frame.failure?_of_error Frame.parse_nil
  have hleft : leftover [] = [] := Frame.leftover_of_error Frame.parse_nil
  have hframes : frames [] = [] := Frame.frames_of_error Frame.parse_nil
  constructor
  · intro j
    obtain ⟨more, hmore⟩ := exists_received_append chunks j
    refine ⟨?_, Frame.parse_leftover _⟩
    change frameEnds (received chunks j) <+: frameEnds chunks.flatten
    rw [hmore]
    exact Frame.frameEnds_prefix_append _ _
  · split
    · next hnone =>
        have hnever : ∀ j ≤ chunks.length, oversized limit (received chunks j) = false := by
          intro j hj
          have hout := List.find?_eq_none.mp hnone j (List.mem_range.mpr (Nat.lt_succ_of_le hj))
          rwa [Bool.not_eq_true] at hout
        have hfits := readChunks_of_fits hnil chunks hnever
        rwa [hframes, hleft, List.nil_append, List.nil_append] at hfits
    · next j hsome =>
        obtain ⟨hover, hrange, hfirst⟩ := List.find?_range_eq_some.mp hsome
        have hj : j ≤ chunks.length := Nat.le_of_lt_succ (List.mem_range.mp hrange)
        have hpos : 0 < j := by
          rcases Nat.eq_zero_or_pos j with rfl | hpos
          · simp [received, oversized, hleft] at hover
          · exact hpos
        have hnotYet : ∀ i < j, oversized limit (received chunks i) = false := by
          intro i hi
          have hbefore := hfirst i hi
          rwa [Bool.not_eq_true'] at hbefore
        have hstop := readChunks_of_oversized hnil chunks hj hover hnotYet hpos
        rwa [hframes, hleft, List.nil_append, List.nil_append] at hstop

end RespServer.Decoder
