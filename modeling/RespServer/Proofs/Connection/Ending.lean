import RespServer.Connection
import RespServer.Proofs.Decoder.Calls
import RespServer.Proofs.Decoder.Limit

/-!
# How a stream ends

A connection is read until the answer is no frame. Unless the bytes are refused, the frames are
those of the whole stream, however it is cut into reads, and the end is clean if nothing is
left over behind them. A decoder that is drained and then told that the stream has ended makes
the same distinction.
-/

namespace RespServer

namespace Decoder

open RespServer.Frame (frames leftover failure?)

variable {d d' : Decoder}

/-- Waiting for more changes nothing. -/
theorem eq_of_next_more (h : d.next = (.more, d')) : d' = d := by
  unfold next at h
  split at h
  · exact (congrArg Prod.snd h).symm
  · split at h
    · cases h
    · split at h
      · cases h
      · exact (congrArg Prod.snd h).symm
    · cases h

/-- Behind the frames of a buffer a decoder waits, unless it fails there. -/
theorem next_leftover {limit : Nat} {bytes : Bytes} (h : verdict limit bytes = none) :
    Decoder.next ⟨limit, leftover bytes⟩ = (.more, ⟨limit, leftover bytes⟩) := by
  rw [verdict] at h
  split at h
  · cases h
  · next hfailure =>
      have hparse := Frame.parse_leftover bytes
      rw [hfailure, Option.getD_none] at hparse
      rw [next_of_incomplete hparse, if_neg]
      intro hlimit
      rw [if_pos hlimit] at h
      cases h

theorem leftover_nil : leftover [] = [] :=
  Frame.leftover_of_error Frame.parse_nil

/-- What comes out of a stream that is decoded without an error. -/
theorem readChunks_of_error_none {limit : Nat} {chunks : List Bytes}
    (h : ((Decoder.new limit).readChunks chunks).error = none) :
    ((Decoder.new limit).readChunks chunks).frames = frames chunks.flatten ∧
      ((Decoder.new limit).readChunks chunks).buffer = leftover chunks.flatten ∧
      verdict limit chunks.flatten = none := by
  have hnil : failure? [] = none := Frame.failure?_of_error Frame.parse_nil
  obtain ⟨hfits, hframes⟩ : (∀ j ≤ chunks.length, oversized limit (received chunks j) = false) ∧
      ((Decoder.new limit).readChunks chunks).frames = frames chunks.flatten := by
    rcases readChunks_new_cases limit chunks with hgo | ⟨j, -, -, -, -, hstop⟩
    · exact hgo
    · rw [h] at hstop
      cases hstop
  obtain ⟨-, herror, hbuffer⟩ := readChunks_of_fits hnil chunks hfits
  rw [leftover_nil, List.nil_append] at herror hbuffer
  have hfailure : failure? chunks.flatten = none :=
    Option.map_eq_none_iff.mp (herror.symm.trans h)
  rw [hfailure, Option.isSome_none, if_neg Bool.false_ne_true] at hbuffer
  have hlast := hfits chunks.length (Nat.le_refl _)
  rw [received, List.take_length] at hlast
  exact ⟨hframes, hbuffer, verdict_of_fits hfailure hlast⟩

/-- Bytes that are not refused consist of their frames and of what is left over, which is no
whole frame. -/
theorem exists_parts_of_waiting {limit : Nat} {bytes : Bytes} (h : verdict limit bytes = none) :
    ∃ parts, bytes = parts.flatten ++ leftover bytes ∧
      List.Forall₂ (Frame.Derives 0) parts (frames bytes) ∧
      Frame.parse (leftover bytes) = .error .incomplete := by
  obtain ⟨-, -, -, parts, rest, hsplit, hparts, hexit⟩ := drained_mk limit bytes
  rw [residue_of_verdict h, h] at hexit
  generalize leftover bytes = kept at hexit ⊢
  obtain ⟨hparse, -⟩ := hexit
  exact ⟨parts, hsplit, hparts, hparse⟩

/-- What waits for more at the end of the stream is kept. -/
theorem nextAtEnd_of_more (h : d.next = (.more, d)) :
    d.nextAtEnd = (if d.buffer = [] then .finished else .truncated, d) := by
  rw [nextAtEnd, h]
  simp only [List.isEmpty_iff]

/-- A decoder that fails at the end of the stream keeps nothing. -/
theorem buffer_of_nextAtEnd_failed {e : ProtocolError} (h : d.nextAtEnd = (.failed e, d')) :
    d'.buffer = [] := by
  unfold nextAtEnd at h
  split at h
  · cases h
  · next hnext =>
      cases h
      exact (buffer_of_next_failed hnext).1
  · split at h <;> cases h

end Decoder

namespace Connection

open RespServer.Frame (parse Derives frames leftover failure?)

/-- The bytes that are buffered or still to come. -/
def outstanding (c : Connection) : Nat :=
  c.decoder.buffer.length + c.incoming.flatten.length

section Read

variable {d d' : Decoder}

theorem read_of_frame {f : Frame} (h : d.next = (.frame f, d')) (incoming : List Bytes) :
    read ⟨d, incoming⟩ = (.frame f, ⟨d', incoming⟩) := by
  cases incoming with
  | nil => simp only [read, readFrom, h]
  | cons chunk incoming => simp only [read, readFrom, h]

theorem read_of_failed {e : ProtocolError} (h : d.next = (.failed e, d'))
    (incoming : List Bytes) : read ⟨d, incoming⟩ = (.failed e, ⟨d', incoming⟩) := by
  cases incoming with
  | nil => simp only [read, readFrom, h]
  | cons chunk incoming => simp only [read, readFrom, h]

variable (h : d.next = (.more, d))
include h

theorem read_nil_of_more :
    read ⟨d, []⟩ = (if d.buffer.isEmpty then .closed else .reset, ⟨d, []⟩) := by
  simp only [read, readFrom, h]

theorem read_cons_of_more (chunk : Bytes) (incoming : List Bytes) :
    read ⟨d, chunk :: incoming⟩ = read ⟨d.feed chunk, incoming⟩ := by
  simp only [read, readFrom, h]

end Read

theorem outstanding_of_next_frame {d d' : Decoder} {f : Frame} (h : d.next = (.frame f, d'))
    (incoming : List Bytes) :
    outstanding ⟨d', incoming⟩ < outstanding ⟨d, incoming⟩ :=
  Nat.add_lt_add_right (Decoder.buffer_of_next_frame h) _

/-- A frame is made of bytes that were outstanding. -/
theorem outstanding_of_read_frame {c c' : Connection} {f : Frame} (h : c.read = (.frame f, c')) :
    c'.outstanding < c.outstanding := by
  obtain ⟨d, incoming⟩ := c
  change readFrom d incoming = _ at h
  induction incoming generalizing d with
  | nil =>
      rw [readFrom] at h
      split at h
      · next hnext =>
          cases h
          exact outstanding_of_next_frame hnext []
      · cases h
      · split at h <;> cases h
  | cons chunk incoming ih =>
      rw [readFrom] at h
      split at h
      · next hnext =>
          cases h
          exact outstanding_of_next_frame hnext _
      · cases h
      · next hnext =>
          obtain rfl := Decoder.eq_of_next_more hnext
          have hlt := ih _ h
          simp only [outstanding, Decoder.feed, List.length_append, List.flatten_cons] at hlt ⊢
          omega

/-- Reads until the answer is no frame: the frames, that answer, and the connection behind it. -/
def readAll (c : Connection) : List Frame × Read × Connection :=
  match _h : c.read with
  | (.frame f, c') =>
    let (fs, ending) := readAll c'
    (f :: fs, ending)
  | (.failed e, c') => ([], .failed e, c')
  | (.closed, c') => ([], .closed, c')
  | (.reset, c') => ([], .reset, c')
termination_by c.outstanding
decreasing_by exact outstanding_of_read_frame _h

theorem readAll_of_frame {c c' : Connection} {f : Frame} (h : c.read = (.frame f, c')) :
    c.readAll = (f :: c'.readAll.1, c'.readAll.2) := by
  rw [readAll]
  split <;> simp_all

theorem readAll_of_ne_frame {c c' : Connection} {r : Read} (h : c.read = (r, c'))
    (hr : ∀ f, r ≠ .frame f) : c.readAll = ([], r, c') := by
  rw [readAll]
  split
  · next hread =>
      rw [h] at hread
      exact absurd (congrArg Prod.fst hread) (hr _)
  all_goals
    next hread =>
      rw [h] at hread
      cases hread
      rfl

theorem readAll_congr {c c' : Connection} (h : c.read = c'.read) : c.readAll = c'.readAll := by
  cases hread : c.read with
  | mk r last =>
      have hread' := h ▸ hread
      cases r with
      | frame f => rw [readAll_of_frame hread, readAll_of_frame hread']
      | _ => rw [readAll_of_ne_frame hread nofun, readAll_of_ne_frame hread' nofun]

section ReadAll

variable {limit : Nat} {bytes : Bytes} (incoming : List Bytes)

theorem readAll_of_failed {e : ProtocolError} (h : Decoder.verdict limit bytes = some e) :
    readAll ⟨⟨limit, bytes⟩, incoming⟩ = (frames bytes, .failed e, ⟨⟨limit, []⟩, incoming⟩) := by
  induction bytes using Frame.stream_induction with
  | stopped bytes cause hparse =>
      have hnext := Decoder.next_of_error (d := ⟨limit, bytes⟩) hparse
      rw [h] at hnext
      rw [readAll_of_ne_frame (read_of_failed hnext incoming) nofun,
        Frame.frames_of_error hparse]
      rfl
  | frame bytes f rest hparse ih =>
      have hnext := Decoder.next_of_ok (d := ⟨limit, bytes⟩) hparse
      rw [Decoder.verdict_of_ok hparse] at h
      rw [readAll_of_frame (read_of_frame hnext incoming), ih h, Frame.frames_of_ok hparse]

/-- What is buffered is read first. -/
theorem readAll_of_waiting (h : Decoder.verdict limit bytes = none) :
    readAll ⟨⟨limit, bytes⟩, incoming⟩ =
      (frames bytes ++ (readAll ⟨⟨limit, leftover bytes⟩, incoming⟩).1,
        (readAll ⟨⟨limit, leftover bytes⟩, incoming⟩).2) := by
  induction bytes using Frame.stream_induction with
  | stopped bytes cause hparse =>
      rw [Frame.frames_of_error hparse, Frame.leftover_of_error hparse]
      rfl
  | frame bytes f rest hparse ih =>
      have hnext := Decoder.next_of_ok (d := ⟨limit, bytes⟩) hparse
      rw [Decoder.verdict_of_ok hparse] at h
      rw [readAll_of_frame (read_of_frame hnext incoming), ih h, Frame.frames_of_ok hparse,
        Frame.leftover_of_ok hparse]
      rfl

end ReadAll

/-- How the reading ends: with an error, or as what is buffered behind the last read says. -/
def Read.ofOutput (out : Decoder.Output) : Read :=
  match out.error with
  | some e => .failed e
  | none => if out.buffer.isEmpty then .closed else .reset

theorem Read.ofOutput_ne_frame (out : Decoder.Output) (f : Frame) : ofOutput out ≠ .frame f := by
  unfold ofOutput
  split
  · nofun
  · split <;> nofun

/-- Reading a connection is decoding its reads chunk by chunk. -/
theorem readAll_eq_readChunks {limit : Nat} {bytes : Bytes}
    (h : Decoder.next ⟨limit, bytes⟩ = (.more, ⟨limit, bytes⟩)) (chunks : List Bytes) :
    let out := (Decoder.mk limit bytes).readChunks chunks
    readAll ⟨⟨limit, bytes⟩, chunks⟩ =
      (out.frames, .ofOutput out, ⟨⟨limit, out.buffer⟩, out.unread⟩) := by
  induction chunks generalizing bytes with
  | nil =>
      exact readAll_of_ne_frame (read_nil_of_more h) (Read.ofOutput_ne_frame ⟨[], none, bytes, []⟩)
  | cons chunk chunks ih =>
      have hread : readAll ⟨⟨limit, bytes⟩, chunk :: chunks⟩ =
          readAll ⟨⟨limit, bytes ++ chunk⟩, chunks⟩ :=
        readAll_congr (read_cons_of_more h chunk chunks)
      have hchunk : (Decoder.mk limit bytes).feed chunk = ⟨limit, bytes ++ chunk⟩ := rfl
      rw [hread, Decoder.readChunks, hchunk, Decoder.takeFrames_eq]
      cases hv : Decoder.verdict limit (bytes ++ chunk) with
      | some e =>
          rw [readAll_of_failed chunks hv, Decoder.residue, hv]
          rfl
      | none =>
          rw [readAll_of_waiting chunks hv, ih (Decoder.next_leftover hv),
            Decoder.residue_of_verdict hv]
          rfl

theorem readAll_new (limit : Nat) (chunks : List Bytes) :
    let out := (Decoder.new limit).readChunks chunks
    readAll ⟨Decoder.new limit, chunks⟩ =
      (out.frames, .ofOutput out, ⟨⟨limit, out.buffer⟩, out.unread⟩) :=
  readAll_eq_readChunks rfl chunks

/-- When no reading has failed, the frames are all those of the stream, cut anywhere. The end
is a clean close if the stream consists of frames, and a reset if bytes are left over. Whether
the stream is decoded chunk by chunk or at once, the same frames come out and the same bytes
stay buffered; a decoder that holds them finishes or reports a truncated stream, and keeps
them. -/
theorem readAll_endOfStream (limit : Nat) (chunks : List Bytes)
    (h : ∀ e, (Connection.mk (Decoder.new limit) chunks).readAll.2.1 ≠ .failed e) :
    let stream := chunks.flatten
    let fs := (Connection.mk (Decoder.new limit) chunks).readAll.1
    let ending := (Connection.mk (Decoder.new limit) chunks).readAll.2.1
    let out := (Decoder.new limit).readChunks chunks
    (ending = .closed ↔
      ∃ parts gs, stream = parts.flatten ∧ List.Forall₂ (Derives 0) parts gs) ∧
    (∃ parts rest, stream = parts.flatten ++ rest ∧ List.Forall₂ (Derives 0) parts fs ∧
      parse rest = .error .incomplete ∧ ending = (if rest = [] then .closed else .reset) ∧
      (out.frames = fs ∧ out.error = none ∧ out.buffer = rest) ∧
      ((Decoder.new limit).feed stream).drain = (fs.map .ok, ⟨limit, rest⟩) ∧
      (Decoder.mk limit rest).nextAtEnd =
        (if rest = [] then .finished else .truncated, ⟨limit, rest⟩)) ∧
    ∀ d e d', Decoder.nextAtEnd d = (.failed e, d') → d'.buffer = [] := by
  intro stream fs ending out
  have hread := readAll_new limit chunks
  have hfs : fs = out.frames := congrArg Prod.fst hread
  have hending : ending = .ofOutput out := congrArg (fun answers => answers.2.1) hread
  have herror : out.error = none := by
    cases hout : out.error with
    | none => rfl
    | some e =>
        rw [Read.ofOutput, hout] at hending
        exact absurd hending (h e)
  obtain ⟨hframes, hbuffer, hverdict⟩ : out.frames = frames stream ∧
      out.buffer = leftover stream ∧ Decoder.verdict limit stream = none :=
    Decoder.readChunks_of_error_none herror
  obtain ⟨parts, hsplit, hparts, hparse⟩ := Decoder.exists_parts_of_waiting hverdict
  have hclosed : ending = if leftover stream = [] then .closed else .reset := by
    rw [hending, Read.ofOutput, herror, hbuffer]
    simp only [List.isEmpty_iff]
  refine ⟨⟨?_, ?_⟩, ⟨parts, leftover stream, hsplit, ?_, hparse, hclosed,
    ⟨hfs.symm, herror, hbuffer⟩, ?_, ?_⟩, ?_⟩
  · intro hc
    have hnil : leftover stream = [] := by
      by_contra hne
      rw [hclosed, if_neg hne] at hc
      cases hc
    rw [hnil, List.append_nil] at hsplit
    exact ⟨parts, frames stream, hsplit, hparts⟩
  · rintro ⟨parts', gs, hstream, hgs⟩
    obtain ⟨-, hleft, -⟩ := Frame.frames_flatten_append hgs []
    rw [List.append_nil, ← hstream, Decoder.leftover_nil] at hleft
    rw [hclosed, if_pos hleft]
  · rwa [hfs, hframes]
  · have hfed : (Decoder.new limit).feed stream = ⟨limit, stream⟩ := rfl
    rw [hfed, Decoder.drain_eq, hverdict, Decoder.residue_of_verdict hverdict, hfs, hframes]
    exact Prod.ext (List.append_nil _) rfl
  · exact Decoder.nextAtEnd_of_more (Decoder.next_leftover hverdict)
  · intro d e d' hfailed
    exact Decoder.buffer_of_nextAtEnd_failed hfailed

/-- The peer goes away in the middle of its second frame. -/
theorem readAll_endOfStream_cutShort :
    let chunks := [asciiBytes "+O", asciiBytes "K\r\n$3\r\nab"]
    let answers := (Connection.mk (Decoder.new 9) chunks).readAll
    let rest := asciiBytes "$3\r\nab"
    (∀ e, answers.2.1 ≠ .failed e) ∧ answers.1 = [.simple "OK"] ∧ answers.2.1 = .reset ∧
      (¬ ∃ parts gs, chunks.flatten = parts.flatten ∧ List.Forall₂ (Derives 0) parts gs) ∧
      ((Decoder.new 9).feed chunks.flatten).drain = ([.ok (.simple "OK")], ⟨9, rest⟩) ∧
      (Decoder.mk 9 rest).nextAtEnd = (.truncated, ⟨9, rest⟩) := by
  intro chunks answers rest
  let out := (Decoder.new 9).readChunks chunks
  have hread := readAll_new 9 chunks
  have hbuffer : out.buffer = rest := by decide +kernel
  have hframes : answers.1 = [.simple "OK"] := by
    have hout : out.frames = [.simple "OK"] := by decide +kernel
    exact (congrArg Prod.fst hread).trans hout
  have hreset : answers.2.1 = .reset := by
    have hout : Read.ofOutput out = .reset := by
      have herror : out.error = none := by decide +kernel
      rw [Read.ofOutput, herror, hbuffer]
      rfl
    exact (congrArg (fun answers => answers.2.1) hread).trans hout
  have hnever : ∀ e, answers.2.1 ≠ .failed e := by
    rw [hreset]
    nofun
  obtain ⟨hclosed, ⟨parts, left, -, -, -, -, ⟨-, -, hleft⟩, hdrain, hend⟩, -⟩ :=
    readAll_endOfStream 9 chunks hnever
  obtain rfl : rest = left := hbuffer.symm.trans hleft
  refine ⟨hnever, hframes, hreset, ?_, ?_, hend⟩
  · rw [← hclosed]
    change answers.2.1 ≠ .closed
    rw [hreset]
    nofun
  · rw [hdrain]
    exact congrArg (fun fs : List Frame => (fs.map Except.ok, Decoder.mk 9 rest)) hframes

end Connection

end RespServer
