import RespServer.Frame.Parser

/-!
# Decoding a byte stream

A decoder keeps the bytes that have arrived and not yet been read. An unfinished
frame waits for its rest, up to a limit on its size. Bytes that can never become
a frame are dropped with everything behind them. Every answer but "more" leaves
fewer bytes, so a buffer is drained in finitely many steps.
-/

namespace RespServer

inductive ProtocolError where
  | malformed (cause : Frame.ParseError)
  | frameTooLarge (limit : Nat)
  deriving DecidableEq

def ProtocolError.message (e : ProtocolError) : String :=
  "protocol error; " ++ match e with
    | malformed cause => cause.message
    | frameTooLarge limit =>
      "frame exceeds the maximum size of " ++ Decimal.text limit ++ " bytes"

/-- The answer to a request for the next frame. -/
inductive Decoded where
  | frame (f : Frame)
  | more
  | failed (e : ProtocolError)

/-- The answer once no more bytes will arrive. -/
inductive Ending where
  | frame (f : Frame)
  | finished
  | failed (e : ProtocolError)
  | truncated

def Ending.truncatedMessage : String := "bytes remaining on stream"

structure Decoder where
  limit : Nat
  buffer : Bytes

namespace Decoder

/-- The limit of a server that is given none, 512 MiB. -/
def defaultLimit : Nat := 512 * 1024 * 1024

def new (limit : Nat) : Decoder := ⟨limit, []⟩

def feed (d : Decoder) (chunk : Bytes) : Decoder :=
  { d with buffer := d.buffer ++ chunk }

def clear (d : Decoder) : Decoder :=
  { d with buffer := [] }

/-- Takes the next frame off the front of the buffer. -/
def next (d : Decoder) : Decoded × Decoder :=
  match d.buffer with
  | [] => (.more, d)
  | bytes =>
    match Frame.parse bytes with
    | .ok (f, rest) => (.frame f, { d with buffer := rest })
    | .error .incomplete =>
      if d.limit < bytes.length then (.failed (.frameTooLarge d.limit), d.clear) else (.more, d)
    | .error e => (.failed (.malformed e), d.clear)

/-- The next frame at the end of the stream, where bytes that wait for more are
an error and stay in the buffer. -/
def nextAtEnd (d : Decoder) : Ending × Decoder :=
  match d.next with
  | (.frame f, d') => (.frame f, d')
  | (.failed e, d') => (.failed e, d')
  | (.more, d') => (if d'.buffer.isEmpty then .finished else .truncated, d')

theorem buffer_of_next_frame {d d' : Decoder} {f : Frame} (h : d.next = (.frame f, d')) :
    d'.buffer.length < d.buffer.length := by
  unfold next at h
  split at h
  · cases h
  · split at h
    · next hp => cases h; exact Frame.length_of_parse hp
    · split at h <;> cases h
    · cases h

theorem buffer_of_next_failed {d d' : Decoder} {e : ProtocolError}
    (h : d.next = (.failed e, d')) : d'.buffer = [] ∧ 0 < d.buffer.length := by
  unfold next at h
  split at h
  · cases h
  · next hne =>
      have hpos : 0 < d.buffer.length := List.length_pos_iff.mpr hne
      split at h
      · cases h
      · split at h <;> cases h
        exact ⟨rfl, hpos⟩
      · cases h
        exact ⟨rfl, hpos⟩

/-- Everything that can be read from the buffer, in order, and what remains.
Reading goes on after an error. -/
def drain (d : Decoder) : List (Except ProtocolError Frame) × Decoder :=
  match _h : d.next with
  | (.more, d') => ([], d')
  | (.frame f, d') =>
    let (items, last) := drain d'
    (.ok f :: items, last)
  | (.failed e, d') =>
    let (items, last) := drain d'
    (.error e :: items, last)
termination_by d.buffer.length
decreasing_by
  · exact buffer_of_next_frame _h
  · have := buffer_of_next_failed _h
    simp only [this.1, List.length_nil]
    exact this.2

theorem drain_of_more {d d' : Decoder} (h : d.next = (.more, d')) : d.drain = ([], d') := by
  rw [drain]
  split <;> simp_all

theorem drain_of_frame {d d' : Decoder} {f : Frame} (h : d.next = (.frame f, d')) :
    d.drain = (.ok f :: d'.drain.1, d'.drain.2) := by
  rw [drain]
  split <;> simp_all

theorem drain_of_failed {d d' : Decoder} {e : ProtocolError} (h : d.next = (.failed e, d')) :
    d.drain = (.error e :: d'.drain.1, d'.drain.2) := by
  rw [drain]
  split <;> simp_all

end Decoder

end RespServer
