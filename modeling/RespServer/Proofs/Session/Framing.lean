import RespServer.Proofs.Command.Reply
import RespServer.Proofs.Frame.Pipeline
import RespServer.Proofs.Session.Volume

/-!
# Replies on a connection

The bytes that answer what is sent at once are read back as the replies, one for each
request in it and one for an error behind the requests of a read. Requests have been read
from bytes, so what they leave in the store can be written again, and no client can put a
line end or anything else between the replies of another.
-/

namespace RespServer

theorem Store.Writable.executeAll {s : Store} (hs : s.Writable) (now : Instant)
    {requests : List Frame} (hrequests : ∀ f ∈ requests, f.Writable 0) :
    (executeAll now requests s).Writable := by
  induction requests generalizing s with
  | nil => exact hs
  | cons f requests ih =>
      have hfirst := hs.execute now (hrequests f List.mem_cons_self)
      exact ih hfirst fun g hg => hrequests g (List.mem_cons_of_mem f hg)

namespace Session

section Answers

variable {now : Instant} {s : Store} {items : List (Except ProtocolError Frame)}

theorem writable_of_mem_drainEach (d : Decoder) (reads : List Bytes) :
    ∀ f ∈ requestsAmong (d.drainEach reads).1, f.Writable 0 := by
  induction reads generalizing d with
  | nil => nofun
  | cons chunk reads ih =>
      rw [Decoder.drainEach, requestsAmong_append, requestsAmong_drain]
      intro f hf
      rcases List.mem_append.mp hf with hf | hf
      · exact Frame.writable_of_mem_frames hf
      · exact ih _ f hf

/-- Replies whose elements can be counted can be written. -/
theorem writable_of_mem_answerAll (hs : s.Writable)
    (hitems : ∀ f ∈ requestsAmong items, f.Writable 0) {reply : Frame}
    (hreply : reply ∈ (answerAll now items s).1)
    (hcount : ∀ elements, reply = .array elements → elements.length < 2 ^ 63) :
    reply.Writable 0 := by
  obtain ⟨j, hj⟩ := List.mem_iff_getElem?.mp hreply
  rw [getElem?_answerAll, Option.map_eq_some_iff] at hj
  obtain ⟨item, hitem, rfl⟩ := hj
  have hearlier : ∀ f ∈ requestsAmong (items.take j), f.Writable 0 := fun f hf =>
    hitems f (((List.take_prefix j items).filterMap Except.toOption).subset hf)
  have hbefore : (executeAll now (requestsAmong (items.take j)) s).Writable :=
    hs.executeAll now hearlier
  cases item with
  | error e =>
      refine (Frame.forall_holds_iff (by nofun)).mpr ⟨trivial, Nat.zero_le 512, ?_⟩
      exact Frame.not_crlf_infix_of_notMem (by decide)
  | ok request =>
      have hrequest : request ∈ requestsAmong items :=
        List.mem_filterMap.mpr ⟨.ok request, List.mem_of_getElem? hitem, rfl⟩
      exact (answer_execute now _ request).writable hbefore (hitems request hrequest) hcount

/-- Replies are read back if the elements of each can be counted, and only then. -/
theorem frames_encodeAll_answerAll_iff (hs : s.Writable)
    (hitems : ∀ f ∈ requestsAmong items, f.Writable 0) :
    let replies := (answerAll now items s).1
    (Frame.frames (Frame.encodeAll replies) = replies ∧
        Frame.leftover (Frame.encodeAll replies) = []) ↔
      ∀ elements, .array elements ∈ replies → elements.length < 2 ^ 63 := by
  intro replies
  constructor
  · rintro ⟨hframes, -⟩ elements helements
    rw [← hframes] at helements
    exact (Frame.writable_of_mem_frames helements).self.1
  · intro hcount
    apply Frame.frames_encodeAll
    intro reply hreply
    apply writable_of_mem_answerAll hs hitems hreply
    rintro elements rfl
    exact hcount elements hreply

/-- A list of keys is no longer than the store that is asked for it. -/
theorem exists_length_le_size (hs : s.WellFormed) {elements : List Frame}
    (helements : .array elements ∈ (answerAll now items s).1) :
    ∃ j, elements.length ≤ (executeAll now (requestsAmong (items.take j)) s).size := by
  obtain ⟨j, hj⟩ := List.mem_iff_getElem?.mp helements
  rw [getElem?_answerAll, Option.map_eq_some_iff] at hj
  obtain ⟨item, -, hitem⟩ := hj
  cases item with
  | error e => cases hitem
  | ok request =>
      have hanswer := answer_execute now (executeAll now (requestsAmong (items.take j)) s) request
      change (RespServer.execute now _ request).1 = _ at hitem
      rw [hitem] at hanswer
      exact ⟨j, hanswer.length_le (wellFormed_executeAll hs now _)⟩

end Answers

theorem writable_of_mem_arriving {s : Session} {action : Action} {f : Frame}
    (hf : f ∈ s.arriving action) : f.Writable 0 := by
  unfold arriving at hf
  split at hf
  · split at hf
    · exact Frame.writable_of_mem_frames hf
    · cases hf
  · cases hf

theorem writable_perform {network : Network} {limit : Nat} {reaper : Option Nat} {now : Instant}
    {actions : List Action} {sent : List (Nat × Bytes)} {s : Session}
    (h : (start network limit reaper now).perform actions = .ok (sent, s)) :
    s.keyspace.store.Writable := by
  have hsweep : ∀ (now : Instant) (u : Store), u.Writable → (u.sweep now).2.Writable :=
    fun now _ hu => hu.sweep now
  have hstart := store_start_induction hsweep (Store.writable_withBuckets _) network limit reaper
    now
  refine perform_induction (P := fun _ s => s.keyspace.store.Writable) ?_ [] hstart h
  intro before s action sent s' hs hact
  apply store_act_induction hact hsweep
  exact hs.executeAll s.keyspace.now fun f hf => writable_of_mem_arriving hf

/-- No response can be split. In every session the bytes that answer what is sent at once, by
however many reads it comes in, are read back as the replies, with nothing left over: one for
each request, the one it was executed with, and one for an error of the protocol. Only a list
of 2⁶³ keys would not be read back, as its length is past the numbers of 64 bits, and no list
is longer than what has been read in bytes. Whatever bytes a request is made of, no text of
its reply holds a line end, and its reply nests at most one level. -/
theorem replies_read_back (network : Network) (limit : Nat) (reaper : Option Nat) (now : Instant)
    (actions : List Action) {sent : List (Nat × Bytes)} {s : Session}
    (hperform : (start network limit reaper now).perform actions = .ok (sent, s))
    {i : Nat} {d : Decoder} (hopen : s.connection? i = some d) (reads : List Bytes) :
    let clock := s.keyspace.now
    let items := (d.drainEach reads).1
    let before := fun j => executeAll clock (requestsAmong (items.take j)) s.keyspace.store
    (∃ replies written s', s.perform (arrival i reads) = .ok (written, s') ∧
      (∀ p ∈ written, p.1 = i) ∧ (written.map Prod.snd).flatten = Frame.encodeAll replies ∧
      (∀ j, replies[j]? = items[j]?.map (replyTo clock (before j))) ∧
      ((Frame.frames (Frame.encodeAll replies) = replies ∧
          Frame.leftover (Frame.encodeAll replies) = []) ↔
        ∀ elements, .array elements ∈ replies → elements.length < 2 ^ 63) ∧
      ∀ elements, .array elements ∈ replies →
        elements.length ≤ received actions + reads.flatten.length) ∧
      ∀ now s f depth g, (RespServer.execute now s f).1.Holds depth g → depth ≤ 1 ∧ g.OneLine := by
  intro clock items before
  have hs : s.keyspace.store.Writable := writable_perform hperform
  have hcovered : Covered actions s := (covered_start network limit reaper now).perform hperform
  obtain ⟨written, s', hwritten, hwhere, hbytes⟩ := perform_arrival hopen reads
  refine ⟨⟨_, written, s', hwritten, hwhere, hbytes, ?_, ?_, ?_⟩, ?_⟩
  · exact getElem?_answerAll clock items s.keyspace.store
  · exact frames_encodeAll_answerAll_iff hs (writable_of_mem_drainEach d reads)
  · intro elements helements
    obtain ⟨j, hj⟩ := exists_length_le_size hs.wellFormed helements
    exact Nat.le_trans hj (hcovered.size_executeAll_take_le hopen reads j)
  · intro now s f
    exact (answer_execute now s f).oneLine

/-- A key that is a line end is stored, the keys are listed, and a command is asked for whose
name holds a line end and a byte outside of UTF-8. No frame begins with the last byte. -/
def brokenLines : Bytes :=
  asciiBytes "*3\r\n$3\r\nSET\r\n$2\r\n\r\n\r\n$1\r\nv\r\n*1\r\n$4\r\nKEYS\r\n*1\r\n$5\r\nA\r\nB" ++
    0xFF :: asciiBytes "\r\n@"

/-- The second request comes in by two reads. -/
theorem drainEach_brokenLines :
    ((Decoder.new 64).drainEach [brokenLines.take 35, brokenLines.drop 35]).1 =
      [.ok (.array [.bulk (asciiBytes "SET"), .bulk crlf, .bulk (asciiBytes "v")]),
        .ok (.array [.bulk (asciiBytes "KEYS")]),
        .ok (.array [.bulk (asciiBytes "A\r\nB" ++ [0xFF])]),
        .error (.malformed (.invalidKind 64))] := by
  let behind := fun n => Decoder.mk 64 (brokenLines.drop n)
  let opened := Decoder.mk 64 ((brokenLines.take 35).drop 28)
  have hset : ((Decoder.new 64).feed (brokenLines.take 35)).next = (.frame (.array
      [.bulk (asciiBytes "SET"), .bulk crlf, .bulk (asciiBytes "v")]), opened) := rfl
  have hopened : opened.next = (.more, opened) := rfl
  have hkeys : (opened.feed (brokenLines.drop 35)).next =
      (.frame (.array [.bulk (asciiBytes "KEYS")]), behind 42) := rfl
  have hname : (behind 42).next =
      (.frame (.array [.bulk (asciiBytes "A\r\nB" ++ [0xFF])]), behind 57) := rfl
  have hlast : (behind 57).next =
      (.failed (.malformed (.invalidKind 64)), (behind 57).clear) := rfl
  simp only [Decoder.drainEach, Decoder.drain_of_frame hset, Decoder.drain_of_more hopened,
    Decoder.drain_of_frame hkeys, Decoder.drain_of_frame hname, Decoder.drain_of_failed hlast,
    Decoder.drain_clear]
  rfl

theorem replies_brokenLines :
    let opened := (start .reachable 64 none ⟨0⟩).connect.2
    (start .reachable 64 none ⟨0⟩).perform [.event .connect] = .ok ([], opened) ∧
      opened.connection? 0 = some (Decoder.new 64) ∧
      ∃ replies written s', opened.perform
          (arrival 0 [brokenLines.take 35, brokenLines.drop 35]) = .ok (written, s') ∧
        (written.map Prod.snd).flatten =
          asciiBytes "+OK\r\n*1\r\n$2\r\n\r\n\r\n-ERR unknown command 'A  B" ++
            0xEF :: 0xBF :: 0xBD :: asciiBytes "'\r\n-ERR Protocol error\r\n" ∧
        (written.map Prod.snd).flatten = Frame.encodeAll replies ∧
        replies = [.simple "OK", .array [.bulk crlf],
          .error "ERR unknown command 'A  B\uFFFD'", .error "ERR Protocol error"] ∧
        Frame.frames (Frame.encodeAll replies) = replies ∧
        Frame.leftover (Frame.encodeAll replies) = [] := by
  intro opened
  obtain ⟨⟨replies, written, s', hwritten, -, hbytes, hreplies, hback, -⟩, -⟩ :=
    replies_read_back .reachable 64 none ⟨0⟩ [.event .connect] (s := opened) (i := 0)
      (d := Decoder.new 64) rfl rfl [brokenLines.take 35, brokenLines.drop 35]
  rw [drainEach_brokenLines] at hreplies
  have hlist : replies = [.simple "OK", .array [.bulk crlf],
      .error "ERR unknown command 'A  B\uFFFD'", .error "ERR Protocol error"] := by
    apply List.ext_getElem?
    intro j
    rw [hreplies]
    rcases j with _ | _ | _ | _ | j
    · decide +kernel
    · decide +kernel
    · decide +kernel
    · rfl
    · rfl
  refine ⟨rfl, rfl, replies, written, s', hwritten, ?_, hbytes, hlist, hback.mpr ?_⟩
  · rw [hbytes, hlist]
    decide +kernel
  · rw [hlist]
    simp

end Session

end RespServer
