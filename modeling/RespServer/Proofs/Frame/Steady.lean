import Mathlib.Data.List.Basic
import RespServer.Frame.Parser

/-!
# Steady readers

A reader is steady if its answer hangs only on the bytes it takes: a value is
read from the same bytes whatever is behind them, and an error other than
`incomplete` stays however many bytes arrive. Steady readers are closed under
reading one thing behind another, and `Frame.parse` is one of them.
-/

namespace RespServer.Frame

variable {α β : Type}

/-- The answer hangs only on the bytes that are taken. -/
structure Steady (read : Bytes → Parsed α) : Prop where
  taken : ∀ {bytes value rest}, read bytes = .ok (value, rest) →
    ∃ used, bytes = used ++ rest ∧ ∀ more, read (used ++ more) = .ok (value, more)
  refused : ∀ {bytes e}, read bytes = .error e → e ≠ .incomplete →
    ∀ more, read (bytes ++ more) = .error e

/-- Goes on behind a value that has been read. -/
def Parsed.andThen (p : Parsed α) (next : α → Bytes → Parsed β) : Parsed β :=
  match p with
  | .error e => .error e
  | .ok (value, rest) => next value rest

namespace Steady

theorem ok (value : α) : Steady fun bytes => .ok (value, bytes) where
  taken h := by
    cases h
    exact ⟨[], rfl, fun _ => rfl⟩
  refused h := by cases h

theorem error (e : ParseError) : Steady fun _ => (.error e : Parsed α) where
  taken h := by cases h
  refused h _ _ := h

/-- Reading one value behind another keeps readers steady. -/
theorem andThen {read : Bytes → Parsed α} {next : α → Bytes → Parsed β} (hread : Steady read)
    (hnext : ∀ value, Steady (next value)) :
    Steady fun bytes => (read bytes).andThen next where
  taken {bytes value rest} h := by
    cases hr : read bytes with
    | error e =>
        rw [hr] at h
        cases h
    | ok split =>
        obtain ⟨first, middle⟩ := split
        rw [hr] at h
        obtain ⟨used, rfl, hused⟩ := hread.taken hr
        obtain ⟨used', rfl, hused'⟩ := (hnext first).taken h
        refine ⟨used ++ used', (List.append_assoc ..).symm, ?_⟩
        intro more
        rw [List.append_assoc, hused]
        exact hused' more
  refused {bytes e} h he more := by
    cases hr : read bytes with
    | error e' =>
        rw [hr] at h
        cases h
        rw [hread.refused hr he]
        rfl
    | ok split =>
        obtain ⟨first, middle⟩ := split
        rw [hr] at h
        obtain ⟨used, rfl, hused⟩ := hread.taken hr
        rw [List.append_assoc, hused]
        exact (hnext first).refused h he more

/-- A reader that begins with one byte. -/
theorem byte {read : Bytes → Parsed α} {next : UInt8 → Bytes → Parsed α}
    (hnil : read [] = .error .incomplete) (hcons : ∀ b bytes, read (b :: bytes) = next b bytes)
    (hnext : ∀ b, Steady (next b)) : Steady read where
  taken {bytes value rest} h := by
    cases bytes with
    | nil =>
        rw [hnil] at h
        cases h
    | cons b bytes =>
        rw [hcons] at h
        obtain ⟨used, rfl, hused⟩ := (hnext b).taken h
        refine ⟨b :: used, rfl, ?_⟩
        intro more
        rw [List.cons_append, hcons]
        exact hused more
  refused {bytes e} h he more := by
    cases bytes with
    | nil =>
        rw [hnil] at h
        cases h
        exact absurd rfl he
    | cons b bytes =>
        rw [hcons] at h
        rw [List.cons_append, hcons]
        exact (hnext b).refused h he more

end Steady

theorem splitLineFrom_cons (front : Bytes) (b : UInt8) (bytes : Bytes) :
    splitLineFrom front (b :: bytes) =
      if b = carriageReturn ∧ bytes.head? = some lineFeed then some (front.reverse, bytes.tail)
      else splitLineFrom (b :: front) bytes := by
  rw [splitLineFrom.eq_def]
  split
  · next h => cases h
  · next h =>
      cases h
      rfl
  · next hne h =>
      cases h
      rw [if_neg]
      rintro ⟨rfl, hhead⟩
      obtain ⟨rest, rfl⟩ := List.head?_eq_some_iff.mp hhead
      exact hne rest rfl rfl

/-- A line ends at the first line end, whatever follows. -/
theorem exists_of_splitLineFrom {front bytes line rest : Bytes}
    (h : splitLineFrom front bytes = some (line, rest)) :
    ∃ front', line = front.reverse ++ front' ∧ bytes = front' ++ (crlf ++ rest) ∧
      ∀ more, splitLineFrom front (front' ++ (crlf ++ more)) = some (line, more) := by
  induction bytes generalizing front with
  | nil => cases h
  | cons b bytes ih =>
      rw [splitLineFrom_cons] at h
      split at h
      · next hend =>
          obtain ⟨rfl, hhead⟩ := hend
          obtain ⟨tail, rfl⟩ := List.head?_eq_some_iff.mp hhead
          cases h
          exact ⟨[], (List.append_nil _).symm, rfl, fun _ => rfl⟩
      · next hgo =>
          obtain ⟨front', hline, rfl, hmore⟩ := ih h
          refine ⟨b :: front', ?_, rfl, ?_⟩
          · rw [hline, List.reverse_cons, List.append_assoc, List.singleton_append]
          · intro more
            have hhead : (front' ++ (crlf ++ more)).head? = (front' ++ (crlf ++ rest)).head? := by
              cases front' <;> rfl
            rw [List.cons_append, splitLineFrom_cons, hhead, if_neg hgo]
            exact hmore more

theorem steady_readLine : Steady readLine where
  taken {bytes line rest} h := by
    unfold readLine at h
    split at h
    · cases h
    · next split hs =>
        cases h
        obtain ⟨front, -, rfl, hmore⟩ := exists_of_splitLineFrom hs
        refine ⟨front ++ crlf, (List.append_assoc ..).symm, ?_⟩
        intro more
        rw [readLine, splitLine, List.append_assoc, hmore]
  refused {bytes e} h he := by
    unfold readLine at h
    split at h
    · cases h
      exact absurd rfl he
    · cases h

theorem readText_eq (bytes : Bytes) :
    readText bytes = (readLine bytes).andThen fun line rest =>
      match Utf8.decode? line with
      | none => .error .invalidUtf8
      | some text => .ok (text, rest) := by
  unfold readText
  cases readLine bytes <;> rfl

theorem readInteger_eq (invalid : ParseError) (bytes : Bytes) :
    readInteger invalid bytes = (readLine bytes).andThen fun line rest =>
      match Decimal.readInt64 line with
      | .error _ => .error invalid
      | .ok value => .ok (value, rest) := by
  unfold readInteger
  cases readLine bytes <;> rfl

theorem readLength_eq (bytes : Bytes) :
    readLength bytes = (readInteger .invalidLength bytes).andThen fun value rest =>
      if value = -1 then .ok (none, rest)
      else if value.toInt < 0 then .error .invalidLength
      else .ok (some value.toInt.toNat, rest) := by
  unfold readLength
  cases readInteger .invalidLength bytes <;> rfl

theorem Parsed.as_eq (make : α → Frame) (p : Parsed α) :
    p.as make = p.andThen fun value rest => .ok (make value, rest) := by
  cases p <;> rfl

theorem steady_readText : Steady readText := by
  rw [funext readText_eq]
  refine steady_readLine.andThen ?_
  intro line
  cases Utf8.decode? line with
  | none => exact Steady.error _
  | some text => exact Steady.ok text

theorem steady_readInteger (invalid : ParseError) : Steady (readInteger invalid) := by
  rw [funext (readInteger_eq invalid)]
  refine steady_readLine.andThen ?_
  intro line
  cases Decimal.readInt64 line with
  | error _ => exact Steady.error _
  | ok value => exact Steady.ok value

theorem steady_readLength : Steady readLength := by
  rw [funext readLength_eq]
  refine (steady_readInteger _).andThen ?_
  intro value
  split_ifs
  · exact Steady.ok none
  · exact Steady.error _
  · exact Steady.ok _

theorem steady_as {read : Bytes → Parsed α} (hread : Steady read) (make : α → Frame) :
    Steady fun bytes => (read bytes).as make := by
  simp only [Parsed.as_eq]
  exact hread.andThen fun value => Steady.ok (make value)

/-- The two bytes behind a payload are looked at once both are there. -/
theorem steady_readPayload (length : Nat) : Steady (readPayload length) where
  taken {bytes payload rest} h := by
    unfold readPayload at h
    split at h
    · cases h
    · next hlen =>
        split at h
        · next hdrop =>
            cases h
            have htake : (bytes.take length).length = length := by
              rw [List.length_take]
              omega
            refine ⟨bytes.take length ++ crlf, ?_, ?_⟩
            · conv_lhs => rw [← List.take_append_drop length bytes, hdrop]
              rw [List.append_assoc]
              rfl
            · intro more
              have hlong : ¬ (bytes.take length ++ crlf ++ more).length < length + 2 := by
                simp only [List.length_append, htake, List.length_cons, List.length_nil]
                omega
              rw [readPayload, if_neg hlong, List.append_assoc, List.drop_left' htake,
                List.take_left' htake]
              rfl
        · cases h
  refused {bytes e} h he more := by
    unfold readPayload at h
    split at h
    · cases h
      exact absurd rfl he
    · next hlen =>
        split at h
        · cases h
        · next hne =>
            cases h
            have hle : length ≤ bytes.length := by omega
            have hlong : ¬ (bytes ++ more).length < length + 2 := by
              rw [List.length_append]
              omega
            rw [readPayload, if_neg hlong, List.drop_append_of_le_length hle]
            split
            · next rest hdrop =>
                exfalso
                have hdl : 2 ≤ (bytes.drop length).length := by
                  rw [List.length_drop]
                  omega
                match hd : bytes.drop length, hdl with
                | a :: b :: tail, _ =>
                    rw [hd] at hdrop hne
                    cases hdrop
                    exact hne tail rfl
            · rfl

/-- As many steady readings as announced are one. -/
theorem steady_readElements {element : Bytes → Parsed Frame} (helement : Steady element)
    (n : Nat) (done : List Frame) : Steady (readElements element n done) := by
  induction n generalizing done with
  | zero => exact Steady.ok done.reverse
  | succ n ih =>
      have heq (bytes : Bytes) : readElements element (n + 1) done bytes =
          (element bytes).andThen fun f rest => readElements element n (f :: done) rest := by
        rw [readElements]
        cases element bytes <;> rfl
      rw [funext heq]
      exact helement.andThen fun f => ih (f :: done)

/-- What follows a marker; elements lie at most `levels` deep. -/
def readBody (levels : Nat) : Kind → Bytes → Parsed Frame
  | .simple, bytes => (readText bytes).as .simple
  | .error, bytes => (readText bytes).as .error
  | .integer, bytes => (readInteger .invalidInteger bytes).as .integer
  | .bulk, bytes => (readLength bytes).andThen fun length rest =>
    match length with
    | none => .ok (.null, rest)
    | some length => (readPayload length rest).as .bulk
  | .array, bytes => (readLength bytes).andThen fun count rest =>
    match count with
    | none => .ok (.null, rest)
    | some count => (readElements (parseWithin levels) count [] rest).as .array

theorem parseWithin_cons (levels : Nat) (marker : UInt8) (bytes : Bytes) :
    parseWithin (levels + 1) (marker :: bytes) =
      match Kind.ofMarker? marker with
      | none => .error (.invalidKind marker)
      | some k => readBody levels k bytes := by
  rw [parseWithin]
  cases Kind.ofMarker? marker with
  | none => rfl
  | some k =>
      cases k with
      | bulk =>
          simp only [readBody]
          rcases readLength bytes with e | ⟨_ | length, rest⟩ <;> rfl
      | array =>
          simp only [readBody]
          rcases readLength bytes with e | ⟨_ | count, rest⟩ <;> rfl
      | _ => rfl

theorem steady_readBody {levels : Nat} (hparse : Steady (parseWithin levels)) (k : Kind) :
    Steady (readBody levels k) := by
  cases k with
  | simple => exact steady_as steady_readText .simple
  | error => exact steady_as steady_readText .error
  | integer => exact steady_as (steady_readInteger _) .integer
  | bulk =>
      refine steady_readLength.andThen ?_
      rintro (_ | length)
      · exact Steady.ok null
      · exact steady_as (steady_readPayload length) .bulk
  | array =>
      refine steady_readLength.andThen ?_
      rintro (_ | count)
      · exact Steady.ok null
      · exact steady_as (steady_readElements hparse count []) .array

theorem steady_parseWithin (levels : Nat) : Steady (parseWithin levels) := by
  induction levels with
  | zero => exact Steady.error .nestingTooDeep
  | succ levels ih =>
      refine Steady.byte rfl (parseWithin_cons levels) ?_
      intro marker
      cases Kind.ofMarker? marker with
      | none => exact Steady.error _
      | some k => exact steady_readBody ih k

theorem steady_parse : Steady parse :=
  steady_parseWithin (maxDepth + 1)

end RespServer.Frame
