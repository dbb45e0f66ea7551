import RespServer.Proofs.Frame.RoundTrip

/-!
# Reading without a limit on depth

The reader that counts no levels is the one solution of its own equation: what it reads
an element with is itself. Given more levels than bytes the limited reader runs out of
none, and so it is this reader. With fewer levels it gives up, or it gives the same answer.
-/

namespace RespServer.Frame

open RespServer.Decimal (Numeral)

/-- Reads a frame whose elements are read by `element`, at whatever depth. -/
def readFrame (element : Bytes → Parsed Frame) : Bytes → Parsed Frame
  | [] => .error .incomplete
  | marker :: bytes =>
    match Kind.ofMarker? marker with
    | none => .error (.invalidKind marker)
    | some .simple => (readText bytes).as .simple
    | some .error => (readText bytes).as .error
    | some .integer => (readInteger .invalidInteger bytes).as .integer
    | some .bulk =>
      match readLength bytes with
      | .error e => .error e
      | .ok (none, rest) => .ok (.null, rest)
      | .ok (some length, rest) => (readPayload length rest).as .bulk
    | some .array =>
      match readLength bytes with
      | .error e => .error e
      | .ok (none, rest) => .ok (.null, rest)
      | .ok (some count, rest) => (readElements element count [] rest).as .array

/-- A reader whose elements are read as it reads itself, so that no depth is counted. -/
def Unguarded (read : Bytes → Parsed Frame) : Prop :=
  ∀ bytes, read bytes = readFrame read bytes

/-- Reads a frame of any depth. No frame has as many levels as bytes. -/
def parseUnguarded (bytes : Bytes) : Parsed Frame :=
  parseWithin (bytes.length + 1) bytes

theorem parseWithin_succ (levels : Nat) (bytes : Bytes) :
    parseWithin (levels + 1) bytes = readFrame (parseWithin levels) bytes := by
  cases bytes <;> rfl

/-- The bytes in front of the elements of an array, which announce their number. -/
def IsHeader (count : Nat) (header : Bytes) : Prop :=
  ∃ line, header = Kind.array.marker :: (line ++ crlf) ∧ Numeral line count

theorem readFrame_of_isHeader {count : Nat} {header : Bytes} (h : IsHeader count header)
    (element : Bytes → Parsed Frame) (rest : Bytes) :
    readFrame element (header ++ rest) = (readElements element count [] rest).as .array := by
  obtain ⟨line, rfl, hcount⟩ := h
  have hlength : readLength (line ++ crlf ++ rest) = .ok (some count, rest) :=
    readLength_eq_ok_iff.mpr ⟨line, List.append_assoc .., hcount⟩
  rw [List.cons_append, readFrame, Kind.ofMarker?_marker]
  simp only [hlength]

section Levels

variable {α β : Type}

theorem Parsed.andThen_ne_nestingTooDeep {p : Parsed α} {next : α → Bytes → Parsed β}
    (hp : p ≠ .error .nestingTooDeep)
    (hnext : ∀ value rest, next value rest ≠ .error .nestingTooDeep) :
    p.andThen next ≠ .error .nestingTooDeep := by
  cases p with
  | error e => exact fun h => hp (congrArg Except.error (Except.error.inj h))
  | ok split => exact hnext split.1 split.2

theorem Parsed.as_eq_error_iff {p : Parsed α} {make : α → Frame} {e : ParseError} :
    p.as make = .error e ↔ p = .error e := by
  cases p with
  | error e' => simp [Parsed.as]
  | ok split => exact ⟨nofun, nofun⟩

theorem Parsed.as_ne_nestingTooDeep {p : Parsed α} (hp : p ≠ .error .nestingTooDeep)
    (make : α → Frame) : p.as make ≠ .error .nestingTooDeep :=
  mt Parsed.as_eq_error_iff.mp hp

theorem readLine_ne_nestingTooDeep (bytes : Bytes) :
    readLine bytes ≠ .error .nestingTooDeep := by
  intro h
  rw [readLine] at h
  split at h
  all_goals cases h

theorem readText_ne_nestingTooDeep (bytes : Bytes) :
    readText bytes ≠ .error .nestingTooDeep := by
  rw [readText_eq]
  refine Parsed.andThen_ne_nestingTooDeep (readLine_ne_nestingTooDeep bytes) fun line rest => ?_
  cases Utf8.decode? line with
  | none => nofun
  | some text => nofun

theorem readInteger_ne_nestingTooDeep {invalid : ParseError} (h : invalid ≠ .nestingTooDeep)
    (bytes : Bytes) : readInteger invalid bytes ≠ .error .nestingTooDeep := by
  rw [readInteger_eq]
  refine Parsed.andThen_ne_nestingTooDeep (readLine_ne_nestingTooDeep bytes) fun line rest => ?_
  cases Decimal.readInt64 line with
  | error e => exact fun heq => h (Except.error.inj heq)
  | ok value => nofun

theorem readLength_ne_nestingTooDeep (bytes : Bytes) :
    readLength bytes ≠ .error .nestingTooDeep := by
  rw [readLength_eq]
  refine Parsed.andThen_ne_nestingTooDeep
    (readInteger_ne_nestingTooDeep (by decide) bytes) fun value rest => ?_
  split_ifs
  all_goals nofun

theorem readPayload_ne_nestingTooDeep (length : Nat) (bytes : Bytes) :
    readPayload length bytes ≠ .error .nestingTooDeep := by
  intro h
  rw [readPayload] at h
  split at h
  · cases h
  · split at h
    all_goals cases h

/-- Only elements can lie too deep. -/
theorem readBody_ne_nestingTooDeep {k : Kind} (hk : k ≠ .array) (bytes : Bytes) :
    readBody 0 k bytes ≠ .error .nestingTooDeep := by
  cases k with
  | simple => exact Parsed.as_ne_nestingTooDeep (readText_ne_nestingTooDeep bytes) _
  | error => exact Parsed.as_ne_nestingTooDeep (readText_ne_nestingTooDeep bytes) _
  | integer =>
      exact Parsed.as_ne_nestingTooDeep (readInteger_ne_nestingTooDeep (by decide) bytes) _
  | bulk =>
      refine Parsed.andThen_ne_nestingTooDeep (readLength_ne_nestingTooDeep bytes) ?_
      rintro (_ | length) rest
      · nofun
      · exact Parsed.as_ne_nestingTooDeep (readPayload_ne_nestingTooDeep length rest) _
  | array => exact absurd rfl hk

end Levels

theorem readFrame_cons_of_ne_array {marker : UInt8} {k : Kind}
    (hmarker : Kind.ofMarker? marker = some k) (hk : k ≠ .array)
    (element : Bytes → Parsed Frame) (bytes : Bytes) :
    readFrame element (marker :: bytes) = readBody 0 k bytes := by
  have hparse : parseWithin 1 (marker :: bytes) = readBody 0 k bytes := by
    rw [parseWithin_cons, hmarker]
  rw [← hparse, parseWithin_succ, readFrame, readFrame, hmarker]
  cases k with
  | array => exact absurd rfl hk
  | _ => rfl

/-- What is read hangs on the elements only behind the header of an array. Any other answer
is not about the depth. -/
theorem readFrame_cases (bytes : Bytes) :
    (∃ answer, answer ≠ .error .nestingTooDeep ∧ ∀ element, readFrame element bytes = answer) ∨
      ∃ count header rest, bytes = header ++ rest ∧ IsHeader count header := by
  cases bytes with
  | nil => exact .inl ⟨.error .incomplete, nofun, fun _ => rfl⟩
  | cons marker bytes =>
      cases hmarker : Kind.ofMarker? marker with
      | none =>
          refine .inl ⟨.error (.invalidKind marker), nofun, fun element => ?_⟩
          rw [readFrame, hmarker]
      | some k =>
          by_cases hk : k = .array
          · subst hk
            cases hlength : readLength bytes with
            | error e =>
                refine .inl ⟨.error e, ?_, fun element => ?_⟩
                · intro he
                  exact readLength_ne_nestingTooDeep bytes
                    (hlength.trans (Except.error.inj he ▸ rfl))
                · simp only [readFrame, hmarker, hlength]
            | ok split =>
                obtain ⟨_ | count, rest⟩ := split
                · refine .inl ⟨.ok (.null, rest), nofun, fun element => ?_⟩
                  simp only [readFrame, hmarker, hlength]
                · obtain ⟨line, rfl, hcount⟩ := readLength_eq_ok_iff.mp hlength
                  obtain rfl := Kind.marker_of_ofMarker? hmarker
                  exact .inr ⟨count, Kind.array.marker :: (line ++ crlf), rest,
                    congrArg (_ :: ·) (List.append_assoc ..).symm, line, rfl, hcount⟩
          · exact .inl ⟨readBody 0 k bytes, readBody_ne_nestingTooDeep hk bytes,
              fun element => readFrame_cons_of_ne_array hmarker hk element bytes⟩

section Congruence

variable {element element' : Bytes → Parsed Frame}

theorem readElements_congr {bytes : Bytes}
    (hshort : ∀ b f rest, element b = .ok (f, rest) → rest.length < b.length)
    (h : ∀ b, b.length ≤ bytes.length → element b = element' b) (n : Nat) (done : List Frame) :
    readElements element n done bytes = readElements element' n done bytes := by
  induction n generalizing done bytes with
  | zero => rfl
  | succ n ih =>
      rw [readElements, readElements, ← h bytes (Nat.le_refl _)]
      cases hfirst : element bytes with
      | error e => rfl
      | ok split =>
          obtain ⟨f, rest⟩ := split
          have hlt := hshort bytes f rest hfirst
          exact ih (fun b hb => h b (Nat.le_trans hb (Nat.le_of_lt hlt))) (f :: done)

/-- Elements are read from fewer bytes than the array. -/
theorem readFrame_congr {bytes : Bytes}
    (hshort : ∀ b f rest, element b = .ok (f, rest) → rest.length < b.length)
    (h : ∀ b, b.length < bytes.length → element b = element' b) :
    readFrame element bytes = readFrame element' bytes := by
  rcases readFrame_cases bytes with ⟨answer, -, hanswer⟩ | ⟨count, header, rest, rfl, hheader⟩
  · rw [hanswer, hanswer]
  · have hpos : 0 < header.length := by
      obtain ⟨line, rfl, -⟩ := hheader
      exact Nat.zero_lt_succ _
    rw [readFrame_of_isHeader hheader, readFrame_of_isHeader hheader]
    refine congrArg (Parsed.as Frame.array) (readElements_congr hshort (fun b hb => h b ?_) _ _)
    rw [List.length_append]
    omega

end Congruence

/-- Levels past the number of bytes make no difference. -/
theorem parseWithin_congr {levels levels' : Nat} {bytes : Bytes} (h : bytes.length < levels)
    (h' : bytes.length < levels') : parseWithin levels bytes = parseWithin levels' bytes := by
  induction levels generalizing levels' bytes with
  | zero => exact absurd h (Nat.not_lt_zero _)
  | succ levels ih =>
      cases levels' with
      | zero => exact absurd h' (Nat.not_lt_zero _)
      | succ levels' =>
          rw [parseWithin_succ, parseWithin_succ]
          apply readFrame_congr (fun _ _ _ => length_of_parseWithin)
          intro b hb
          exact ih (by omega) (by omega)

theorem unguarded_parseUnguarded : Unguarded parseUnguarded := by
  intro bytes
  rw [parseUnguarded, parseWithin_succ]
  apply readFrame_congr (fun _ _ _ => length_of_parseWithin)
  intro b hb
  exact parseWithin_congr hb (Nat.lt_succ_self _)

/-- There is one reader whose elements are read as it reads itself. -/
theorem unguarded_iff {read : Bytes → Parsed Frame} : Unguarded read ↔ read = parseUnguarded := by
  constructor
  · intro hread
    funext bytes
    induction hn : bytes.length using Nat.strongRecOn generalizing bytes with
    | ind n ih =>
        rw [hread, unguarded_parseUnguarded]
        refine (readFrame_congr (fun _ _ _ => length_of_parseWithin) fun b hb => ?_).symm
        exact (ih b.length (hn ▸ hb) b rfl).symm
  · rintro rfl
    exact unguarded_parseUnguarded

/-- As many elements are read alike until one of them is given up. -/
theorem readElements_eq_or {element element' : Bytes → Parsed Frame} {e : ParseError}
    (h : ∀ b, element b = .error e ∨ element b = element' b) (n : Nat) (done : List Frame)
    (bytes : Bytes) :
    readElements element n done bytes = .error e ∨
      readElements element n done bytes = readElements element' n done bytes := by
  induction n generalizing done bytes with
  | zero => exact .inr rfl
  | succ n ih =>
      rw [readElements, readElements]
      rcases h bytes with hfirst | hfirst
      · rw [hfirst]
        exact .inl rfl
      · rw [← hfirst]
        cases element bytes with
        | error e' => exact .inr rfl
        | ok split => exact ih (split.1 :: done) split.2

/-- A reader that runs out of levels says so; otherwise it misses none. -/
theorem parseWithin_eq_or (levels : Nat) (bytes : Bytes) :
    parseWithin levels bytes = .error .nestingTooDeep ∨
      parseWithin levels bytes = parseUnguarded bytes := by
  induction levels generalizing bytes with
  | zero => exact .inl rfl
  | succ levels ih =>
      rw [parseWithin_succ, unguarded_parseUnguarded]
      rcases readFrame_cases bytes with ⟨answer, -, hanswer⟩ | ⟨count, header, rest, rfl, hheader⟩
      · rw [hanswer, hanswer]
        exact .inr rfl
      · rw [readFrame_of_isHeader hheader, readFrame_of_isHeader hheader]
        rcases readElements_eq_or ih count [] rest with helements | helements
        · rw [helements]
          exact .inl rfl
        · rw [helements]
          exact .inr rfl

/-- What has a wire form at some depth is read from it. -/
theorem Derives.parseUnguarded_append {depth : Nat} {used : Bytes} {f : Frame}
    (h : Derives depth used f) (rest : Bytes) : parseUnguarded (used ++ rest) = .ok (f, rest) := by
  have hdepth : depth ≤ 512 := by
    cases h with
    | frame hdepth _ => exact hdepth
  have hread : parseWithin (513 - depth) (used ++ rest) = .ok (f, rest) :=
    (readsAt_parseWithin (by omega) _ _ _).mpr ⟨used, rfl, h⟩
  rcases parseWithin_eq_or (513 - depth) (used ++ rest) with hdeep | hsame
  · rw [hread] at hdeep
    cases hdeep
  · rw [← hsame, hread]

end RespServer.Frame
