import Mathlib.Data.Nat.Find
import RespServer.Proofs.Frame.Unguarded

/-!
# The guard on nesting

The reader refuses bytes for their nesting exactly if they begin with 513 arrays inside
each other, each of which still misses an element. Up to there nothing is wrong, and what
begins so can still be completed to a frame, with an element below the last level. A frame
that is read without the guard is read with it, too, unless it holds such an element.
-/

namespace RespServer.Frame

/-- Bytes that open a number of arrays inside each other, from a depth on: behind each header
stand fewer elements than it announces, and then the next header or nothing more. -/
inductive Opens : Nat → Nat → Bytes → Prop
  | nothing {depth : Nat} : Opens depth 0 []
  | array {depth n count : Nat} {header body inner : Bytes} {done : List Frame}
      (hheader : IsHeader count header) (hbody : DerivesAll (depth + 1) body done)
      (hmissing : done.length < count) (hinner : Opens (depth + 1) n inner) :
      Opens depth (n + 1) (header ++ (body ++ inner))

/-- The reading of elements fails at the first of them that cannot be read. -/
theorem readElements_eq_error_iff {element : Bytes → Parsed Frame} {e : ParseError} {n : Nat}
    {done : List Frame} {bytes : Bytes} :
    readElements element n done bytes = .error e ↔
      ∃ k < n, ∃ fs middle, readElements element k done bytes = .ok (fs, middle) ∧
        element middle = .error e := by
  induction n generalizing done bytes with
  | zero =>
      constructor
      · nofun
      · rintro ⟨k, hk, -⟩
        exact absurd hk (Nat.not_lt_zero k)
  | succ n ih =>
      cases hfirst : element bytes with
      | error e' =>
          rw [readElements, hfirst]
          constructor
          · intro h
            cases h
            exact ⟨0, Nat.zero_lt_succ n, done.reverse, bytes, rfl, hfirst⟩
          · rintro ⟨_ | k, -, fs, middle, hk, he⟩
            · cases hk
              rw [hfirst] at he
              rw [Except.error.inj he]
            · rw [readElements, hfirst] at hk
              cases hk
      | ok split =>
          obtain ⟨f, rest⟩ := split
          rw [readElements, hfirst]
          constructor
          · intro h
            obtain ⟨k, hk, fs, middle, hread, he⟩ := ih.mp h
            refine ⟨k + 1, Nat.succ_lt_succ hk, fs, middle, ?_, he⟩
            rw [readElements, hfirst]
            exact hread
          · rintro ⟨_ | k, hk, fs, middle, hread, he⟩
            · cases hread
              rw [hfirst] at he
              cases he
            · rw [readElements, hfirst] at hread
              exact ih.mpr ⟨k, Nat.lt_of_succ_lt_succ hk, fs, middle, hread, he⟩

/-- Elements with wire forms are passed over, and the others are read behind them. -/
theorem readElements_append {depth : Nat} {body : Bytes} {done : List Frame}
    (hbody : DerivesAll depth body done) (n : Nat) (before : List Frame) (rest : Bytes) :
    readElements parseUnguarded (done.length + n) before (body ++ rest) =
      readElements parseUnguarded n (done.reverse ++ before) rest := by
  induction done generalizing body before with
  | nil =>
      cases hbody
      rw [List.length_nil, Nat.zero_add]
      rfl
  | cons f fs ih =>
      cases hbody with
      | cons hf hfs =>
          rw [List.length_cons, Nat.add_right_comm, readElements, List.append_assoc,
            hf.parseUnguarded_append, List.reverse_cons, List.append_assoc]
          exact ih hfs (f :: before)

theorem mem_of_readElements {element : Bytes → Parsed Frame} {n : Nat} {done fs : List Frame}
    {bytes rest : Bytes} (h : readElements element n done bytes = .ok (fs, rest)) {f : Frame}
    (hf : f ∈ done) : f ∈ fs := by
  induction n generalizing done bytes with
  | zero =>
      cases h
      exact List.mem_reverse.mpr hf
  | succ n ih =>
      rw [readElements] at h
      split at h
      · cases h
      · exact ih h (List.mem_cons_of_mem _ hf)

/-- A reader gives up where as many arrays are open as it has levels. -/
theorem parseWithin_eq_nestingTooDeep_iff {levels depth : Nat} (h : levels + depth = 513)
    {bytes : Bytes} :
    parseWithin levels bytes = .error .nestingTooDeep ↔
      ∃ used rest, bytes = used ++ rest ∧ Opens depth levels used := by
  induction levels generalizing depth bytes with
  | zero => exact ⟨fun _ => ⟨[], bytes, rfl, .nothing⟩, fun _ => rfl⟩
  | succ levels ih =>
      have hdepth : levels + (depth + 1) = 513 := by omega
      have helement : ReadsAt (depth + 1) (parseWithin levels) := readsAt_parseWithin hdepth
      rw [parseWithin_succ]
      constructor
      · intro hparse
        rcases readFrame_cases bytes with
          ⟨answer, hne, hanswer⟩ | ⟨count, header, rest, rfl, hheader⟩
        · exact absurd ((hanswer _).symm.trans hparse) hne
        · rw [readFrame_of_isHeader hheader] at hparse
          obtain ⟨k, hk, done, middle, hdone, hdeep⟩ :=
            readElements_eq_error_iff.mp (Parsed.as_eq_error_iff.mp hparse)
          obtain ⟨body, fs, rfl, rfl, rfl, hbody⟩ := helement.readElements_eq_ok_iff.mp hdone
          obtain ⟨inner, rest, rfl, hinner⟩ := (ih hdepth).mp hdeep
          exact ⟨header ++ (body ++ inner), rest, by simp only [List.append_assoc],
            .array hheader hbody hk hinner⟩
      · rintro ⟨used, rest, rfl, hopens⟩
        cases hopens with
        | @array _ _ count header body inner done hheader hbody hmissing hinner =>
            rw [List.append_assoc, readFrame_of_isHeader hheader]
            apply Parsed.as_eq_error_iff.mpr
            refine readElements_eq_error_iff.mpr
              ⟨done.length, hmissing, done, inner ++ rest, ?_, ?_⟩
            · exact helement.readElements_eq_ok_iff.mpr
                ⟨body, done, by rw [List.append_assoc], rfl, rfl, hbody⟩
            · exact (ih hdepth).mpr ⟨inner, rest, rfl, hinner⟩

theorem parse_eq_nestingTooDeep_iff {bytes : Bytes} :
    parse bytes = .error .nestingTooDeep ↔
      ∃ used rest, bytes = used ++ rest ∧ Opens 0 513 used :=
  parseWithin_eq_nestingTooDeep_iff rfl

/-- A frame that begins with open arrays has an element in the innermost of them. -/
theorem Opens.exists_holds {depth n : Nat} {used : Bytes} (h : Opens depth n used)
    {rest rest' : Bytes} {f : Frame} (hf : parseUnguarded (used ++ rest) = .ok (f, rest')) :
    ∃ g, f.Holds n g := by
  induction h generalizing rest rest' f with
  | nothing => exact ⟨f, .self⟩
  | @array depth n count header body inner done hheader hbody hmissing hinner ih =>
      obtain ⟨m, rfl⟩ := Nat.exists_eq_add_of_lt hmissing
      rw [unguarded_parseUnguarded, List.append_assoc, readFrame_of_isHeader hheader] at hf
      obtain ⟨elements, helements, rfl⟩ := Parsed.as_eq_ok_iff.mp hf
      rw [Nat.add_assoc, List.append_assoc, readElements_append hbody, readElements] at helements
      split at helements
      · cases helements
      · next f middle hinnermost =>
          obtain ⟨g, hg⟩ := ih hinnermost
          exact ⟨g, .element (mem_of_readElements helements List.mem_cons_self) hg⟩

theorem writable_null : null.Writable 0 :=
  (forall_holds_iff (by nofun)).mpr ⟨trivial, Nat.zero_le 512, trivial⟩

theorem derivesAll_replicate_null (m : Nat) :
    DerivesAll 0 (encodeAll (List.replicate m null)) (List.replicate m null) := by
  apply Writable.derivesAll_encodeAll
  intro f hf
  rw [List.eq_of_mem_replicate hf]
  exact writable_null

/-- Open arrays can be completed by as many null elements as they miss. -/
theorem Opens.exists_completion {depth n : Nat} {used : Bytes} (h : Opens depth n used) :
    ∃ more f g, f.Holds n g ∧ ∀ rest, parseUnguarded (used ++ (more ++ rest)) = .ok (f, rest) := by
  induction h with
  | nothing =>
      have hnull : Derives 0 null.encode null :=
        Writable.derives_encode null writable_null
      exact ⟨null.encode, null, null, .self, hnull.parseUnguarded_append⟩
  | @array depth n count header body inner done hheader hbody hmissing hinner ih =>
      obtain ⟨m, rfl⟩ := Nat.exists_eq_add_of_lt hmissing
      obtain ⟨more, f, g, hg, hmore⟩ := ih
      let missing := List.replicate m null
      refine ⟨more ++ encodeAll missing, .array (done ++ f :: missing), g,
        .element (List.mem_append_right done List.mem_cons_self) hg, ?_⟩
      intro rest
      have hsplit : header ++ (body ++ inner) ++ (more ++ encodeAll missing ++ rest) =
          header ++ (body ++ (inner ++ (more ++ (encodeAll missing ++ rest)))) := by
        simp only [List.append_assoc]
      have hrest := readElements_append (derivesAll_replicate_null m) 0 (f :: done.reverse) rest
      rw [List.length_replicate, Nat.add_zero, readElements] at hrest
      rw [hsplit, unguarded_parseUnguarded, readFrame_of_isHeader hheader, Nat.add_assoc,
        readElements_append hbody, List.append_nil, readElements, hmore]
      simp only [hrest, Parsed.as, missing]
      simp

/-- No element lies deeper than 512. -/
def Shallow (f : Frame) : Prop :=
  ∀ depth g, f.Holds depth g → depth ≤ 512

theorem not_shallow_of_holds {f g : Frame} (hg : f.Holds 513 g) : ¬ f.Shallow :=
  fun hf => absurd (hf 513 g hg) (by decide)

section Guard

variable {bytes rest : Bytes} {f : Frame} (hparse : parseUnguarded bytes = .ok (f, rest))
include hparse

/-- Without elements below the last level the guard plays no part. -/
theorem parse_eq_ok_iff_shallow : parse bytes = .ok (f, rest) ↔ f.Shallow := by
  constructor
  · intro hread depth g hg
    obtain ⟨used, -, hused⟩ := (readsAt_parse _ _ _).mp hread
    have hle := (hused.of_holds hg).1
    omega
  · intro hf
    rcases parseWithin_eq_or 513 bytes with hdeep | hsame
    · obtain ⟨used, rest', rfl, hopens⟩ := parse_eq_nestingTooDeep_iff.mp hdeep
      obtain ⟨g, hg⟩ := hopens.exists_holds hparse
      exact absurd hf (not_shallow_of_holds hg)
    · exact hsame.trans hparse

theorem parse_eq_nestingTooDeep_iff_not_shallow :
    parse bytes = .error .nestingTooDeep ↔ ¬ f.Shallow := by
  rw [← parse_eq_ok_iff_shallow hparse]
  rcases parseWithin_eq_or 513 bytes with hdeep | hsame
  · have hrefused : parse bytes = .error .nestingTooDeep := hdeep
    simp [hrefused]
  · have hread : parse bytes = .ok (f, rest) := hsame.trans hparse
    simp [hread]

end Guard

/-- The bytes on which the guard refuses are its first ones with an answer. -/
theorem exists_opens_of_nestingTooDeep {bytes : Bytes} (h : parse bytes = .error .nestingTooDeep) :
    ∃ used rest, bytes = used ++ rest ∧ Opens 0 513 used ∧
      ∀ front, front <+: used → front ≠ used → parse front = .error .incomplete := by
  classical
  have hex : ∃ n, ∃ used rest, bytes = used ++ rest ∧ Opens 0 513 used ∧ used.length = n := by
    obtain ⟨used, rest, hsplit, hopens⟩ := parse_eq_nestingTooDeep_iff.mp h
    exact ⟨used.length, used, rest, hsplit, hopens, rfl⟩
  obtain ⟨used, rest, rfl, hopens, hlength⟩ := Nat.find_spec hex
  have hused : parse used = .error .nestingTooDeep :=
    parse_eq_nestingTooDeep_iff.mpr ⟨used, [], (List.append_nil _).symm, hopens⟩
  refine ⟨used, rest, rfl, hopens, ?_⟩
  rintro front ⟨behind, rfl⟩ hne
  cases hfront : parse front with
  | ok split =>
      obtain ⟨taken, rfl, htaken⟩ := steady_parse.taken hfront
      rw [List.append_assoc, htaken] at hused
      cases hused
  | error e =>
      by_cases he : e = .incomplete
      · rw [he]
      · -- the front would open as many arrays in fewer bytes
        rw [steady_parse.refused hfront he] at hused
        cases hused
        obtain ⟨used', rest', rfl, hopens'⟩ := parse_eq_nestingTooDeep_iff.mp hfront
        have hle := Nat.find_min' hex
          ⟨used', rest' ++ behind ++ rest, by simp only [List.append_assoc], hopens', rfl⟩
        rw [← hlength, List.length_append, List.length_append] at hle
        have hbehind : behind ≠ [] := by
          rintro rfl
          exact hne (List.append_nil _).symm
        have hpos := List.length_pos_iff.mpr hbehind
        omega

/-- The guard on nesting is exact. There is one reader that counts no levels, and the
limited reader gives the same answer or refuses. A frame that the former reads is read by
the latter if no element of it lies deeper than 512, and refused otherwise. Where bytes are
refused, those looked at so far are the shortest with an answer; they open 513 arrays inside
each other, each of which misses an element, and can be completed to a frame with an
element at depth 513. So neither a frame without such an element nor a part of it is refused. -/
theorem parse_guards_nesting (buffer : Bytes) :
    (∀ read, Unguarded read ↔ read = parseUnguarded) ∧
      (parse buffer = .error .nestingTooDeep ∨ parse buffer = parseUnguarded buffer) ∧
      (∀ f rest, parseUnguarded buffer = .ok (f, rest) →
        (parse buffer = .ok (f, rest) ↔ f.Shallow) ∧
          (parse buffer = .error .nestingTooDeep ↔ ¬ f.Shallow)) ∧
      (parse buffer = .error .nestingTooDeep →
        ∃ used rest, buffer = used ++ rest ∧ Opens 0 513 used ∧
          (∀ front, front <+: used → front ≠ used → parse front = .error .incomplete) ∧
          ∃ more f g, parseUnguarded (used ++ more) = .ok (f, []) ∧ f.Holds 513 g) ∧
      ∀ f rest front, parseUnguarded buffer = .ok (f, rest) → f.Shallow → front <+: buffer →
        parse front ≠ .error .nestingTooDeep := by
  refine ⟨fun _ => unguarded_iff, parseWithin_eq_or 513 buffer, ?_, ?_, ?_⟩
  · intro f rest hparse
    exact ⟨parse_eq_ok_iff_shallow hparse, parse_eq_nestingTooDeep_iff_not_shallow hparse⟩
  · intro hdeep
    obtain ⟨used, rest, hsplit, hopens, hfirst⟩ := exists_opens_of_nestingTooDeep hdeep
    obtain ⟨more, f, g, hg, hmore⟩ := hopens.exists_completion
    refine ⟨used, rest, hsplit, hopens, hfirst, more, f, g, ?_, hg⟩
    simpa only [List.append_nil] using hmore []
  · rintro f rest front hparse hf ⟨behind, rfl⟩ hdeep
    have hread := (parse_eq_ok_iff_shallow hparse).mpr hf
    rw [steady_parse.refused hdeep (by decide)] at hread
    cases hread

/-- An empty array inside as many others, each its only element. -/
def tower : Nat → Frame
  | 0 => array []
  | n + 1 => array [tower n]

def towerBytes (n : Nat) : Bytes :=
  (List.replicate n (asciiBytes "*1\r\n")).flatten ++ asciiBytes "*0\r\n"

theorem tower_holds (n : Nat) : (tower n).Holds n (array []) := by
  induction n with
  | zero => exact .self
  | succ n ih => exact .element (List.mem_singleton.mpr rfl) ih

theorem le_of_tower_holds {n depth : Nat} {g : Frame} (h : (tower n).Holds depth g) :
    depth ≤ n := by
  induction n generalizing depth with
  | zero =>
      cases h with
      | self => exact Nat.le_refl 0
      | element hf _ => cases hf
  | succ n ih =>
      cases h with
      | self => exact Nat.zero_le _
      | element hf hg =>
          rw [List.mem_singleton] at hf
          subst hf
          exact Nat.succ_le_succ (ih hg)

/-- An empty array is read at depth 512 and refused at depth 513, before its first byte. -/
theorem parse_guards_tower :
    parseUnguarded (towerBytes 512) = .ok (tower 512, []) ∧ (tower 512).Shallow ∧
      parse (towerBytes 512) = .ok (tower 512, []) ∧
      towerBytes 512 <+: towerBytes 512 ∧ parse (towerBytes 512) ≠ .error .nestingTooDeep ∧
      parseUnguarded (towerBytes 513) = .ok (tower 513, []) ∧ ¬ (tower 513).Shallow ∧
      parse (towerBytes 513) = .error .nestingTooDeep ∧
      ∃ used rest, towerBytes 513 = used ++ rest ∧ Opens 0 513 used := by
  have hlow : parseUnguarded (towerBytes 512) = .ok (tower 512, []) := by decide +kernel
  have hhigh : parseUnguarded (towerBytes 513) = .ok (tower 513, []) := by decide +kernel
  have hshallow : (tower 512).Shallow := fun depth g => le_of_tower_holds
  have hdeep : ¬ (tower 513).Shallow := not_shallow_of_holds (tower_holds 513)
  obtain ⟨-, -, hread, -, hnever⟩ := parse_guards_nesting (towerBytes 512)
  obtain ⟨-, -, hrefused, hopens, -⟩ := parse_guards_nesting (towerBytes 513)
  have htooDeep : parse (towerBytes 513) = .error .nestingTooDeep :=
    (hrefused _ _ hhigh).2.mpr hdeep
  obtain ⟨used, rest, hsplit, hused, -⟩ := hopens htooDeep
  exact ⟨hlow, hshallow, (hread _ _ hlow).1.mpr hshallow, List.prefix_rfl,
    hnever _ _ _ hlow hshallow List.prefix_rfl, hhigh, hdeep, htooDeep, used, rest, hsplit, hused⟩

end RespServer.Frame
