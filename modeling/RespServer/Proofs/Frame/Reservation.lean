import RespServer.Proofs.Frame.Price
import RespServer.Proofs.Frame.Unguarded

/-!
# Room for the elements of an array

For the elements of an array room is reserved before the first of them is read: as much as is
announced, but no more than the bytes behind the header can pay for at three bytes an element.
The counting reader gives the answers of the reader and keeps an account of every array that it
comes to. No account shows elements that had to move, nor more than one element begun past those
that were paid for; where the reading succeeds, the room is just what was announced.
-/

namespace RespServer.Frame

/-- Elements that have been read, newest first, and the room for them. -/
structure Shelf where
  elements : List Frame
  room : Nat
  /-- how often the elements had to move, for want of room -/
  moves : Nat
  deriving DecidableEq

namespace Shelf

def reserve (room : Nat) : Shelf := ⟨[], room, 0⟩

/-- Without room for one more, the elements move to where there is twice as much, at least for
four. -/
def push (s : Shelf) (f : Frame) : Shelf :=
  if s.elements.length < s.room then { s with elements := f :: s.elements }
  else ⟨f :: s.elements, max (2 * s.room) 4, s.moves + 1⟩

theorem elements_push (s : Shelf) (f : Frame) : (s.push f).elements = f :: s.elements := by
  rw [push]
  split <;> rfl

end Shelf

/-- The account of one array: the number that its header announces, the bytes behind the header,
how many elements the reader began with, and the shelf at the end. -/
structure Account where
  announced : Nat
  behind : Bytes
  begun : Nat
  shelf : Shelf
  deriving DecidableEq

/-- What comes of reading a frame, with the accounts of all arrays, outer ones first. -/
structure Audit where
  answer : Parsed Frame
  accounts : List Account

/-- What comes of reading elements. -/
structure Loop where
  ending : Except ParseError Bytes
  begun : Nat
  shelf : Shelf
  accounts : List Account

/-- Reads as many elements as announced on a shelf. -/
def loop (element : Bytes → Audit) : Nat → Shelf → Bytes → Loop
  | 0, shelf, bytes => ⟨.ok bytes, 0, shelf, []⟩
  | n + 1, shelf, bytes =>
    let first := element bytes
    match first.answer with
    | .error e => ⟨.error e, 1, shelf, first.accounts⟩
    | .ok (f, rest) =>
      let more := loop element n (shelf.push f) rest
      { more with begun := more.begun + 1, accounts := first.accounts ++ more.accounts }

/-- The elements that have been read in order, or the error that ended the loop. -/
def Loop.elements (l : Loop) : Parsed (List Frame) :=
  match l.ending with
  | .error e => .error e
  | .ok rest => .ok (l.shelf.elements.reverse, rest)

/-- The elements behind a header, on a shelf with no more room than the bytes can pay for. -/
def loopBehind (element : Bytes → Audit) (announced : Nat) (behind : Bytes) : Loop :=
  loop element announced (.reserve (min announced (behind.length / 3))) behind

/-- The account of the array that a loop belongs to, with those of the arrays in its elements. -/
def Loop.allAccounts (l : Loop) (announced : Nat) (behind : Bytes) : List Account :=
  ⟨announced, behind, l.begun, l.shelf⟩ :: l.accounts

/-- Reads a frame and keeps accounts of its arrays. -/
def auditWithin : Nat → Bytes → Audit
  | 0, _ => ⟨.error .nestingTooDeep, []⟩
  | _ + 1, [] => ⟨.error .incomplete, []⟩
  | levels + 1, marker :: bytes =>
    match Kind.ofMarker? marker with
    | none => ⟨.error (.invalidKind marker), []⟩
    | some .simple => ⟨(readText bytes).as .simple, []⟩
    | some .error => ⟨(readText bytes).as .error, []⟩
    | some .integer => ⟨(readInteger .invalidInteger bytes).as .integer, []⟩
    | some .bulk =>
      match readLength bytes with
      | .error e => ⟨.error e, []⟩
      | .ok (none, rest) => ⟨.ok (.null, rest), []⟩
      | .ok (some length, rest) => ⟨(readPayload length rest).as .bulk, []⟩
    | some .array =>
      match readLength bytes with
      | .error e => ⟨.error e, []⟩
      | .ok (none, rest) => ⟨.ok (.null, rest), []⟩
      | .ok (some count, rest) =>
        let l := loopBehind (auditWithin levels) count rest
        ⟨l.elements.as .array, l.allAccounts count rest⟩

def audit (bytes : Bytes) : Audit :=
  auditWithin (maxDepth + 1) bytes

section Element

variable {element : Bytes → Audit} {n : Nat} {shelf : Shelf} {bytes rest : Bytes} {f : Frame}

theorem loop_of_error {e : ParseError} (h : (element bytes).answer = .error e) :
    loop element (n + 1) shelf bytes = ⟨.error e, 1, shelf, (element bytes).accounts⟩ := by
  simp only [loop, h]

theorem loop_of_ok (h : (element bytes).answer = .ok (f, rest)) :
    loop element (n + 1) shelf bytes =
      ⟨(loop element n (shelf.push f) rest).ending, (loop element n (shelf.push f) rest).begun + 1,
        (loop element n (shelf.push f) rest).shelf,
        (element bytes).accounts ++ (loop element n (shelf.push f) rest).accounts⟩ := by
  simp only [loop, h]

end Element

theorem elements_loop {element : Bytes → Audit} {read : Bytes → Parsed Frame}
    (helement : ∀ bytes, (element bytes).answer = read bytes) (n : Nat) (shelf : Shelf)
    (bytes : Bytes) :
    (loop element n shelf bytes).elements = readElements read n shelf.elements bytes := by
  induction n generalizing shelf bytes with
  | zero => rfl
  | succ n ih =>
      rw [readElements]
      cases hfirst : (element bytes).answer with
      | error e =>
          rw [loop_of_error hfirst, ← helement, hfirst]
          rfl
      | ok split =>
          obtain ⟨f, rest⟩ := split
          have hmore := ih (shelf.push f) rest
          rw [Shelf.elements_push] at hmore
          rw [loop_of_ok hfirst, ← helement, hfirst]
          exact hmore

/-- Counting changes no answer. -/
theorem answer_auditWithin (levels : Nat) (bytes : Bytes) :
    (auditWithin levels bytes).answer = parseWithin levels bytes := by
  induction levels generalizing bytes with
  | zero => rfl
  | succ levels ih =>
      cases bytes with
      | nil => rfl
      | cons marker bytes =>
          rw [auditWithin, parseWithin]
          rcases Kind.ofMarker? marker with _ | k
          · rfl
          · cases k with
            | array =>
                rcases readLength bytes with e | ⟨_ | count, rest⟩
                · rfl
                · rfl
                · exact congrArg (Parsed.as Frame.array) (elements_loop ih count (.reserve _) rest)
            | bulk => rcases readLength bytes with e | ⟨_ | length, rest⟩ <;> rfl
            | _ => rfl

mutual

/-- The elements of each array in a frame, those of outer arrays first. -/
def arrays : Frame → List (List Frame)
  | simple _ | error _ | integer _ | bulk _ | null => []
  | array elements => elements :: arraysAll elements

def arraysAll : List Frame → List (List Frame)
  | [] => []
  | f :: fs => arrays f ++ arraysAll fs

end

theorem Parsed.arrays_of_as {α : Type} {p : Parsed α} {make : α → Frame} {f : Frame}
    {rest : Bytes} (hmake : ∀ value, (make value).arrays = []) (h : p.as make = .ok (f, rest)) :
    f.arrays = [] := by
  obtain ⟨value, -, rfl⟩ := Parsed.as_eq_ok_iff.mp h
  exact hmake value

/-- An account is kept of an array whose header is in front, and of those in its elements. -/
theorem auditWithin_of_isHeader {count : Nat} {header : Bytes} (h : IsHeader count header)
    (levels : Nat) (rest : Bytes) :
    let l := loopBehind (auditWithin levels) count rest
    auditWithin (levels + 1) (header ++ rest) =
      ⟨l.elements.as .array, l.allAccounts count rest⟩ := by
  obtain ⟨line, rfl, hcount⟩ := h
  have hlength : readLength (line ++ crlf ++ rest) = .ok (some count, rest) :=
    readLength_eq_ok_iff.mpr ⟨line, List.append_assoc .., hcount⟩
  rw [List.cons_append, auditWithin, Kind.ofMarker?_marker]
  simp only [hlength]

/-- Without such a header there is no array to keep an account of. -/
theorem auditWithin_cases (levels : Nat) (bytes : Bytes) :
    ((auditWithin (levels + 1) bytes).accounts = [] ∧
        ∀ f rest, (auditWithin (levels + 1) bytes).answer = .ok (f, rest) → f.arrays = []) ∨
      ∃ count header rest, bytes = header ++ rest ∧ IsHeader count header := by
  cases bytes with
  | nil => exact .inl ⟨rfl, nofun⟩
  | cons marker bytes =>
      rw [auditWithin]
      rcases hmarker : Kind.ofMarker? marker with _ | k
      · exact .inl ⟨rfl, nofun⟩
      · cases k with
        | simple => exact .inl ⟨rfl, fun _ _ => Parsed.arrays_of_as fun _ => rfl⟩
        | error => exact .inl ⟨rfl, fun _ _ => Parsed.arrays_of_as fun _ => rfl⟩
        | integer => exact .inl ⟨rfl, fun _ _ => Parsed.arrays_of_as fun _ => rfl⟩
        | bulk =>
            rcases readLength bytes with e | ⟨_ | length, rest⟩
            · exact .inl ⟨rfl, nofun⟩
            · refine .inl ⟨rfl, ?_⟩
              rintro f rest' h
              cases h
              rfl
            · exact .inl ⟨rfl, fun _ _ => Parsed.arrays_of_as fun _ => rfl⟩
        | array =>
            rcases hlength : readLength bytes with e | ⟨_ | count, rest⟩
            · exact .inl ⟨rfl, nofun⟩
            · refine .inl ⟨rfl, ?_⟩
              rintro f rest' h
              cases h
              rfl
            · obtain ⟨line, rfl, hcount⟩ := readLength_eq_ok_iff.mp hlength
              obtain rfl := Kind.marker_of_ofMarker? hmarker
              exact .inr ⟨count, Kind.array.marker :: (line ++ crlf), rest,
                congrArg (_ :: ·) (List.append_assoc ..).symm, line, rfl, hcount⟩

/-- Bytes from a depth on of which the reading comes to an array: its header announces a number of
elements, and behind the header there are certain bytes. It stands in front, or it is come to in
the element that is begun behind others of an array in front. -/
inductive Reaches : Nat → Bytes → Nat → Bytes → Prop
  | front {depth announced : Nat} {header behind : Bytes} (hdepth : depth ≤ 512)
      (hheader : IsHeader announced header) : Reaches depth (header ++ behind) announced behind
  | element {depth announced count : Nat} {header body inner behind : Bytes} {done : List Frame}
      (hheader : IsHeader count header) (hbody : DerivesAll (depth + 1) body done)
      (hmissing : done.length < count) (hinner : Reaches (depth + 1) inner announced behind) :
      Reaches depth (header ++ (body ++ inner)) announced behind

theorem Reaches.depth_le {depth announced : Nat} {bytes behind : Bytes}
    (h : Reaches depth bytes announced behind) : depth ≤ 512 := by
  induction h with
  | front hdepth _ => exact hdepth
  | element _ _ _ _ ih => exact Nat.le_of_succ_le ih

/-- The accounts of a loop are those of the elements that it begins. -/
theorem mem_accounts_loop_iff {element : Bytes → Audit} {read : Bytes → Parsed Frame}
    (helement : ∀ bytes, (element bytes).answer = read bytes) {a : Account} {count : Nat}
    {shelf : Shelf} (done : List Frame) {bytes : Bytes} :
    a ∈ (loop element count shelf bytes).accounts ↔
      ∃ n < count, ∃ fs rest, readElements read n done bytes = .ok (fs, rest) ∧
        a ∈ (element rest).accounts := by
  induction count generalizing shelf done bytes with
  | zero =>
      constructor
      · nofun
      · rintro ⟨n, hn, -⟩
        exact absurd hn (Nat.not_lt_zero n)
  | succ count ih =>
      have hfirst := helement bytes
      cases hread : read bytes with
      | error e =>
          rw [loop_of_error (hfirst.trans hread)]
          constructor
          · intro ha
            exact ⟨0, Nat.zero_lt_succ count, done.reverse, bytes, rfl, ha⟩
          · rintro ⟨_ | n, -, fs, rest, hn, ha⟩
            · cases hn
              exact ha
            · rw [readElements, hread] at hn
              cases hn
      | ok split =>
          obtain ⟨f, middle⟩ := split
          rw [loop_of_ok (hfirst.trans hread), List.mem_append, ih (f :: done)]
          constructor
          · rintro (ha | ⟨n, hn, fs, rest, helements, ha⟩)
            · exact ⟨0, Nat.zero_lt_succ count, done.reverse, bytes, rfl, ha⟩
            · refine ⟨n + 1, Nat.succ_lt_succ hn, fs, rest, ?_, ha⟩
              rw [readElements, hread]
              exact helements
          · rintro ⟨_ | n, hn, fs, rest, helements, ha⟩
            · cases helements
              exact .inl ha
            · rw [readElements, hread] at helements
              exact .inr ⟨n, Nat.lt_of_succ_lt_succ hn, fs, rest, helements, ha⟩

/-- An account is kept of each array that the reading comes to, and of no other. -/
theorem reaches_iff {levels depth : Nat} (h : levels + depth = 513) {bytes : Bytes}
    {announced : Nat} {behind : Bytes} :
    Reaches depth bytes announced behind ↔
      ∃ a ∈ (auditWithin levels bytes).accounts, a.announced = announced ∧ a.behind = behind := by
  induction levels generalizing depth bytes with
  | zero =>
      constructor
      · intro hreaches
        have := hreaches.depth_le
        omega
      · nofun
  | succ levels ih =>
      have hdepth : levels + (depth + 1) = 513 := by omega
      have helement : ReadsAt (depth + 1) (parseWithin levels) := readsAt_parseWithin hdepth
      constructor
      · intro hreaches
        cases hreaches with
        | front _ hheader =>
            rw [auditWithin_of_isHeader hheader]
            exact ⟨_, List.mem_cons_self, rfl, rfl⟩
        | @element _ _ count header body inner _ done hheader hbody hmissing hinner =>
            obtain ⟨a, ha, hannounced⟩ := (ih hdepth).mp hinner
            rw [auditWithin_of_isHeader hheader]
            refine ⟨a, List.mem_cons_of_mem _ ?_, hannounced⟩
            apply (mem_accounts_loop_iff (answer_auditWithin levels) []).mpr
            exact ⟨done.length, hmissing, done, inner,
              helement.readElements_eq_ok_iff.mpr ⟨body, done, rfl, rfl, rfl, hbody⟩, ha⟩
      · rintro ⟨a, ha, rfl, rfl⟩
        rcases auditWithin_cases levels bytes with ⟨hnone, -⟩ | ⟨count, header, rest, rfl, hheader⟩
        · rw [hnone] at ha
          cases ha
        · rw [auditWithin_of_isHeader hheader] at ha
          rcases List.mem_cons.mp ha with rfl | ha
          · exact .front (by omega) hheader
          · obtain ⟨n, hn, fs, inner, helements, hinner⟩ :=
              (mem_accounts_loop_iff (answer_auditWithin levels) []).mp ha
            obtain ⟨body, done, rfl, -, rfl, hbody⟩ := helement.readElements_eq_ok_iff.mp helements
            exact .element hheader hbody hn ((ih hdepth).mpr ⟨a, hinner, rfl, rfl⟩)

/-- Nothing on a shelf has moved, and with `left` bytes still to be read the others have paid for
the elements on it. -/
structure Shelf.Paid (announced : Nat) (behind : Bytes) (s : Shelf) (left : Nat) : Prop where
  moves : s.moves = 0
  room : s.room = min announced (behind.length / 3)
  paid : 3 * s.elements.length + left ≤ behind.length

theorem Shelf.paid_reserve (announced : Nat) (behind : Bytes) :
    (Shelf.reserve (min announced (behind.length / 3))).Paid announced behind behind.length where
  moves := rfl
  room := rfl
  paid := Nat.le_of_eq (Nat.zero_add _)

/-- There is room for one more element if three bytes have been read for it. -/
theorem Shelf.Paid.push {announced left left' : Nat} {behind : Bytes} {s : Shelf}
    (h : s.Paid announced behind left) (hmissing : s.elements.length < announced)
    (hleft : left' + 3 ≤ left) (f : Frame) : (s.push f).Paid announced behind left' := by
  have hpaid := h.paid
  -- a third of the bytes is more than the elements so far, for the new one is paid for, too
  have hroom : s.elements.length < s.room := by
    rw [h.room]
    omega
  rw [Shelf.push, if_pos hroom]
  refine ⟨h.moves, h.room, ?_⟩
  rw [List.length_cons]
  omega

/-- An element takes at least three bytes from the front. -/
def TakesThree (element : Bytes → Audit) : Prop :=
  ∀ {bytes f rest}, (element bytes).answer = .ok (f, rest) →
    ∃ used, bytes = used ++ rest ∧ 3 ≤ used.length

theorem takesThree_auditWithin {levels depth : Nat} (h : levels + depth = 513) :
    TakesThree (auditWithin levels) := by
  intro bytes f rest hanswer
  rw [answer_auditWithin, readsAt_parseWithin h] at hanswer
  obtain ⟨used, hsplit, hused⟩ := hanswer
  exact ⟨used, hsplit, Nat.le_trans (three_le_price f) hused.price_le⟩

/-- What is true of an account in any reading. -/
structure Account.Sound (bytes : Bytes) (a : Account) : Prop where
  header : ∃ front header, bytes = front ++ (header ++ a.behind) ∧ IsHeader a.announced header
  shelf : ∃ left, a.shelf.Paid a.announced a.behind left
  begun : a.begun ≤ a.shelf.elements.length + 1

theorem Account.Sound.append {bytes : Bytes} {a : Account} (h : a.Sound bytes) (front : Bytes) :
    a.Sound (front ++ bytes) := by
  obtain ⟨before, header, hsplit, hheader⟩ := h.header
  refine ⟨⟨front ++ before, header, ?_, hheader⟩, h.shelf, h.begun⟩
  rw [hsplit, List.append_assoc]

section Loop

variable {element : Bytes → Audit} (helement : TakesThree element)
include helement

/-- With the elements paid for so far, a loop moves none, and it ends at the first one that is not
paid for. -/
theorem paid_loop {announced n : Nat} {behind bytes : Bytes} {shelf : Shelf}
    (h : shelf.Paid announced behind bytes.length)
    (hmissing : shelf.elements.length + n ≤ announced) :
    (∃ left, (loop element n shelf bytes).shelf.Paid announced behind left) ∧
      shelf.elements.length + (loop element n shelf bytes).begun ≤
        (loop element n shelf bytes).shelf.elements.length + 1 := by
  induction n generalizing shelf bytes with
  | zero => exact ⟨⟨_, h⟩, Nat.le_succ _⟩
  | succ n ih =>
      cases hfirst : (element bytes).answer with
      | error e =>
          rw [loop_of_error hfirst]
          exact ⟨⟨_, h⟩, Nat.le_refl _⟩
      | ok split =>
          obtain ⟨f, rest⟩ := split
          obtain ⟨used, rfl, hthree⟩ := helement hfirst
          have hpush : (shelf.push f).Paid announced behind rest.length :=
            h.push (by omega) (by rw [List.length_append]; omega) f
          have hlength : (shelf.push f).elements.length = shelf.elements.length + 1 := by
            rw [Shelf.elements_push, List.length_cons]
          obtain ⟨hshelf, hbegun⟩ := ih hpush (by omega)
          rw [loop_of_ok hfirst]
          refine ⟨hshelf, ?_⟩
          dsimp only
          omega

/-- The arrays within elements lie within the bytes of the loop. -/
theorem sound_of_mem_loop (hsound : ∀ bytes, ∀ a ∈ (element bytes).accounts, a.Sound bytes)
    {n : Nat} {shelf : Shelf} {bytes : Bytes} {a : Account}
    (ha : a ∈ (loop element n shelf bytes).accounts) : a.Sound bytes := by
  induction n generalizing shelf bytes with
  | zero => cases ha
  | succ n ih =>
      cases hfirst : (element bytes).answer with
      | error e =>
          rw [loop_of_error hfirst] at ha
          exact hsound bytes a ha
      | ok split =>
          obtain ⟨f, rest⟩ := split
          obtain ⟨used, rfl, -⟩ := helement hfirst
          rw [loop_of_ok hfirst] at ha
          rcases List.mem_append.mp ha with ha | ha
          · exact hsound _ a ha
          · exact (ih ha).append used

end Loop

theorem sound_of_mem_auditWithin {levels depth : Nat} (h : levels + depth = 513) {bytes : Bytes}
    {a : Account} (ha : a ∈ (auditWithin levels bytes).accounts) : a.Sound bytes := by
  induction levels generalizing depth bytes a with
  | zero => cases ha
  | succ levels ih =>
      have hdepth : levels + (depth + 1) = 513 := by omega
      have helement : TakesThree (auditWithin levels) := takesThree_auditWithin hdepth
      rcases auditWithin_cases levels bytes with ⟨hnone, -⟩ | ⟨count, header, rest, rfl, hheader⟩
      · rw [hnone] at ha
        cases ha
      · rw [auditWithin_of_isHeader hheader] at ha
        rcases List.mem_cons.mp ha with rfl | ha
        · obtain ⟨hshelf, hbegun⟩ := paid_loop helement (Shelf.paid_reserve count rest)
            (Nat.le_of_eq (Nat.zero_add count))
          exact ⟨⟨[], header, rfl, hheader⟩, hshelf, (Nat.zero_add _).symm.trans_le hbegun⟩
        · exact (sound_of_mem_loop helement (fun _ _ => ih hdepth) ha).append header

/-- The elements that an account shows, in their order. -/
def Account.elements (a : Account) : List Frame :=
  a.shelf.elements.reverse

/-- As many elements as announced have been read. -/
def Account.Complete (a : Account) : Prop :=
  a.begun = a.announced ∧ a.elements.length = a.announced

/-- The accounts are those of the arrays in the frames, and complete. -/
def Complete (accounts : List Account) (elements : List (List Frame)) : Prop :=
  accounts.map Account.elements = elements ∧ ∀ a ∈ accounts, a.Complete

theorem complete_nil : Complete [] [] :=
  ⟨rfl, fun _ ha => absurd ha List.not_mem_nil⟩

theorem Complete.append {as bs : List Account} {es fs : List (List Frame)} (ha : Complete as es)
    (hb : Complete bs fs) : Complete (as ++ bs) (es ++ fs) := by
  refine ⟨by rw [List.map_append, ha.1, hb.1], ?_⟩
  intro a h
  rcases List.mem_append.mp h with h | h
  · exact ha.2 a h
  · exact hb.2 a h

section Success

variable {element : Bytes → Audit}
  (helement : ∀ {bytes f rest}, (element bytes).answer = .ok (f, rest) →
    Complete (element bytes).accounts f.arrays)
include helement

/-- A loop that does not fail reads all of its elements. -/
theorem complete_loop {n : Nat} {shelf : Shelf} {bytes rest : Bytes}
    (h : (loop element n shelf bytes).ending = .ok rest) :
    (loop element n shelf bytes).begun = n ∧
      ∃ fs, (loop element n shelf bytes).shelf.elements = fs.reverse ++ shelf.elements ∧
        fs.length = n ∧ Complete (loop element n shelf bytes).accounts (arraysAll fs) := by
  induction n generalizing shelf bytes with
  | zero => exact ⟨rfl, [], rfl, rfl, complete_nil⟩
  | succ n ih =>
      cases hfirst : (element bytes).answer with
      | error e =>
          rw [loop_of_error hfirst] at h
          cases h
      | ok split =>
          obtain ⟨f, middle⟩ := split
          rw [loop_of_ok hfirst] at h ⊢
          obtain ⟨hbegun, fs, hshelf, hlength, hall⟩ := ih h
          refine ⟨congrArg Nat.succ hbegun, f :: fs, ?_, congrArg Nat.succ hlength,
            (helement hfirst).append hall⟩
          rw [List.reverse_cons, List.append_assoc, List.singleton_append, ← Shelf.elements_push]
          exact hshelf

theorem complete_loopBehind {announced : Nat} {behind rest : Bytes} {elements : List Frame}
    (h : (loopBehind element announced behind).elements = .ok (elements, rest)) :
    Complete ((loopBehind element announced behind).allAccounts announced behind)
      (array elements).arrays := by
  rw [Loop.elements] at h
  cases hending : (loopBehind element announced behind).ending with
  | error e =>
      rw [hending] at h
      cases h
  | ok rest' =>
      rw [hending] at h
      cases h
      obtain ⟨hbegun, fs, hshelf, hlength, hall⟩ := complete_loop helement hending
      have hread : (loopBehind element announced behind).shelf.elements.reverse = fs := by
        rw [loopBehind, hshelf, Shelf.reserve, List.append_nil, List.reverse_reverse]
      rw [hread]
      refine ⟨congrArg₂ List.cons hread hall.1, ?_⟩
      intro a ha
      rcases List.mem_cons.mp ha with rfl | ha
      · exact ⟨hbegun, (congrArg List.length hread).trans hlength⟩
      · exact hall.2 a ha

end Success

theorem complete_auditWithin {levels : Nat} {bytes rest : Bytes} {f : Frame}
    (h : (auditWithin levels bytes).answer = .ok (f, rest)) :
    Complete (auditWithin levels bytes).accounts f.arrays := by
  induction levels generalizing bytes f rest with
  | zero => cases h
  | succ levels ih =>
      rcases auditWithin_cases levels bytes with
        ⟨hnone, hplain⟩ | ⟨count, header, behind, rfl, hheader⟩
      · rw [hnone, hplain f rest h]
        exact complete_nil
      · rw [auditWithin_of_isHeader hheader] at h ⊢
        obtain ⟨elements, helements, rfl⟩ := Parsed.as_eq_ok_iff.mp h
        exact complete_loopBehind ih helements

theorem Account.Sound.begun_le {bytes : Bytes} {a : Account} (h : a.Sound bytes) :
    a.begun ≤ a.behind.length / 3 + 1 := by
  obtain ⟨left, hpaid⟩ := h.shelf
  have hbegun := h.begun
  have := hpaid.paid
  omega

theorem Account.Sound.announced_lt {bytes : Bytes} {a : Account} (h : a.Sound bytes) :
    a.announced < 2 ^ 63 := by
  obtain ⟨-, header, -, line, -, hcount⟩ := h.header
  exact Int.ofNat_lt.mp hcount.lt_max

/-- A complete account has paid for the number that was announced. -/
theorem Account.Sound.announced_le {bytes : Bytes} {a : Account} (h : a.Sound bytes)
    (hcomplete : a.Complete) : 3 * a.announced ≤ a.behind.length := by
  obtain ⟨left, hpaid⟩ := h.shelf
  have hlength := hcomplete.2
  have := hpaid.paid
  rw [Account.elements, List.length_reverse] at hlength
  omega

theorem sound_of_mem_audit {bytes : Bytes} {a : Account} (ha : a ∈ (audit bytes).accounts) :
    a.Sound bytes :=
  sound_of_mem_auditWithin (show maxDepth + 1 + 0 = 513 from rfl) ha

/-- A frame that is read is paid for by the bytes it is read from: three for each frame in it and
one for each byte of its texts and payloads. Counting the arrays on the way changes no answer.
Whatever the bytes are, an account is kept of each array that the reading comes to, whether it
goes on to succeed or not, and of no other. The header of the array stands in the bytes and
announces any number below 2^63; room is reserved for that number, or for a third of the bytes
behind the header if this is less. No elements ever move, and at most one is begun past such a
third. If a frame is read, the accounts are those of its arrays, in order, and for each of them
the number announced is within that third, is the room reserved and the number of elements read. -/
theorem parse_paid (buffer : Bytes) (start : Nat) :
    (audit (buffer.drop start)).answer = parse (buffer.drop start) ∧
      (∀ announced behind, Reaches 0 (buffer.drop start) announced behind ↔
        ∃ a ∈ (audit (buffer.drop start)).accounts,
          a.announced = announced ∧ a.behind = behind) ∧
      (∀ a ∈ (audit (buffer.drop start)).accounts,
        (∃ front header, buffer.drop start = front ++ (header ++ a.behind) ∧
          IsHeader a.announced header) ∧
        a.announced < 2 ^ 63 ∧ a.shelf.room = min a.announced (a.behind.length / 3) ∧
        a.shelf.moves = 0 ∧ a.begun ≤ a.behind.length / 3 + 1) ∧
      ∀ f stop, parseAt buffer start = .ok (f, stop) →
        3 * f.frameCount + f.contentLength ≤ stop - start ∧
        (audit (buffer.drop start)).accounts.map Account.elements = f.arrays ∧
        ∀ a ∈ (audit (buffer.drop start)).accounts, a.announced ≤ a.behind.length / 3 ∧
          a.shelf.room = a.announced ∧ a.begun = a.announced ∧ a.elements.length = a.announced := by
  refine ⟨answer_auditWithin _ _, fun _ _ => reaches_iff rfl, ?_, ?_⟩
  · intro a ha
    have hsound := sound_of_mem_audit ha
    obtain ⟨left, hpaid⟩ := hsound.shelf
    exact ⟨hsound.header, hsound.announced_lt, hpaid.room, hpaid.moves, hsound.begun_le⟩
  · intro f stop h
    obtain ⟨hle, hstop, hparse⟩ := parseAt_eq_ok_iff.mp h
    have hused := (parseAt_eq_ok_iff_extract.mp h).2.2
    have hprice := hused.price_le
    rw [List.extract_eq_take_drop] at hprice
    rw [parse, ← answer_auditWithin] at hparse
    obtain ⟨harrays, hcomplete⟩ := complete_auditWithin hparse
    refine ⟨Nat.le_trans hprice (List.length_take_le _ _), harrays, ?_⟩
    intro a ha
    have hsound := sound_of_mem_audit ha
    obtain ⟨left, hpaid⟩ := hsound.shelf
    have hthird : a.announced ≤ a.behind.length / 3 := by
      have := hsound.announced_le (hcomplete a ha)
      omega
    exact ⟨hthird, hpaid.room.trans (Nat.min_eq_left hthird), hcomplete a ha⟩

/-- Two elements of three bytes are begun, and a third one without any bytes, for a header that
announces as many as a header can. -/
theorem parse_paid_leastElements :
    let short := asciiBytes "+a\r\n*2\r\n+\r\n*1\r\n+\r\n"
    let f := array [simple "", array [simple ""]]
    let long := asciiBytes "*9223372036854775807\r\n+\r\n+\r\n"
    let a : Account :=
      ⟨9223372036854775807, asciiBytes "+\r\n+\r\n", 3, ⟨[simple "", simple ""], 2, 0⟩⟩
    parseAt short 4 = .ok (f, 18) ∧ 3 * f.frameCount + f.contentLength ≤ 18 - 4 ∧
      (audit (short.drop 4)).accounts.map Account.elements = f.arrays ∧
      Reaches 0 (long.drop 0) a.announced a.behind ∧ a ∈ (audit (long.drop 0)).accounts ∧
      a.shelf.moves = 0 ∧
      a.begun ≤ a.behind.length / 3 + 1 := by
  intro short f long a
  have hread : parseAt short 4 = .ok (f, 18) := by decide +kernel
  have ha : a ∈ (audit (long.drop 0)).accounts := by decide +kernel
  obtain ⟨-, -, -, hsuccess⟩ := parse_paid short 4
  obtain ⟨-, hreaches, haccounts, -⟩ := parse_paid long 0
  obtain ⟨hprice, harrays, -⟩ := hsuccess f 18 hread
  obtain ⟨-, -, -, hmoves, hbegun⟩ := haccounts a ha
  exact ⟨hread, hprice, harrays, (hreaches _ _).mpr ⟨a, ha, rfl, rfl⟩, ha, hmoves, hbegun⟩

end RespServer.Frame
