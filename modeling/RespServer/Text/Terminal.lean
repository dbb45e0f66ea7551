import RespServer.Text.Utf8

/-!
# Text without terminal controls

Text from outside may hold control characters and control sequences that move a
cursor, set colours or rename a window. `plain` keeps what a terminal shows of a
text: its printable characters and the controls that are white space. What is
kept holds no control (`showable_of_mem_plain`), and a text without controls is
kept whole (`plain_of_showable`).
-/

namespace RespServer.Terminal

def escape : Char := '\x1B'

/-- A horizontal tab, line feed, form feed or carriage return. -/
def isBlankControl (c : Char) : Bool :=
  c = '\t' || c = '\n' || c = '\x0C' || c = '\r'

/-- A character that is shown where no control sequence has begun. -/
def showable (c : Char) : Bool :=
  isBlankControl c || (' ' ≤ c && c ≠ '\x7F')

/-- The place in a control sequence that a reader of the text has come to. -/
inductive Mode where
  /-- outside of any sequence -/
  | ground
  /-- behind an escape character -/
  | escaped
  /-- behind an escape character and intermediates -/
  | intermediate
  /-- in a control sequence, which begins with an opening bracket -/
  | control
  /-- at the start of a device string -/
  | device
  /-- in the parameters of a device string -/
  | deviceParameter
  /-- in the intermediates of a device string -/
  | deviceIntermediate
  /-- in a string that has no effect on the screen -/
  | hidden
  /-- in a command for the terminal itself -/
  | command
  deriving DecidableEq

/-- White space is shown also where it cuts a control sequence off, but not in a
string. -/
def Mode.shows : Mode → Char → Bool
  | ground, c => showable c
  | escaped, c | intermediate, c | control, c => isBlankControl c
  | device, _ | deviceParameter, _ | deviceIntermediate, _ | hidden, _ | command, _ => false

/-- Whether a byte 9C, the end of a string, is among the bytes of a character. -/
def endsString (c : Char) : Bool :=
  (Utf8.encodeChar c).contains 0x9C

/-- The mode behind a character that is not shown and cuts nothing off. -/
def Mode.proceed (m : Mode) (c : Char) : Mode :=
  match m with
  | ground => ground
  | escaped =>
    if ' ' ≤ c ∧ c ≤ '/' then intermediate
    else if c = '[' then control
    else if c = ']' then command
    else if c = 'P' then device
    else if c = 'X' ∨ c = '^' ∨ c = '_' then hidden
    else if '0' ≤ c ∧ c ≤ '~' then ground
    else escaped
  | intermediate => if '0' ≤ c ∧ c ≤ '~' then ground else intermediate
  | control => if '@' ≤ c ∧ c ≤ '~' then ground else control
  | device =>
    if ' ' ≤ c ∧ c ≤ '/' then deviceIntermediate
    else if '0' ≤ c ∧ c ≤ '?' then deviceParameter
    else if '@' ≤ c ∧ c ≤ '~' then hidden
    else device
  | deviceParameter =>
    if ' ' ≤ c ∧ c ≤ '/' then deviceIntermediate
    else if '<' ≤ c ∧ c ≤ '~' then hidden
    else deviceParameter
  | deviceIntermediate => if '0' ≤ c ∧ c ≤ '~' then hidden else deviceIntermediate
  | hidden => if endsString c then ground else hidden
  | command => if c = '\x07' then ground else command

/-- The mode behind a character. An escape character begins a new sequence
anywhere; CAN and SUB end one, and so does what is shown. -/
def Mode.next (m : Mode) (c : Char) : Mode :=
  if c = escape then escaped
  else if c = '\x18' ∨ c = '\x1A' ∨ m.shows c then ground
  else m.proceed c

/-- The characters shown by a reader in the given mode. -/
def shown (m : Mode) : List Char → List Char
  | [] => []
  | c :: cs => if m.shows c then c :: shown (m.next c) cs else shown (m.next c) cs

/-- What is shown of a text. A sequence that it leaves unfinished is dropped. -/
def plain (text : String) : String :=
  String.ofList (shown .ground text.toList)

theorem Mode.showable_of_shows {m : Mode} {c : Char} (h : m.shows c) : showable c := by
  cases m <;> simp_all [Mode.shows, showable]

theorem showable_of_mem_shown {m : Mode} {cs : List Char} {c : Char} (h : c ∈ shown m cs) :
    showable c := by
  induction cs generalizing m with
  | nil => simp [shown] at h
  | cons d cs ih =>
    rw [shown] at h
    split at h
    · next hd =>
      rcases List.mem_cons.mp h with rfl | h
      · exact Mode.showable_of_shows hd
      · exact ih h
    · exact ih h

/-- What is kept of a text holds no control but white space. -/
theorem showable_of_mem_plain {text : String} {c : Char} (h : c ∈ (plain text).toList) :
    showable c := by
  rw [plain, String.toList_ofList] at h
  exact showable_of_mem_shown h

theorem Mode.next_ground_of_showable {c : Char} (h : showable c) : ground.next c = ground := by
  have hc : c ≠ escape := by
    rintro rfl
    exact absurd h (by decide)
  simp [Mode.next, Mode.shows, hc, h]

theorem shown_ground_of_showable {cs : List Char} (h : ∀ c ∈ cs, showable c) :
    shown .ground cs = cs := by
  induction cs with
  | nil => rfl
  | cons c cs ih =>
    have hc := h c List.mem_cons_self
    rw [shown, if_pos (by exact hc), Mode.next_ground_of_showable hc,
      ih fun d hd => h d (List.mem_cons_of_mem c hd)]

/-- A text without controls is kept whole. -/
theorem plain_of_showable {text : String} (h : ∀ c ∈ text.toList, showable c) :
    plain text = text := by
  rw [plain, shown_ground_of_showable h, String.ofList_toList]

end RespServer.Terminal
