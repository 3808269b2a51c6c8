/-
Text without the commands to a terminal in it. Escape sequences are left out, finished or not, and so are control
characters other than tabs and the ends of lines and pages. The characters between are kept in order.
-/
import CbcFile.Bytes

namespace CbcFile.Terminal

/-! ## Characters -/

/-- a control character that only moves on to a new place in the text -/
def blank (c : Char) : Bool :=
  c = '\t' ∨ c = '\n' ∨ c = '\x0c' ∨ c = '\r'

/-- a character that is kept between sequences -/
def visible (c : Char) : Bool :=
  blank c ∨ (' ' ≤ c ∧ c ≠ '\x7f')

/-- the character that begins every sequence -/
def escape : Char := '\x1b'

/-- a character that breaks off any sequence -/
def cancels (c : Char) : Bool :=
  c = '\x18' ∨ c = '\x1a'

/-- the character from `low` to `high` -/
def between (low high c : Char) : Bool :=
  low ≤ c ∧ c ≤ high

/-- the byte that ends a message, also where it is part of the encoding of a character -/
def terminator : UInt8 := 0x9C

/-- a character with the terminator among its bytes -/
def terminates (c : Char) : Bool :=
  terminator ∈ Bytes.ofText (String.singleton c)

/-! ## The reader -/

/-- where the reader stands: between sequences, or in one of a certain kind -/
inductive State where
  | between
  /-- the escape character has been read, and nothing more -/
  | opened
  /-- a sequence with intermediate characters, which one more character ends -/
  | selecting
  /-- a control sequence: parameters, then a letter or sign that ends it -/
  | control
  /-- a title or another setting, which a bell ends -/
  | setting
  /-- the head of a message to the device, of which nothing has been read -/
  | heading
  /-- the parameters in the head of a message -/
  | parameters
  /-- the intermediate characters in the head of a message -/
  | signs
  /-- a message, which the terminator ends -/
  | message
deriving DecidableEq, Repr

/-- the state after one character, and whether the character is kept -/
structure Move where
  next : State
  kept : Bool

/-- the state after the character that follows the escape character -/
def afterEscape (c : Char) : State :=
  if between ' ' '/' c then .selecting
  else if c = 'P' then .heading
  else if c = '[' then .control
  else if c = ']' then .setting
  else if c = 'X' ∨ c = '^' ∨ c = '_' then .message
  else if between '0' '~' c then .between
  else .opened

/-- the state inside a sequence after one of its characters -/
def proceed : State → Char → State
  | .between, _ => .between
  | .opened, c => afterEscape c
  | .selecting, c => if between '0' '~' c then .between else .selecting
  | .control, c => if between '@' '~' c then .between else .control
  | .setting, c => if c = '\x07' then .between else .setting
  | .heading, c =>
    if between ' ' '/' c then .signs
    else if between '0' '?' c then .parameters
    else if between '@' '~' c then .message
    else .heading
  | .parameters, c =>
    if between ' ' '/' c then .signs
    else if between '<' '~' c then .message
    else .parameters
  | .signs, c => if between '0' '~' c then .message else .signs
  | .message, c => if terminates c then .between else .message

/-- a state in which blanks are still carried out, and end the sequence -/
def carriesOut : State → Bool
  | .between | .opened | .selecting | .control => true
  | .setting | .heading | .parameters | .signs | .message => false

/-- one character -/
def step (state : State) (c : Char) : Move :=
  if c = escape then ⟨.opened, false⟩
  else if cancels c then ⟨.between, false⟩
  else if blank c ∧ carriesOut state then ⟨.between, true⟩
  else if state = .between then ⟨.between, visible c⟩
  else ⟨proceed state c, false⟩

/-- what is kept of characters from a state on -/
def plainFrom : State → List Char → List Char
  | _, [] => []
  | state, c :: rest =>
    let move := step state c
    if move.kept then c :: plainFrom move.next rest else plainFrom move.next rest

/-- what is kept of a text -/
def plain (text : String) : String :=
  String.ofList (plainFrom .between text.toList)

end CbcFile.Terminal
