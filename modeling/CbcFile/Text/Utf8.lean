/-
UTF-8 read one byte at a time. `decode` turns a byte string into its characters, with `none` for each longest run of
bytes that begins a character and is not finished by it. `display` shows such a run as U+FFFD; a byte string is valid
when there is none. `runs` keeps the bytes of each character and of each broken run, so that `quoted` can spell out what
is broken.

Main fact: an ASCII byte is the character of its own number (`decode_ascii`).
-/
import CbcFile.Bytes

namespace CbcFile.Utf8

/-! ## The reader -/

/-- where the reader stands: between characters, or owing continuation bytes -/
inductive State where
  | between
  /-- `owed` more bytes, the next one from `low` to `high`; `value` is what the bytes so far spell -/
  | inside (owed : Nat) (low high : UInt8) (value : Nat)
deriving DecidableEq, Repr

/-- what one byte gives: pieces that are now complete, and the next state -/
structure Move where
  pieces : List (Option Char)
  state : State

/-- a byte met between characters: an ASCII character, a leading byte, or a stray one -/
def lead (b : UInt8) : Move :=
  if b ≤ 0x7F then ⟨[some (Char.ofNat b.toNat)], .between⟩
  else if b < 0xC2 then ⟨[none], .between⟩
  else if b ≤ 0xDF then ⟨[], .inside 1 0x80 0xBF (b &&& 0x1F).toNat⟩
  else if b = 0xE0 then ⟨[], .inside 2 0xA0 0xBF 0⟩
  else if b = 0xED then ⟨[], .inside 2 0x80 0x9F 0xD⟩
  else if b ≤ 0xEF then ⟨[], .inside 2 0x80 0xBF (b &&& 0x0F).toNat⟩
  else if b = 0xF0 then ⟨[], .inside 3 0x90 0xBF 0⟩
  else if b ≤ 0xF3 then ⟨[], .inside 3 0x80 0xBF (b &&& 0x07).toNat⟩
  else if b = 0xF4 then ⟨[], .inside 3 0x80 0x8F 4⟩
  else ⟨[none], .between⟩

/-- one byte from any state; a byte that cannot continue ends the run as broken and is read again from between -/
def step : State → UInt8 → Move
  | .between, b => lead b
  | .inside owed low high value, b =>
    if low ≤ b ∧ b ≤ high then
      let value := value * 64 + (b &&& 0x3F).toNat
      if owed ≤ 1 then ⟨[some (Char.ofNat value)], .between⟩
      else ⟨[], .inside (owed - 1) 0x80 0xBF value⟩
    else
      let again := lead b
      ⟨none :: again.pieces, again.state⟩

/-- reads on from a state; input that ends inside a character leaves it broken -/
def decodeFrom : State → Bytes → List (Option Char)
  | .between, [] => []
  | .inside .., [] => [none]
  | state, b :: rest =>
    let move := step state b
    move.pieces ++ decodeFrom move.state rest

/-- the characters of a byte string, `none` for each broken run -/
def decode (bytes : Bytes) : List (Option Char) :=
  decodeFrom .between bytes

/-- reads on from a state in which these bytes of a run have been read; each piece comes with its bytes -/
def runsFrom : State → Bytes → Bytes → List (Bytes × Option Char)
  | .between, _, [] => []
  | .inside .., run, [] => [(run, none)]
  | state, run, b :: rest =>
    let move := step state b
    match move.pieces with
    | [] => runsFrom move.state (run ++ [b]) rest
    | [piece] =>
      -- the byte has ended the run, or it begins the next one behind a broken one
      if move.state = .between then (run ++ [b], piece) :: runsFrom .between [] rest
      else (run, piece) :: runsFrom move.state [b] rest
    | first :: second :: _ => (run, first) :: ([b], second) :: runsFrom move.state [] rest

/-- the characters of a byte string with the bytes of each, `none` for those of a broken run -/
def runs (bytes : Bytes) : List (Bytes × Option Char) :=
  runsFrom .between [] bytes

/-! ## What is made of it -/

/-- how a byte string is shown: U+FFFD for each broken run -/
def display (bytes : Bytes) : String :=
  String.ofList ((decode bytes).map fun piece => piece.getD (Char.ofNat 0xFFFD))

/-- no run is broken -/
def valid (bytes : Bytes) : Bool :=
  (decode bytes).all Option.isSome

/-- the text of a byte string that is valid -/
def text? (bytes : Bytes) : Option String :=
  if valid bytes then some (display bytes) else none

/-- the characters before the first broken run, and the bytes from there on -/
def validSpan (bytes : Bytes) : List Char × Bytes :=
  let chars := ((decode bytes).takeWhile Option.isSome).filterMap id
  (chars, bytes.drop (chars.foldl (fun size c => size + c.utf8Size) 0))

/-! ## Quoting -/

/-- the characters that are written between quotes as a backslash and a letter or sign -/
def shortEscapes : List (Char × Char) :=
  [('\x00', '0'), ('\t', 't'), ('\n', 'n'), ('\r', 'r'), ('\x22', '\x22'), ('\x5c', '\x5c')]

/-- a character between quotes. Control characters are spelled by number; beyond ASCII every character stands for itself,
also one that cannot be printed -/
def quotedChar (c : Char) : List Char :=
  match shortEscapes.lookup c with
  | some sign => ['\x5c', sign]
  | none =>
    if c < ' ' ∨ c = '\x7f' then ['\x5c', 'u', '\x7b'] ++ Nat.toDigits 16 c.toNat ++ ['\x7d'] else [c]

/-- a byte of a broken run between quotes, spelled by its number -/
def quotedByte (b : UInt8) : List Char :=
  ['\x5c', 'x'] ++ (Nat.toDigits 16 b.toNat).map Char.toUpper

/-- a byte string between quotes -/
def quoted (bytes : Bytes) : String :=
  let inside := (runs bytes).flatMap fun run =>
    match run.2 with
    | some c => quotedChar c
    | none => run.1.flatMap quotedByte
  String.ofList ('\x22' :: inside ++ ['\x22'])

/-! ## ASCII -/

/-- from between characters, a byte below 128 is read as itself -/
theorem decode_ascii {b : UInt8} (h : b ≤ 0x7F) (rest : Bytes) :
    decode (b :: rest) = some (Char.ofNat b.toNat) :: decode rest := by
  simp [decode, decodeFrom, step, lead, h]

end CbcFile.Utf8
