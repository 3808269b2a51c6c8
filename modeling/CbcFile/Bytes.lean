/-
Byte strings. File contents, path names and arguments are all lists of bytes here; only what is shown to a person is
text. `ascii` writes the byte string of a word spelled in characters.
-/

namespace CbcFile

/-- a byte string -/
abbrev Bytes := List UInt8

/-- the bytes of a word spelled in ASCII characters -/
def ascii (word : List Char) : Bytes :=
  word.map Char.toUInt8

/-- the bytes of a text in UTF-8 -/
def Bytes.ofText (text : String) : Bytes :=
  text.toUTF8.toList

end CbcFile
