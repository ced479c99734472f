import ByteRope.CodeRange
import ByteRope.Text.Blank

/-!
# Encodings

The character encodings a rope can be tagged with, their names, and the encoding that two contents
put one after the other can share.
-/

namespace ByteRope

/-- A character encoding. `binary` takes each byte for a character of its own. -/
inductive Encoding where
  | usAscii
  | binary
  | utf8
  | latin1
  | utf16le
  deriving DecidableEq, Repr, Inhabited

namespace Encoding

/-- The encodings in the order in which tables list them. -/
def all : List Encoding := [usAscii, binary, utf8, latin1, utf16le]

/-- The registered name of an encoding. -/
def name : Encoding → String
  | usAscii => "US-ASCII"
  | binary => "ASCII-8BIT"
  | utf8 => "UTF-8"
  | latin1 => "ISO-8859-1"
  | utf16le => "UTF-16LE"

/-- Other spellings under which an encoding is known, in small letters. -/
def aliases : Encoding → List String
  | usAscii => ["ascii"]
  | binary => ["binary"]
  | utf8 => ["utf8"]
  | latin1 => ["latin1", "latin-1"]
  | utf16le => ["utf16le"]

/-- The encoding with exactly this name. -/
def ofName? (text : String) : Option Encoding :=
  all.find? (fun encoding => encoding.name == text)

/-- Reads a name or an alias; case and surrounding blanks do not matter. -/
def parse? (text : String) : Option Encoding :=
  let key := Text.caseless text
  all.find? (fun encoding => Text.caseless encoding.name == key || encoding.aliases.contains key)

/-- Every byte below 0x80 stands for the ASCII character of that number. -/
def isAsciiCompatible : Encoding → Bool
  | utf16le => false
  | usAscii | binary | utf8 | latin1 => true

/-- The encoding of two contents put one after the other, if they can share one. Contents of one
encoding always do. Otherwise both encodings have to be ASCII compatible and one side has to be
ASCII only: it then takes the encoding of the other side. -/
def compatible (left : Encoding) (leftRange : CodeRange) (right : Encoding)
    (rightRange : CodeRange) : Option Encoding :=
  if left = right then some left
  else if !left.isAsciiCompatible || !right.isAsciiCompatible then none
  else if rightRange = .asciiOnly then some left
  else if leftRange = .asciiOnly then some right
  else none

theorem compatible_self (encoding : Encoding) (left right : CodeRange) :
    compatible encoding left encoding right = some encoding := by
  simp [compatible]

end Encoding

end ByteRope
