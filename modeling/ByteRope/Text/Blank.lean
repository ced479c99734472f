/-!
# Blanks

The Unicode property `White_Space`, and texts without the blanks around them.
-/

namespace ByteRope.Text

/-- The characters with the property `White_Space`, by code point. -/
def blankCodes : List Nat :=
  [0x0009, 0x000A, 0x000B, 0x000C, 0x000D, 0x0020, 0x0085, 0x00A0, 0x1680, 0x2000, 0x2001, 0x2002,
   0x2003, 0x2004, 0x2005, 0x2006, 0x2007, 0x2008, 0x2009, 0x200A, 0x2028, 0x2029, 0x202F, 0x205F,
   0x3000]

/-- The character is white space. -/
def isBlank (c : Char) : Bool :=
  blankCodes.contains c.toNat

/-- The text without the blanks at its two ends. -/
def trim (text : List Char) : List Char :=
  ((text.dropWhile isBlank).reverse.dropWhile isBlank).reverse

/-- The text trimmed and with its ASCII capitals made small. -/
def caseless (text : String) : String :=
  String.ofList ((trim text.toList).map Char.toLower)

end ByteRope.Text
