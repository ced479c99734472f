import ByteRope.Size
import ByteRope.Text.Blank

/-!
# Sizes in decimal

A size is written as an optional plus sign and one or more ASCII digits, with blanks around it if
need be. Leading zeros are harmless; a value above the largest size is no size.
-/

namespace ByteRope.Text

/-- The value of a nonempty row of ASCII digits. -/
def digits? : List Char → Option Nat
  | [] => none
  | text =>
    if text.all Char.isDigit then
      some (text.foldl (fun value c => value * 10 + (c.toNat - '0'.toNat)) 0)
    else
      none

/-- Digits after an optional plus sign. -/
def unsigned? : List Char → Option Nat
  | '+' :: rest => digits? rest
  | text => digits? text

/-- The size that a text stands for. -/
def size? (text : String) : Option Nat :=
  (unsigned? (trim text.toList)).filter (fun value => decide (value ≤ Size.max))

end ByteRope.Text
