import ByteRope.Rope.Basic

/-!
# Descriptions

One line that tells the root of a rope and nothing below it.
-/

namespace ByteRope

/-- The name of an encoding in descriptions. -/
def Encoding.title : Encoding → String
  | usAscii => "UsAscii"
  | binary => "Binary"
  | utf8 => "Utf8"
  | latin1 => "Iso8859_1"
  | utf16le => "Utf16Le"

/-- The name of a code range in descriptions. -/
def CodeRange.title : CodeRange → String
  | unknown => "Unknown"
  | asciiOnly => "AsciiOnly"
  | valid => "Valid"
  | broken => "Broken"

/-- The name of a kind of leaf. -/
def LeafKind.title : LeafKind → String
  | asciiOnly => "AsciiOnly"
  | valid => "Valid"
  | invalid => "Invalid"

namespace Rope

/-- The shape of the root: the kind of a leaf, or how its children make it up. -/
def shape : Rope → String
  | leaf _ kind _ _ _ => kind.title
  | join .. => "concat"
  | view .. => "substring"

/-- The shape of the root in descriptions, where leaves are told from the rest. -/
def shapeWord : Rope → String
  | leaf _ .asciiOnly _ _ _ => "ascii_leaf"
  | leaf _ .valid _ _ _ => "valid_leaf"
  | leaf _ .invalid _ _ _ => "invalid_leaf"
  | join .. => "concat"
  | view .. => "substring"

/-- One line that tells the root. -/
def describe (rope : Rope) : String :=
  let fields : List (String × String) :=
    [("shape", "\"" ++ rope.shapeWord ++ "\""), ("encoding", rope.encoding.title),
      ("code_range", rope.range.title), ("byte_len", toString rope.byteLen),
      ("char_len", toString rope.charLen), ("depth", toString rope.depth)]
  let texts := fields.map fun (name, value) => name ++ ": " ++ value
  "Rope \x7b " ++ ", ".intercalate texts ++ " \x7d"

end Rope

end ByteRope
