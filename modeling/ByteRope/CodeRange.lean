/-!
# Code ranges

How the bytes of a rope relate to its encoding. `asciiOnly` and `valid` are the good ranges: the
content is well formed, and in the first case every byte is below 0x80. `broken` content holds an
ill-formed part. An `unknown` range has not been looked at yet.
-/

namespace ByteRope

/-- What is known of the bytes of a rope under its encoding. -/
inductive CodeRange where
  | unknown
  | asciiOnly
  | valid
  | broken
  deriving DecidableEq, Repr, Inhabited

namespace CodeRange

/-- The code ranges in the order in which tables list them. -/
def all : List CodeRange := [unknown, asciiOnly, valid, broken]

/-- The short label of a code range. -/
def label : CodeRange → String
  | unknown => "unknown"
  | asciiOnly => "7bit"
  | valid => "valid"
  | broken => "broken"

/-- The range with a given label. -/
def ofLabel? (text : String) : Option CodeRange :=
  all.find? (fun range => range.label == text)

/-- The content is known to be well formed. -/
def isGood : CodeRange → Bool
  | asciiOnly | valid => true
  | unknown | broken => false

/-- The content has been classified. -/
def isResolved : CodeRange → Bool
  | unknown => false
  | asciiOnly | valid | broken => true

/-- The range of two contents of one encoding, one after the other. Broken content makes the whole
broken; short of that, content not yet looked at makes the whole unknown. -/
def combine : CodeRange → CodeRange → CodeRange
  | broken, _ | _, broken => broken
  | unknown, _ | _, unknown => unknown
  | asciiOnly, asciiOnly => asciiOnly
  | _, _ => valid

theorem combine_assoc (a b c : CodeRange) : (a.combine b).combine c = a.combine (b.combine c) := by
  cases a <;> cases b <;> cases c <;> rfl

end CodeRange

end ByteRope
