import ByteRope.Encoding

/-!
# Refusals and faults

A `Refusal` is an answer: the call was made with arguments that its caller may check for, and the
careful form of the operation hands the refusal back. A `Fault` ends a call without a result. It
arises from a refusal in the plain form of an operation, from tags that contradict the content, from
sums past the largest size, and from content too long for one buffer.
-/

namespace ByteRope

/-- A change of encoding that keeps the bytes. -/
inductive Transition where
  | sevenBit
  | binary
  deriving DecidableEq, Repr, Inhabited

namespace Transition

/-- Both transitions, in the order in which tables list them. -/
def all : List Transition := [sevenBit, binary]

/-- The name of the transition in messages. -/
def name : Transition → String
  | sevenBit => "with_encoding_7bit"
  | binary => "with_binary_encoding"

/-- The transition with exactly this name. -/
def ofName? (text : String) : Option Transition :=
  all.find? (fun transition => transition.name == text)

/-- The only code range from which the transition is allowed. -/
def required : Transition → CodeRange
  | sevenBit => .asciiOnly
  | binary => .valid

/-- How messages describe ropes of the required range. -/
def audience : Transition → String
  | sevenBit => "ASCII-only ropes"
  | binary => "valid ropes"

end Transition

/-- Why an operation hands back no rope or byte. -/
inductive Refusal where
  | indexOutOfBounds (index byteLen : Nat)
  | rangeOutOfBounds (offset len byteLen : Nat)
  | illegalTransition (transition : Transition) (range : CodeRange)
  deriving DecidableEq, Repr

/-- The text of a refusal. -/
def Refusal.message : Refusal → String
  | indexOutOfBounds index byteLen =>
    s!"byte index {index} out of range for rope of length {byteLen}"
  | rangeOutOfBounds offset len byteLen =>
    s!"byte range {offset}+{len} out of range for rope of length {byteLen}"
  | illegalTransition transition range =>
    s!"{transition.name} must only be called for {transition.audience} (got {range.label})"

/-- Why a call ends without a result. -/
inductive Fault where
  /-- A refusal that the plain form of an operation does not hand back. -/
  | refused (refusal : Refusal)
  /-- A sum of sizes past the largest size. -/
  | sizeOverflow
  /-- More octets than one buffer takes. -/
  | capacityOverflow
  /-- A leaf marked ASCII only holds other bytes, or its encoding is not ASCII compatible. -/
  | notAsciiOnly
  /-- A leaf marked valid holds an ill-formed part. -/
  | brokenContent
  /-- A leaf marked broken is well formed. -/
  | wellFormedContent
  /-- A leaf declared valid, its length agreeing with the scan, holds an ill-formed part. -/
  | invalidContent
  /-- A leaf with no classification. -/
  | unclassifiedLeaf
  /-- A leaf whose octets are not in a buffer. -/
  | unmaterializedLeaf
  /-- An ASCII-only node has as many characters as bytes. -/
  | asciiLengths (byteLen charLen : Nat)
  /-- The encoding has no ASCII-only content. -/
  | cannotCarryAscii (encoding : Encoding)
  /-- The buffer that a node starts with does not have the length of its content. -/
  | bufferMismatch
  /-- A walk over more octets than the rope has. -/
  | walkExceeded
  /-- Two lengths that have to agree do not. -/
  | lengthsDiffer (left right : Nat)
  /-- The declared number of characters is not the scanned one. -/
  | charLenDiffers (scanned declared : Nat)
  /-- The declared depth of a concatenation is not one more than its deeper child. -/
  | depthDiffers (declared required : Nat)
  /-- A stretch of a buffer that ends past the buffer. -/
  | bufferExceeded (stop size : Nat)
  /-- An octet past the end of a buffer. -/
  | indexExceeded (index size : Nat)
  deriving DecidableEq, Repr

namespace Fault

/-- The text of a failed comparison, with a reason if there is one. -/
def comparison (reason : String) (left right : Nat) : String :=
  s!"assertion `left == right` failed{reason}\n  left: {left}\n right: {right}"

/-- The text of a fault. -/
def message : Fault → String
  | refused refusal => refusal.message
  | sizeOverflow => "attempt to add with overflow"
  | capacityOverflow => "capacity overflow"
  | notAsciiOnly => "MBC string incorrectly marked as ASCII-only"
  | brokenContent => "broken string incorrectly marked as valid"
  | wellFormedContent => "valid string incorrectly marked as broken"
  | invalidContent => "assertion failed: !encoding::is_invalid(&bytes, encoding)"
  | unclassifiedLeaf => "internal error: entered unreachable code: leaves are always classified"
  | unmaterializedLeaf =>
    "internal error: entered unreachable code: leaf nodes are always materialized"
  | asciiLengths byteLen charLen =>
    s!"ASCII-only rope must have byte_len == char_len ({byteLen} != {charLen})"
  | cannotCarryAscii encoding => s!"{encoding.name} cannot carry ASCII-only content"
  | bufferMismatch => "assertion failed: bytes.as_ref().is_none_or(|b| b.len() == byte_len)"
  | walkExceeded => "assertion failed: offset + len <= rope.byte_len()"
  | lengthsDiffer left right => comparison "" left right
  | charLenDiffers scanned declared =>
    comparison ": character length disagrees with content" scanned declared
  | depthDiffers declared required =>
    comparison ": concat depth must be one more than its deeper child" declared required
  | bufferExceeded stop size =>
    s!"range end index {stop} out of range for slice of length {size}"
  | indexExceeded index size =>
    s!"index out of bounds: the len is {size} but the index is {index}"

end Fault

end ByteRope
