import ByteRope.Rope.Node
import ByteRope.Scanner

/-!
# Leaves

Leaves own their octets. The octets are either classified here by a scan, or the caller says what
they are and the claim is checked against them.
-/

namespace ByteRope.Rope

/-- A leaf of the kind that a scan finds. -/
def ofBytes (bytes : Bytes) (encoding : Encoding) : RopeM Rope := do
  let scanned := encoding.scan bytes
  match LeafKind.ofRange? scanned.range with
  | some kind => newLeaf kind encoding scanned.charLen bytes
  | none => throw .unclassifiedLeaf

/-- A leaf with the UTF-8 form of a text. -/
def ofText (text : String) : RopeM Rope :=
  ofBytes (Bytes.ofText text) .utf8

/-- A leaf of octets that are no text. -/
def ofOctets (bytes : Bytes) : RopeM Rope :=
  ofBytes bytes .binary

/-- A leaf without octets. -/
def empty (encoding : Encoding) : RopeM Rope :=
  ofBytes #[] encoding

/-- A leaf that the caller says is ASCII only. -/
def asciiOnlyLeaf (bytes : Bytes) (encoding : Encoding) : RopeM Rope :=
  if encoding.isAsciiOnly bytes then newLeaf .asciiOnly encoding bytes.size bytes
  else throw .notAsciiOnly

/-- A leaf that the caller says is well formed. Its characters are counted. -/
def validLeaf (bytes : Bytes) (encoding : Encoding) : RopeM Rope :=
  let scanned := encoding.scan bytes
  if scanned.range = .broken then throw .brokenContent
  else newLeaf .valid encoding scanned.charLen bytes

/-- A leaf that the caller says is broken, with a number of characters of the caller's choice. -/
def invalidLeaf (bytes : Bytes) (encoding : Encoding) (charLen : Nat) : RopeM Rope :=
  if encoding.isInvalid bytes then newLeaf .invalid encoding charLen bytes
  else throw .wellFormedContent

/-- A leaf with the range and number of characters that the caller says. An unknown range leaves
the classification to the scan. -/
def taggedLeaf (bytes : Bytes) (tags : Tags) : RopeM Rope :=
  match tags.range with
  | .asciiOnly =>
    if tags.charLen = bytes.size then asciiOnlyLeaf bytes tags.encoding
    else throw (.lengthsDiffer tags.charLen bytes.size)
  | .valid =>
    let scanned := tags.encoding.scan bytes
    if scanned.charLen ≠ tags.charLen then
      throw (.charLenDiffers scanned.charLen tags.charLen)
    else if tags.encoding.isInvalid bytes then throw .invalidContent
    else newLeaf .valid tags.encoding tags.charLen bytes
  | .broken => invalidLeaf bytes tags.encoding tags.charLen
  | .unknown => do
    let rope ← ofBytes bytes tags.encoding
    if rope.charLen = tags.charLen then return rope
    else throw (.lengthsDiffer rope.charLen tags.charLen)

end ByteRope.Rope
