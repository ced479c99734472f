import ByteRope.Bytes
import ByteRope.Encoding

/-!
# Ropes

An immutable tree of octets. A leaf owns a buffer, a join puts one rope after another, and a view
shows a stretch of another rope. Subtrees are shared and never copied: a node is known by its id,
and two ropes with one id are one node. Every node carries its encoding, code range and number of
characters; these are what its maker says of it, and its content is what the tree says.

A join or a view states its length, its depth and its range beside its children, and may be wrong
about them until it is shown that no maker is. A leaf has its buffer and its kind, and its length,
its depth and its range are read off these, so about a leaf there is no such question. What a caller
can say wrongly of a leaf is checked where the leaf is made.
-/

namespace ByteRope

/-- Names a node. -/
abbrev NodeId := Nat

/-- How the content of a leaf was classified when the leaf was made. -/
inductive LeafKind where
  | asciiOnly
  | valid
  | invalid
  deriving DecidableEq, Repr, Inhabited

namespace LeafKind

/-- The kinds in the order in which tables list them. -/
def all : List LeafKind := [asciiOnly, valid, invalid]

/-- The code range of the leaves of a kind. -/
def range : LeafKind → CodeRange
  | asciiOnly => .asciiOnly
  | valid => .valid
  | invalid => .broken

/-- The kind of leaf for content of a range. Leaves are always classified. -/
def ofRange? : CodeRange → Option LeafKind
  | .asciiOnly => some asciiOnly
  | .valid => some valid
  | .broken => some invalid
  | .unknown => none

theorem range_of_ofRange? {range : CodeRange} {kind : LeafKind}
    (h : ofRange? range = some kind) : kind.range = range := by
  cases range <;> simp_all [ofRange?] <;> subst h <;> rfl

end LeafKind

/-- What a node says of its content. -/
structure Tags where
  encoding : Encoding
  range : CodeRange
  charLen : Nat
  deriving DecidableEq, Repr

/-- An immutable tree of octets. -/
inductive Rope where
  | leaf (id : NodeId) (kind : LeafKind) (encoding : Encoding) (charLen : Nat) (bytes : Bytes)
  | join (id : NodeId) (tags : Tags) (byteLen depth : Nat) (balanced : Bool) (left right : Rope)
  | view (id : NodeId) (tags : Tags) (byteLen depth offset : Nat) (child : Rope)
  deriving DecidableEq, Inhabited

namespace Rope

/-- The name of the root node. -/
def id : Rope → NodeId
  | leaf id .. | join id .. | view id .. => id

/-- What the root node says of its content. -/
def tags : Rope → Tags
  | leaf _ kind encoding charLen _ => ⟨encoding, kind.range, charLen⟩
  | join _ tags .. | view _ tags .. => tags

/-- The encoding of the content. -/
def encoding (rope : Rope) : Encoding := rope.tags.encoding

/-- The code range of the content. -/
def range (rope : Rope) : CodeRange := rope.tags.range

/-- The number of characters. -/
def charLen (rope : Rope) : Nat := rope.tags.charLen

/-- The number of octets. -/
def byteLen : Rope → Nat
  | leaf _ _ _ _ bytes => bytes.size
  | join _ _ byteLen .. | view _ _ byteLen .. => byteLen

/-- The height of the tree. -/
def depth : Rope → Nat
  | leaf .. => 0
  | join _ _ _ depth .. | view _ _ _ depth .. => depth

/-- The rope holds no octets. -/
def isEmpty (rope : Rope) : Bool := decide (rope.byteLen = 0)

/-- Every octet is known to be below 0x80. -/
def isAsciiOnly (rope : Rope) : Bool := decide (rope.range = .asciiOnly)

/-- A join was found balanced when it was made; a view is as balanced as what it shows. -/
def isBalanced : Rope → Bool
  | leaf .. => true
  | join _ _ _ _ balanced _ _ => balanced
  | view _ _ _ _ _ child => child.isBalanced

/-- The octets that the tree stands for. -/
def content : Rope → List UInt8
  | leaf _ _ _ _ bytes => bytes.toList
  | join _ _ _ _ _ left right => left.content ++ right.content
  | view _ _ byteLen _ offset child => (child.content.drop offset).take byteLen

/-- The number of nodes of the tree, shared ones counted each time. -/
def weight : Rope → Nat
  | leaf .. => 1
  | join _ _ _ _ _ left right => left.weight + right.weight + 1
  | view _ _ _ _ _ child => child.weight + 1

theorem weight_pos (rope : Rope) : 0 < rope.weight := by
  cases rope <;> simp [weight]

end Rope

end ByteRope
