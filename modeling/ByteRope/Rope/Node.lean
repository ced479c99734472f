import ByteRope.Size
import ByteRope.Store

/-!
# Making nodes

Every node is made by one of three functions, which check what holds of all nodes: ASCII-only
content has as many characters as octets, a buffer that the node starts with has the length of its
content, and the octets of a leaf are one buffer.
-/

namespace ByteRope.Rope

/-- The checks on a new node. -/
def checkNode (tags : Tags) (byteLen : Nat) (bytes? : Option Bytes) : Except Fault Unit :=
  if tags.range = .asciiOnly ∧ byteLen ≠ tags.charLen then
    .error (.asciiLengths byteLen tags.charLen)
  else
    match bytes? with
    | none => .ok ()
    | some bytes =>
      if bytes.size = byteLen then .ok () else .error .bufferMismatch

/-- Makes a leaf. -/
def newLeaf (kind : LeafKind) (encoding : Encoding) (charLen : Nat) (bytes : Bytes) :
    RopeM Rope := do
  Size.checkBuffer bytes.size
  checkNode ⟨encoding, kind.range, charLen⟩ bytes.size none
  return leaf (← RopeM.fresh none) kind encoding charLen bytes

/-- Makes a join. -/
def newJoin (tags : Tags) (byteLen depth : Nat) (balanced : Bool) (left right : Rope)
    (bytes? : Option Bytes) : RopeM Rope := do
  checkNode tags byteLen bytes?
  return join (← RopeM.fresh bytes?) tags byteLen depth balanced left right

/-- Makes a view. -/
def newView (tags : Tags) (byteLen depth offset : Nat) (child : Rope) (bytes? : Option Bytes) :
    RopeM Rope := do
  checkNode tags byteLen bytes?
  return view (← RopeM.fresh bytes?) tags byteLen depth offset child

end ByteRope.Rope
