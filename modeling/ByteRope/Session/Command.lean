import ByteRope.Builder
import ByteRope.Rope.Slice
import ByteRope.RopeSet

/-!
# Commands

The operations on ropes and builders as data. Operands are the names of registers.
-/

namespace ByteRope

/-- A way of making a rope. The forms with a question mark refuse what the others fault on. -/
inductive Recipe where
  | bytes (bytes : Bytes) (encoding : Encoding)
  | text (text : String)
  | octets (bytes : Bytes)
  | empty (encoding : Encoding)
  | asciiOnlyLeaf (bytes : Bytes) (encoding : Encoding)
  | validLeaf (bytes : Bytes) (encoding : Encoding)
  | invalidLeaf (bytes : Bytes) (encoding : Encoding) (charLen : Nat)
  | taggedLeaf (bytes : Bytes) (tags : Tags)
  | copy (rope : String)
  | concat (left right : String) (policy : BalancePolicy)
  | taggedJoin (left right : String) (encoding : Encoding) (range : CodeRange) (depth : Nat)
      (balanced : Bool)
  | chain (rope piece : String) (front : Bool) (policy : BalancePolicy) (count : Nat)
  | slice (rope : String) (offset len : Nat)
  | slice? (rope : String) (offset len : Nat)
  | taggedView (rope : String) (tags : Tags) (offset len : Nat)
  | toSevenBit (rope : String) (encoding : Encoding)
  | toSevenBit? (rope : String) (encoding : Encoding)
  | toBinary (rope : String)
  | toBinary? (rope : String)
  | resolve (rope : String)
  | rebalance (rope : String) (policy : BalancePolicy)
  | build (builder : String)

/-- A question about ropes or builders. -/
inductive Query where
  | rope (rope : String)
  | flatten (rope : String)
  | byteAt (rope : String) (index : Nat)
  | byte? (rope : String) (index : Nat)
  | allBytes (rope : String)
  | chunks (rope : String)
  | copyRange (rope : String) (offset len : Nat)
  | lossyText (rope : String)
  | equal (left right : String)
  | sameDigest (left right : String)
  | sameNode (left right : String)
  | countDistinct (ropes : List String)
  | materialized
  | builder (builder : String)

/-- One operation of a session. A rope that is made without a target is not kept. -/
inductive Command where
  | make (recipe : Recipe) (target? : Option String)
  | ask (query : Query)
  | drop (rope : String)
  | newBuilder (builder : String) (encoding : Encoding) (config : Config)
  | pushRope (builder rope : String) (count : Nat)
  | pushBytes (builder : String) (bytes : Bytes) (count : Nat)
  | copyBuilder (builder target : String)

/-- The answer to a command. -/
inductive Reply where
  | rope (rope : Rope)
  | bytes (bytes : Bytes)
  | octet (octet : UInt8)
  | octet? (octet? : Option UInt8)
  | chunks (chunks : Array Chunk)
  | text (text : String)
  | truth (value : Bool)
  | count (count : Nat)
  | names (names : List String)
  | config (config : Config)
  | builder (byteLen depth : Nat)

/-- Why a command has no answer. -/
inductive Failure where
  | unknownRope (name : String)
  | unknownBuilder (name : String)
  | refused (refusal : Refusal)
  | fault (fault : Fault)
  deriving DecidableEq, Repr

end ByteRope
