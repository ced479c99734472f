/-!
# Byte buffers

Buffers of octets, and texts as octets.
-/

namespace ByteRope

/-- A contiguous buffer of octets. -/
abbrev Bytes := Array UInt8

namespace Bytes

/-- The octets of the UTF-8 form of a text. -/
def ofText (text : String) : Bytes :=
  text.toUTF8.data

/-- The text whose UTF-8 form the octets are, if there is one. -/
def toText? (bytes : Bytes) : Option String :=
  String.fromUTF8? ⟨bytes⟩

/-- Every octet is below 0x80. -/
def isAscii (bytes : Bytes) : Bool :=
  bytes.all (fun byte => decide (byte < 0x80))

end Bytes

end ByteRope
