import ByteRope.Bytes
import ByteRope.Size

/-!
# Stretches of buffers

A chunk is a stretch of a buffer that is not copied out of it. Taking a stretch or an octet that
the buffer does not hold is a fault.
-/

namespace ByteRope

/-- A stretch of a buffer. -/
structure Chunk where
  buffer : Bytes
  start : Nat
  len : Nat
  deriving Inhabited

namespace Chunk

/-- No octets. -/
def empty : Chunk := ⟨#[], 0, 0⟩

/-- The stretch of `len` octets from `start` on. -/
def of (buffer : Bytes) (start len : Nat) : Except Fault Chunk := do
  let stop ← Size.add start len
  if stop ≤ buffer.size then .ok ⟨buffer, start, len⟩
  else .error (.bufferExceeded stop buffer.size)

/-- The octets of the stretch, copied out. -/
def bytes (chunk : Chunk) : Bytes :=
  chunk.buffer.extract chunk.start (chunk.start + chunk.len)

/-- The first `count` octets of the stretch. -/
def take (chunk : Chunk) (count : Nat) : Chunk :=
  ⟨chunk.buffer, chunk.start, min count chunk.len⟩

/-- The stretch without its first `count` octets. -/
def drop (chunk : Chunk) (count : Nat) : Chunk :=
  ⟨chunk.buffer, chunk.start + count, chunk.len - count⟩

end Chunk

/-- The octet at an index. -/
def Bytes.octetAt (buffer : Bytes) (index : Nat) : Except Fault UInt8 :=
  match buffer[index]? with
  | some byte => .ok byte
  | none => .error (.indexExceeded index buffer.size)

end ByteRope
