import ByteRope.Rope.Cursor
import ByteRope.Scanner
import ByteRope.Text.Lossy

/-!
# Reading

The ways to the octets of a rope: all in one buffer, one by one, chunk by chunk, or a stretch of
them. Only the first of them lets the rope remember its content. All of them take a buffer from any
node that has one.
-/

namespace ByteRope.Rope

/-! ## One buffer -/

/-- Octets copied together and the number of chunks they came in. -/
structure Gathered where
  bytes : Bytes
  pieces : Nat

/-- Copies one more chunk behind the rest. -/
def Gathered.add (gathered : Gathered) (chunk : Chunk) : Gathered :=
  ⟨gathered.bytes ++ chunk.bytes, gathered.pieces + 1⟩

/-- Copies the content together chunk by chunk, into a buffer that is asked for first. -/
def gather (store : Store) (rope : Rope) : Except Fault Gathered := do
  Size.checkBuffer rope.byteLen
  let cursor ← Cursor.ofRange rope 0 rope.byteLen
  let gathered ← cursor.fold store Gathered.add ⟨#[], 0⟩
  if gathered.bytes.size = rope.byteLen then .ok gathered
  else .error (.lengthsDiffer gathered.bytes.size rope.byteLen)

/-- Copies the content together chunk by chunk, and says so. -/
def assemble (rope : Rope) : RopeM Bytes := do
  let gathered ← gather (← get) rope
  RopeM.emit (.ropeFlattened rope.byteLen rope.depth gathered.pieces)
  return gathered.bytes

/-- Copies the content together. A view copies straight out of the rope that it shows if that one
has its content in one buffer. -/
def copyOut (rope : Rope) : RopeM Bytes := do
  match rope with
  | view _ _ byteLen _ offset child =>
    match (← get).raw? child with
    | some bytes => return (← Chunk.of bytes offset byteLen).bytes
    | none => rope.assemble
  | leaf .. | join .. => rope.assemble

/-- The content in one buffer, which the rope remembers from now on. -/
def flatten (rope : Rope) : RopeM Bytes := do
  match (← get).raw? rope with
  | some bytes => return bytes
  | none =>
    let bytes ← rope.copyOut
    modify fun store => store.publish rope.id bytes
    return bytes

/-- The content read as UTF-8, ill-formed parts replaced. -/
def toLossyText (rope : Rope) : RopeM String := do
  let bytes ← rope.flatten
  return String.ofList (Text.decodeLossy bytes.toList)

/-! ## Single octets -/

/-- The octet at an index that is in range. -/
def octet (store : Store) : Rope → Nat → Except Fault UInt8
  | leaf _ _ _ _ bytes, index => bytes.octetAt index
  | join id _ _ _ _ left right, index =>
    match (store.cell id).bytes? with
    | some bytes => bytes.octetAt index
    | none =>
      if index < left.byteLen then left.octet store index
      else right.octet store (index - left.byteLen)
  | view id _ _ _ offset child, index =>
    match (store.cell id).bytes? with
    | some bytes => bytes.octetAt index
    | none =>
      match Size.add index offset with
      | .ok index => child.octet store index
      | .error fault => .error fault

/-- The octet at an index, if the index is in range. -/
def byte? (rope : Rope) (index : Nat) : RopeM (Option UInt8) := do
  if index < rope.byteLen then return some (← octet (← get) rope index)
  else return none

/-- The octet at an index. -/
def byteAt (rope : Rope) (index : Nat) : RopeM UInt8 := do
  match ← rope.byte? index with
  | some byte => return byte
  | none => throw (.refused (.indexOutOfBounds index rope.byteLen))

/-- Puts the octets from `index` on behind those of `done`, one by one. -/
def bytesAfter (rope : Rope) (done : Bytes) (index : Nat) : Nat → RopeM Bytes
  | 0 => return done
  | count + 1 => do
    let byte ← rope.byteAt index
    rope.bytesAfter (done.push byte) (index + 1) count

/-- All octets, one by one, in a buffer that is asked for first. -/
def allBytes (rope : Rope) : RopeM Bytes := do
  Size.checkBuffer rope.byteLen
  rope.bytesAfter #[] 0 rope.byteLen

/-! ## Stretches -/

/-- The chunks of the content, in order. -/
def chunks (rope : Rope) : RopeM (Array Chunk) := do
  let cursor ← Cursor.ofRange rope 0 rope.byteLen
  cursor.chunks (← get)

/-- Scans a stretch of the content under the encoding of the rope. -/
def scanRange (rope : Rope) (offset len : Nat) : RopeM ScanResult := do
  let cursor ← Cursor.ofRange rope offset len
  let scanner ←
    cursor.fold (← get) (fun scanner chunk => scanner.feed chunk.bytes) (Scanner.new rope.encoding)
  return scanner.finish

/-- Refuses a stretch that does not lie within the rope. -/
def checkRange (rope : Rope) (offset len : Nat) : Except Refusal Unit :=
  if offset + len ≤ rope.byteLen then .ok ()
  else .error (.rangeOutOfBounds offset len rope.byteLen)

/-- A buffer that is being overwritten, and the number of its octets that have been. -/
structure Filling where
  buffer : Bytes
  written : Nat

/-- Overwrites the next octets with a chunk. -/
def Filling.put (filling : Filling) (chunk : Chunk) : Except Fault Filling := do
  let ⟨buffer, written⟩ := filling
  let stop ← Size.add written chunk.len
  if stop ≤ buffer.size then
    .ok ⟨buffer.extract 0 written ++ chunk.bytes ++ buffer.extract stop buffer.size, stop⟩
  else .error (.bufferExceeded stop buffer.size)

/-- Goes on to overwrite unless a chunk before did not fit. -/
def Filling.next (filled : Except Fault Filling) (chunk : Chunk) : Except Fault Filling :=
  filled.bind fun filling => filling.put chunk

/-- Overwrites a buffer with as many octets from `offset` on as it takes. The answer comes with the
buffer: a refusal leaves it as it was. -/
def copyInto (rope : Rope) (offset : Nat) (buffer : Bytes) :
    RopeM (Except Refusal Unit × Bytes) := do
  match rope.checkRange offset buffer.size with
  | .error refusal => return (.error refusal, buffer)
  | .ok () =>
    let cursor ← Cursor.ofRange rope offset buffer.size
    let filling ← (← cursor.fold (← get) Filling.next (.ok ⟨buffer, 0⟩))
    if filling.written = buffer.size then return (.ok (), filling.buffer)
    else throw (.lengthsDiffer filling.written buffer.size)

/-- A copy of `len` octets from `offset` on, in a new buffer. The buffer is not asked for if the
range is refused. -/
def copyRange (rope : Rope) (offset len : Nat) : RopeM (Except Refusal Bytes) := do
  match rope.checkRange offset len with
  | .error refusal => return .error refusal
  | .ok () =>
    let (answer, buffer) ← rope.copyInto offset (.replicate len 0)
    return answer.map fun _ => buffer

end ByteRope.Rope
