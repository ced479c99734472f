import ByteRope.Digest
import ByteRope.Session.Command
import ByteRope.Session.Registers

/-!
# Sessions

A session keeps named ropes and named builders over one store and performs commands on them. A
command that fails changes no name, with one exception: a builder in which a fault arises is gone.
-/

namespace ByteRope

/-- Named ropes and builders over one store. -/
structure Session where
  store : Store
  ropes : Registers Rope
  builders : Registers Builder
  deriving Inhabited

/-- Computations on a session. -/
abbrev SessionM := EStateM Failure Session

namespace SessionM

variable {α : Type}

/-- Runs a computation on ropes in the store of the session. -/
def onStore (computation : RopeM α) : SessionM α
  | ⟨store, ropes, builders⟩ =>
    match computation store with
    | .ok value store => .ok value ⟨store, ropes, builders⟩
    | .error fault store => .error (.fault fault) ⟨store, ropes, builders⟩

instance : MonadLift RopeM SessionM := ⟨onStore⟩

/-- Runs the careful form of an operation: a refusal is a failure. -/
def careful (computation : RopeM (Except Refusal α)) : SessionM α := do
  match ← onStore computation with
  | .ok value => return value
  | .error refusal => throw (.refused refusal)

/-- The rope of a name. -/
def rope (name : String) : SessionM Rope := do
  match (← get).ropes.get? name with
  | some rope => return rope
  | none => throw (.unknownRope name)

/-- Adds the rope of a name to a set. -/
def insertNamed (ropes : RopeSet) (name : String) : SessionM RopeSet := do
  ropes.insert (← rope name)

/-- The builder of a name. -/
def builder (name : String) : SessionM Builder := do
  match (← get).builders.get? name with
  | some builder => return builder
  | none => throw (.unknownBuilder name)

/-- Gives a name a rope. -/
def keepRope (name : String) (rope : Rope) : SessionM Unit :=
  modify fun session => { session with ropes := session.ropes.set name rope }

/-- Gives a name a builder. -/
def keepBuilder (name : String) (builder : Builder) : SessionM Unit :=
  modify fun session => { session with builders := session.builders.set name builder }

/-- Forgets the builder of a name. -/
def forgetBuilder (name : String) : SessionM Unit :=
  modify fun session => { session with builders := session.builders.erase name }

/-- Takes the builder of a name out of the session. -/
def takeBuilder (name : String) : SessionM Builder := do
  let builder ← SessionM.builder name
  forgetBuilder name
  return builder

/-- The answer that describes a builder. -/
def builderReply (builder : Builder) : SessionM Reply := do
  return .builder (← onStore builder.byteLen) builder.depth

/-- Changes the builder of a name. It is kept only if it can be described, so the length of a kept
builder is a size. -/
def changeBuilder (name : String) (change : Builder → RopeM Builder) : SessionM Reply := do
  let builder ← takeBuilder name
  let changed ← onStore (change builder)
  let reply ← builderReply changed
  keepBuilder name changed
  return reply

end SessionM

open SessionM

/-- Makes a rope. -/
def Recipe.perform : Recipe → SessionM Rope
  | .bytes content encoding => Rope.ofBytes content encoding
  | .text content => Rope.ofText content
  | .octets content => Rope.ofOctets content
  | .empty encoding => Rope.empty encoding
  | .asciiOnlyLeaf content encoding => Rope.asciiOnlyLeaf content encoding
  | .validLeaf content encoding => Rope.validLeaf content encoding
  | .invalidLeaf content encoding charLen => Rope.invalidLeaf content encoding charLen
  | .taggedLeaf content tags => Rope.taggedLeaf content tags
  | .copy name => rope name
  | .concat left right policy => do
    let left ← rope left
    left.concat (← rope right) policy
  | .taggedJoin left right encoding range depth balanced => do
    let left ← rope left
    left.taggedJoin (← rope right) encoding range depth balanced
  | .chain name piece front policy count => do
    let longer ← rope name
    longer.chain (← rope piece) front policy count
  | .slice name offset len => do (← rope name).slice offset len
  | .slice? name offset len => do careful ((← rope name).slice? offset len)
  | .taggedView name tags offset len => do (← rope name).taggedView tags offset len
  | .toSevenBit name encoding => do (← rope name).toSevenBit encoding
  | .toSevenBit? name encoding => do careful ((← rope name).toSevenBit? encoding)
  | .toBinary name => do (← rope name).toBinary
  | .toBinary? name => do careful (← rope name).toBinary?
  | .resolve name => do (← rope name).resolve
  | .rebalance name policy => do (← rope name).rebalance policy
  | .build name => do (← takeBuilder name).build

/-- Answers a question. -/
def Query.perform : Query → SessionM Reply
  | .rope name => do return .rope (← SessionM.rope name)
  | .flatten name => do return .bytes (← (← SessionM.rope name).flatten)
  | .byteAt name index => do return .octet (← (← SessionM.rope name).byteAt index)
  | .byte? name index => do return .octet? (← (← SessionM.rope name).byte? index)
  | .allBytes name => do return .bytes (← (← SessionM.rope name).allBytes)
  | .chunks name => do return .chunks (← (← SessionM.rope name).chunks)
  | .copyRange name offset len => do
    return .bytes (← careful ((← SessionM.rope name).copyRange offset len))
  | .lossyText name => do return .text (← (← SessionM.rope name).toLossyText)
  | .equal left right => do
    let left ← SessionM.rope left
    return .truth (← left.equal (← SessionM.rope right))
  | .sameDigest left right => do
    let left ← SessionM.rope left
    let right ← SessionM.rope right
    let a ← left.digest
    let b ← right.digest
    return .truth (a == b)
  | .sameNode left right => do
    let left ← SessionM.rope left
    return .truth (left.isSame (← SessionM.rope right))
  | .countDistinct names => do
    return .count (← names.foldlM insertNamed .empty).size
  | .materialized => do
    let session ← get
    return .names (session.ropes.namesWhere fun rope => (session.store.raw? rope).isSome)
  | .builder name => do builderReply (← SessionM.builder name)

/-- Performs a command. -/
def Command.perform : Command → SessionM Reply
  | .make recipe target? => do
    let rope ← recipe.perform
    if let some target := target? then keepRope target rope
    return .rope rope
  | .ask query => query.perform
  | .drop name => do
    let session ← get
    set { session with ropes := session.ropes.erase name }
    return .truth (session.ropes.get? name).isSome
  | .newBuilder name encoding config => do
    keepBuilder name (.new encoding config)
    return .config config
  | .pushRope name piece count => do
    let piece ← rope piece
    changeBuilder name fun builder => builder.pushTimes piece count
  | .pushBytes name content count =>
    changeBuilder name fun builder => builder.pushBytesTimes content count
  | .copyBuilder name target => do
    let builder ← SessionM.builder name
    keepBuilder target builder
    builderReply builder

namespace Session

/-- No names, over a store that takes digests by this function. -/
def start (digestOf : Encoding → Bytes → UInt64) : Session := ⟨.empty digestOf, .empty, .empty⟩

/-- No names. -/
def empty : Session := start Digest.ofContent

/-- Performs a command: the answer, the events on the way, and the session after it. -/
def perform (session : Session) (command : Command) :
    Except Failure Reply × Array Event × Session :=
  match command.perform session with
  | .ok reply ⟨⟨digestOf, cells, events⟩, ropes, builders⟩ =>
    (.ok reply, events, ⟨⟨digestOf, cells, #[]⟩, ropes, builders⟩)
  | .error failure ⟨⟨digestOf, cells, events⟩, ropes, builders⟩ =>
    (.error failure, events, ⟨⟨digestOf, cells, #[]⟩, ropes, builders⟩)

end Session

end ByteRope
