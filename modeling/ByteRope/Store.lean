import ByteRope.Event
import ByteRope.Fault
import ByteRope.Rope.Basic

/-!
# The store

Ropes never change, but a node remembers its content once it has been copied together, and its
digest once that has been computed. The store keeps both for every node, hands out the names of new
nodes, and keeps the events of the operations in order. What the digest of octets under an encoding
is comes from elsewhere: the store is given a function for it, of which nothing is known. The
computations on ropes run in `RopeM`; what a faulted computation has done to the store stays done.
-/

namespace ByteRope

/-- What a node remembers. A leaf owns its octets and remembers only its digest here. -/
structure Cell where
  bytes? : Option Bytes := none
  digest? : Option UInt64 := none
  deriving Inhabited

/-- The cells of all nodes, by name, and the events so far. No computation changes what digests
are. -/
structure Store where
  digestOf : Encoding → Bytes → UInt64
  cells : Array Cell
  events : Array Event
  deriving Inhabited

/-- Computations on ropes. -/
abbrev RopeM := EStateM Fault Store

namespace Store

/-- No nodes and no events. -/
def empty (digestOf : Encoding → Bytes → UInt64) : Store := ⟨digestOf, #[], #[]⟩

/-- What a node remembers. -/
def cell (store : Store) (id : NodeId) : Cell :=
  store.cells[id]?.getD {}

/-- The content of a rope in one buffer, if its root has one. -/
def raw? (store : Store) : Rope → Option Bytes
  | .leaf _ _ _ _ bytes => some bytes
  | .join id .. | .view id .. => (store.cell id).bytes?

/-- The digest that a rope remembers. -/
def digest? (store : Store) (rope : Rope) : Option UInt64 :=
  (store.cell rope.id).digest?

/-- Adds a node that remembers these octets, and names it. -/
def allocate (store : Store) (bytes? : Option Bytes) : NodeId × Store :=
  (store.cells.size, { store with cells := store.cells.push { bytes? } })

/-- Lets a node remember its content, unless it does. -/
def publish (store : Store) (id : NodeId) (bytes : Bytes) : Store :=
  { store with
    cells := store.cells.modify id fun cell =>
      { cell with bytes? := cell.bytes? <|> some bytes } }

/-- Lets a node remember its digest. -/
def memoize (store : Store) (id : NodeId) (digest : UInt64) : Store :=
  { store with cells := store.cells.modify id fun cell => { cell with digest? := some digest } }

/-- Adds an event. -/
def record (store : Store) (event : Event) : Store :=
  { store with events := store.events.push event }

end Store

namespace RopeM

/-- Ends the computation if the value is a fault. -/
def ofExcept {α : Type} : Except Fault α → RopeM α
  | .ok value => pure value
  | .error fault => throw fault

instance : MonadLift (Except Fault) RopeM := ⟨ofExcept⟩

/-- Adds an event to the store. -/
def emit (event : Event) : RopeM Unit :=
  modify fun store => store.record event

/-- Names a new node that remembers these octets. -/
def fresh (bytes? : Option Bytes) : RopeM NodeId :=
  modifyGet fun store => store.allocate bytes?

/-- Does a step again and again. -/
def iterate {α : Type} (step : α → RopeM α) : Nat → α → RopeM α
  | 0, value => return value
  | count + 1, value => do iterate step count (← step value)

/-- The plain form of an operation with a careful form: a refusal is a fault. -/
def insist {α : Type} (careful : RopeM (Except Refusal α)) : RopeM α := do
  match ← careful with
  | .ok value => return value
  | .error refusal => throw (.refused refusal)

end RopeM

end ByteRope
