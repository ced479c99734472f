import ByteRope.Rope.Equality

/-!
# Sets of ropes

A set of ropes holds no two that are equal. It knows every rope by its digest, and compares octets
only where digests agree; so a rope that is put into a set remembers its content from then on.
-/

namespace ByteRope

/-- A rope and its digest. -/
structure RopeSet.Entry where
  digest : UInt64
  rope : Rope

/-- Ropes of which no two are equal, in the order in which they came. -/
structure RopeSet where
  entries : List RopeSet.Entry

namespace RopeSet

/-- No ropes. -/
def empty : RopeSet := ⟨[]⟩

/-- The number of ropes. -/
def size (ropes : RopeSet) : Nat := ropes.entries.length

/-- The rope of an entry equals this one, whose digest is given. -/
def Entry.equal (entry : Entry) (digest : UInt64) (rope : Rope) : RopeM Bool :=
  if entry.digest = digest then entry.rope.equal rope else return false

/-- Adds a rope, unless one that equals it is there. -/
def insert (ropes : RopeSet) (rope : Rope) : RopeM RopeSet := do
  let digest ← rope.digest
  if ← ropes.entries.anyM fun entry => entry.equal digest rope then return ropes
  else return ⟨ropes.entries ++ [⟨digest, rope⟩]⟩

end RopeSet

end ByteRope
