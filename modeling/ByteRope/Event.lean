import ByteRope.CodeRange
import ByteRope.Config

/-!
# Events

What the operations report of their work, in order: the record of a store. Reading an event as a
list of named fields gives its written form.
-/

namespace ByteRope

/-- One report. -/
inductive Event where
  /-- A rope was copied together out of `pieces` stretches. -/
  | ropeFlattened (byteLen depth pieces : Nat)
  /-- A range that was not good was replaced by what a scan found. -/
  | rangeResolved (before after : CodeRange) (charLen : Nat)
  /-- A rebalancing begins. -/
  | rebalanceBegun (beforeDepth : Nat)
  /-- The rebalancing works on this many pieces. -/
  | rebalancePieces (count : Nat)
  /-- The rebalancing ends with this depth. -/
  | rebalanceDepth (afterDepth : Nat)
  /-- A tree of this depth would have been no gain. -/
  | treeKept (depth : Nat)
  /-- The rebalancing built a new tree. -/
  | ropeRebalanced (byteLen : Nat)
  /-- A builder merged a small piece into the one before it. -/
  | smallMerged (byteLen limit : Nat)
  /-- A builder joined two trees of its forest. -/
  | forestMerged (depth : Nat)
  /-- A builder copied a tree of this depth into a leaf. -/
  | pieceFlattened (byteLen depth : Nat)
  /-- A builder took a rebalanced piece for the piece it was given. -/
  | pieceRebalanced (beforeDepth afterDepth : Nat)
  /-- A builder finished its rope. -/
  | ropeBuilt (byteLen depth trees : Nat)
  /-- The value of a setting was not accepted. -/
  | settingIgnored (diagnostic : Diagnostic)
  deriving DecidableEq, Repr

namespace Event

/-- How much an event matters. A `record` adds a field to a span already begun. -/
inductive Level where
  | trace
  | debug
  | warn
  | record
  deriving DecidableEq, Repr

/-- The name of a level. -/
def Level.name : Level → String
  | trace => "TRACE"
  | debug => "DEBUG"
  | warn => "WARN"
  | record => "RECORD"

/-- The level and the message of an event that has them. -/
def said (level : Level) (message : String) : List (String × String) :=
  [("level", level.name), ("message", message)]

/-- The named fields of an event. -/
def fields : Event → List (String × String)
  | ropeFlattened byteLen depth pieces =>
    [("byte_len", toString byteLen), ("depth", toString depth), ("pieces", toString pieces)]
      ++ said .trace "rope flattened"
  | rangeResolved before after charLen =>
    [("from", before.label), ("to", after.label), ("char_len", toString charLen)]
      ++ said .trace "code range resolved"
  | rebalanceBegun beforeDepth =>
    [("before_depth", toString beforeDepth), ("span", "rope_rebalance")]
  | rebalancePieces count =>
    [("pieces", toString count), ("level", Level.record.name)]
  | rebalanceDepth afterDepth =>
    [("after_depth", toString afterDepth), ("level", Level.record.name)]
  | treeKept depth =>
    ("depth", toString depth) :: said .debug "rebalance kept the original tree"
  | ropeRebalanced byteLen =>
    ("byte_len", toString byteLen) :: said .debug "rope rebalanced"
  | smallMerged byteLen limit =>
    [("byte_len", toString byteLen), ("limit", toString limit)] ++ said .trace "merged_small"
  | forestMerged depth =>
    ("depth", toString depth) :: said .trace "forest merged"
  | pieceFlattened byteLen depth =>
    [("byte_len", toString byteLen), ("depth", toString depth)] ++ said .trace "flattened"
  | pieceRebalanced beforeDepth afterDepth =>
    [("before_depth", toString beforeDepth), ("after_depth", toString afterDepth)]
      ++ said .trace "rebalanced"
  | ropeBuilt byteLen depth trees =>
    [("byte_len", toString byteLen), ("depth", toString depth), ("trees", toString trees)]
      ++ said .trace "rope built"
  | settingIgnored diagnostic =>
    [("field", diagnostic.setting.name), ("value", diagnostic.value)]
      ++ said .warn s!"ignoring rope config value: {diagnostic.complaint.message}"

end Event

end ByteRope
