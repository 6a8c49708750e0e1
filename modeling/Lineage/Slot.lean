import Lineage.Node

/-!
# Base slots

A slot remembers the base of one node.  It starts `unresolved`, and the first read or an explicit
setting makes it `resolved`.  While a read is under way the slot is marked `resolving`, so that a
read which comes back to the node can tell; to an observer the two open states are one.
-/

namespace Lineage

inductive Slot where
  | unresolved
  /-- A read of this base is under way. -/
  | resolving
  /-- The base, or that there is none. -/
  | resolved (base : Option NodeId)
deriving DecidableEq

namespace Slot

/-- What is known of the base: `none` as long as the slot is open. -/
def outcome : Slot → Option (Option NodeId)
  | resolved base => some base
  | unresolved | resolving => none

def isResolved (slot : Slot) : Bool := slot.outcome.isSome

end Slot

end Lineage
