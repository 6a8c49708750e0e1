import Lineage.Walk

/-!
# Bases

The base of a node is what its slot says, once the slot is resolved.  An open slot is resolved by
the first read: a node without parent has no base, and the base of any other node is the first
child of its own name, other than itself, along the walk from its parent.

Reading that walk reads further bases, and may come back to a node whose read is under way.  Such a
node is taken to have no base for the moment, and its slot is left alone.  Each nested read marks a
slot that was unresolved, so reads are nested no deeper than the forest has nodes, plus one.
-/

namespace Lineage

namespace Forest

variable {ε : Type}

/-- The number of steps after which every walk through a forest has ended. -/
def walkLimit (forest : Forest ε) : Nat := forest.size + 2

/-- The child of a node that the node `id` of that name can have as its base. -/
def namesake? (forest : Forest ε) (id : NodeId) (name : String) (candidate : NodeId) :
    Except Error (Option NodeId) := do
  return (← forest.child? candidate name).filter (· ≠ id)

/-- Find out the base of a node whose slot is open.  How the bases that this takes are read is an
argument. -/
def findBase (forest : Forest ε) (readBase : NodeId → Lookup (Option NodeId)) (id : NodeId)
    (node : Node ε) : Lookup (Option NodeId) := do
  match node.parent with
  | none =>
    Lookup.fill id (.resolved none)
    return none
  | some parent =>
    Lookup.fill id .resolving
    let walk ← Walk.start forest parent (← readBase parent)
    let base ← walk.findSome? forest readBase
      (fun candidate ↦ forest.namesake? id node.name candidate) forest.walkLimit
    Lookup.fill id (.resolved base)
    Lookup.report do
      let nodePath ← forest.path id
      return .resolved id nodePath (← base.mapM (forest.path ·))
    return base

/-- Read the base of a node, with reads nested at most `depth` deep. -/
def baseWithin (forest : Forest ε) : (depth : Nat) → NodeId → Lookup (Option NodeId)
  | 0, _ => throw .unending
  | depth + 1, id => do
    let node ← forest.node id
    match ← Lookup.slot id with
    | .resolved base => return base
    | .resolving =>
      Lookup.report do return .reentered id (← forest.path id)
      return none
    | .unresolved => forest.findBase (forest.baseWithin depth) id node

/-- The base of a node, found out and remembered by the first read. -/
def base (forest : Forest ε) (id : NodeId) : Lookup (Option NodeId) :=
  forest.baseWithin (forest.size + 1) id

end Forest

end Lineage
