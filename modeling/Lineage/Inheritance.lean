import Lineage.Base

/-!
# Inheritance

What a node inherits, by walking along its bases: the chain itself, the children visible at the
node, and whether one node is among the bases of another.

A chain is nearest first as walked and farthest first as a line of inheritance.  `chain` cuts a
cycle where it closes; `strictInheritance` refuses it.
-/

namespace Lineage

namespace Forest

variable {ε : Type}

/-! ## Chains -/

/-- The walk along the bases of a node. -/
def baseWalk (forest : Forest ε) (id : NodeId) : Lookup Walk := do
  Walk.start forest id (← forest.base id)

/-- The bases of a node, nearest first. -/
def chain (forest : Forest ε) (id : NodeId) : Lookup (List NodeId) := do
  (← forest.baseWalk id).toList forest forest.base forest.walkLimit

/-- The first `count` answers of the walk along the bases of a node, which goes no farther. -/
def chainPrefix (forest : Forest ε) (id : NodeId) (count : Nat) :
    Lookup (List (Option NodeId)) := do
  (← forest.baseWalk id).take forest forest.base count

/-- Whether `ancestor` is among the bases of a node. -/
def inheritsFrom (forest : Forest ε) (id ancestor : NodeId) : Lookup Bool := do
  let found ← (← forest.baseWalk id).findSome? forest forest.base
    (fun base ↦ return if base = ancestor then some base else none) forest.walkLimit
  return found.isSome

/-- The bases of a node, farthest first. -/
def inheritance (forest : Forest ε) (id : NodeId) : Lookup (List NodeId) := do
  return (← forest.chain id).reverse

/-- Follow bases from `node`, the last of the nodes met, which are given latest first. -/
def strictInheritanceWithin (forest : Forest ε) :
    (limit : Nat) → (node : NodeId) → (met : List NodeId) → Lookup (List NodeId)
  | 0, _, _ => throw .unending
  | limit + 1, node, met => do
    match ← forest.base node with
    | none => return met.dropLast
    | some base =>
      if base ∈ met then
        throw (.cycle (← (base :: met).reverse.mapM (forest.path ·)))
      else
        forest.strictInheritanceWithin limit base (base :: met)

/-- The bases of a node, farthest first, unless they lead back to a node already met. -/
def strictInheritance (forest : Forest ε) (id : NodeId) : Lookup (List NodeId) :=
  forest.strictInheritanceWithin forest.walkLimit id [id]

/-! ## Children -/

/-- The child of a name at a node, or else at the nearest base that has one. -/
def visibleChild (forest : Forest ε) (id : NodeId) (name : String) :
    Lookup (Option NodeId) := do
  match ← forest.child? id name with
  | some child => return some child
  | none =>
    (← forest.baseWalk id).findSome? forest forest.base
      (fun base ↦ forest.child? base name) forest.walkLimit

/-- The children visible at a node: its own and those of its bases, the nearer winning. -/
def visibleChildren (forest : Forest ε) (id : NodeId) : Lookup (NameMap NodeId) := do
  let line := (← forest.inheritance id) ++ [id]
  line.foldlM (fun merged ancestor ↦ do
    return merged.overwrite (← forest.node ancestor).children) .empty

end Forest

end Lineage
