import Lineage.Lookup

/-!
# Walks along bases

A walk sets out from an origin and goes from a node to its base, and on to the base of that.  It
remembers the nodes it has seen, the origin among them, and ends where it would come to one of them
again, so it meets no node twice.

A walk is lazy: `next` reads one base at most, and the base of the node met last stays unread until
the walk is asked to go on.  How a base is read is an argument, `readBase`, because reading one base
may itself take a walk.
-/

namespace Lineage

/-- Where a walk stands. -/
inductive Walk.Position where
  /-- The first node is known and still to be met. -/
  | before (first : NodeId)
  | standing (node : NodeId)
  | ended

structure Walk where
  position : Walk.Position
  /-- The origin and every node met or about to be met. -/
  seen : List NodeId

namespace Walk

variable {ε β : Type}

/-- Set out from `origin`, whose base is `first`. -/
def start (forest : Forest ε) (origin : NodeId) : (first : Option NodeId) → Lookup Walk
  | none => return ⟨.ended, [origin]⟩
  | some first => do
    if first = origin then
      Lookup.report do return .startRefused (← forest.path first)
      return ⟨.ended, [origin]⟩
    else
      return ⟨.before first, [first, origin]⟩

/-- The next node of the walk, and the walk from there on.  After its end a walk stays ended. -/
def next (forest : Forest ε) (readBase : NodeId → Lookup (Option NodeId)) (walk : Walk) :
    Lookup (Option NodeId × Walk) :=
  match walk.position with
  | .before first => return (some first, ⟨.standing first, walk.seen⟩)
  | .ended => return (none, walk)
  | .standing node => do
    match ← readBase node with
    | none => return (none, ⟨.ended, walk.seen⟩)
    | some base =>
      if base ∈ walk.seen then
        Lookup.report do return .stepRefused (← forest.path node) (← forest.path base)
        return (none, ⟨.ended, walk.seen⟩)
      else
        return (some base, ⟨.standing base, base :: walk.seen⟩)

/-- The first result of `test` along the walk, which stops there.  Takes `limit` steps at most. -/
def findSome? (forest : Forest ε) (readBase : NodeId → Lookup (Option NodeId))
    (test : NodeId → Lookup (Option β)) : (limit : Nat) → Walk → Lookup (Option β)
  | 0, _ => throw .unending
  | limit + 1, walk => do
    match ← walk.next forest readBase with
    | (none, _) => return none
    | (some node, walk) =>
      match ← test node with
      | some found => return some found
      | none => findSome? forest readBase test limit walk

/-- All nodes of the walk, in order.  Takes `limit` steps at most. -/
def toList (forest : Forest ε) (readBase : NodeId → Lookup (Option NodeId)) :
    (limit : Nat) → Walk → Lookup (List NodeId)
  | 0, _ => throw .unending
  | limit + 1, walk => do
    match ← walk.next forest readBase with
    | (none, _) => return []
    | (some node, walk) => return node :: (← toList forest readBase limit walk)

/-- The results of asking `count` times for the next node. -/
def take (forest : Forest ε) (readBase : NodeId → Lookup (Option NodeId)) :
    (count : Nat) → Walk → Lookup (List (Option NodeId))
  | 0, _ => return []
  | count + 1, walk => do
    let (node, walk) ← walk.next forest readBase
    return node :: (← take forest readBase count walk)

end Walk

end Lineage
