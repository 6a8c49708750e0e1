import Lineage.NameMap

/-!
# Nodes

A node has a name, an optional parent, a root, a map of named children and a payload.  Nodes refer
to one another by position, so a reference is only meaningful in the forest that made it.

A `Family` says which payload a new child gets; a payload that gets none belongs to a leaf.
-/

namespace Lineage

/-- The position of a node in its forest, in order of creation. -/
abbrev NodeId := Nat

/-- A kind of payload, with the rule for the payload of a new child. -/
class Family (ε : Type) where
  /-- The payload of a new child of the given name, or `none` below a leaf. -/
  childPayload? : ε → String → Option ε

/-- Nodes without payload may all have children. -/
instance : Family Unit where
  childPayload? _ _ := some ()

structure Node (ε : Type) where
  name : String
  parent : Option NodeId
  root : NodeId
  /-- The direct children by the names they are registered under. -/
  children : NameMap NodeId
  /-- What the base was called when it was set explicitly. -/
  baseName : Option String
  payload : ε

end Lineage
