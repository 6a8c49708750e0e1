import Lineage.Node

/-!
# Why an operation on a forest fails

Each constructor is one cause.  Two of them never arise where ids and blueprints come from the
library itself: `unending` stands for a walk that would go on for ever, which takes a node that is
its own ancestor, and `unknownBlock` for a blueprint whose blocks were not checked.
-/

namespace Lineage

inductive Error where
  /-- The forest has `size` nodes and none at `id`. -/
  | outOfRange (id : NodeId) (size : Nat)
  /-- A walk took more steps than the forest has nodes. -/
  | unending
  /-- The node at path `node` is a leaf and was asked for the child `child`. -/
  | childOfLeaf (node child : String)
  /-- Following bases came back to a node; `path` lists the nodes met, by path. -/
  | cycle (path : List String)
  /-- A block extends one that is not there. -/
  | unknownBlock (name : String)
deriving DecidableEq

namespace Error

def message : Error → String
  | outOfRange id size =>
    "index out of bounds: the len is " ++ toString size ++ " but the index is " ++ toString id
  | unending => "the walk does not end"
  | childOfLeaf node child =>
    "node '" ++ node ++ "' is a leaf kind and cannot hold child '" ++ child ++ "'"
  | cycle path => "cyclic base chain: " ++ " -> ".intercalate path
  | unknownBlock name => "there is no block '" ++ name ++ "'"

end Error

end Lineage
