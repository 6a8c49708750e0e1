import Lineage.Node

/-!
# Journal events

What is worth reporting while bases are read and forests are built.  Each event has a level, a
fixed message and a list of fields; nodes appear in them by path unless the field says otherwise.
As several nodes may share a path, an event on the base of one node knows its id too.
-/

namespace Lineage

inductive Level where
  | trace
  | debug
  | info
  | warn
deriving DecidableEq

inductive Event where
  /-- The first read of a base is done and its result is kept. -/
  | resolved (id : NodeId) (node : String) (base : Option String)
  /-- The read of a base came back to the same node. -/
  | reentered (id : NodeId) (node : String)
  /-- A walk would start at the node it sets out from. -/
  | startRefused (node : String)
  /-- A walk would come to a node a second time. -/
  | stepRefused (origin target : String)
  /-- A known base is replaced.  The node is given by name, the previous base by id. -/
  | overwritten (node : String) (previous : Option NodeId) (base : String)
  /-- A block is about to be given the base that its declaration names. -/
  | wiring (block target : String)
  /-- A style forest is complete. -/
  | built (blocks nodes : Nat)
deriving DecidableEq

namespace Event

def level : Event → Level
  | resolved .. => .trace
  | overwritten .. | wiring .. => .debug
  | built .. => .info
  | reentered .. | startRefused .. | stepRefused .. => .warn

def message : Event → String
  | resolved .. => "resolved base"
  | reentered .. => "base resolution re-entered itself, treating as absent"
  | startRefused .. | stepRefused .. => "cyclic base chain, stopping walk"
  | overwritten .. => "overwriting cached base"
  | wiring .. => "wiring extends"
  | built .. => "built style tree"

/-- An optional path, in quotes when there is one. -/
def pathText : Option String → String
  | none => "None"
  | some path => "Some(\"" ++ path ++ "\")"

/-- A known base by its id. -/
def baseText : Option NodeId → String
  | none => "Absent"
  | some id => "Present(NodeId(" ++ toString id ++ "))"

/-- The fields with their texts, in the order in which they are shown. -/
def fields : Event → List (String × String)
  | resolved _ node base => [("node", node), ("base", pathText base)]
  | reentered _ node => [("node", node)]
  | startRefused node => [("node", node)]
  | stepRefused origin target => [("from", origin), ("to", target)]
  | overwritten node previous base =>
    [("node", node), ("previous", baseText previous), ("base", base)]
  | wiring block target => [("block", block), ("extends", target)]
  | built blocks nodes => [("blocks", toString blocks), ("nodes", toString nodes)]

end Event

end Lineage
