import Lineage.Error

/-!
# Forests

A forest is an array of nodes, with an index of the root-level nodes by name.  Nodes are only ever
added, so an id stays valid.

Reading at an id that the forest does not hold fails with `Error.outOfRange`.  The main views are
`line`, the names from a node up to its root; `path`, the same names from the root down, joined by
dots; and `descend`, which follows child names from a node.
-/

namespace Lineage

structure Forest (ε : Type) where
  nodes : Array (Node ε)
  /-- The nodes without parent by name; of several with one name, the last. -/
  roots : NameMap NodeId

namespace Forest

variable {ε : Type}

def empty : Forest ε := ⟨#[], .empty⟩

/-! ## Nodes -/

def size (forest : Forest ε) : Nat := forest.nodes.size

def ids (forest : Forest ε) : List NodeId := List.range forest.size

def node? (forest : Forest ε) (id : NodeId) : Option (Node ε) := forest.nodes[id]?

def node (forest : Forest ε) (id : NodeId) : Except Error (Node ε) :=
  match forest.node? id with
  | some node => .ok node
  | none => .error (.outOfRange id forest.size)

/-- The child registered under a name at a node. -/
def child? (forest : Forest ε) (id : NodeId) (name : String) : Except Error (Option NodeId) := do
  return (← forest.node id).children.find? name

/-! ## Paths -/

/-- The names from a node up to its root, if the root is fewer than `limit` parents away. -/
def lineWithin (forest : Forest ε) : (limit : Nat) → NodeId → Except Error (List String)
  | 0, _ => throw .unending
  | limit + 1, id => do
    let node ← forest.node id
    match node.parent with
    | none => return [node.name]
    | some parent => return node.name :: (← forest.lineWithin limit parent)

/-- The names from a node up to its root. -/
def line (forest : Forest ε) (id : NodeId) : Except Error (List String) :=
  forest.lineWithin (forest.size + 1) id

/-- The names from the root down to a node, joined by dots. -/
def path (forest : Forest ε) (id : NodeId) : Except Error String := do
  return ".".intercalate (← forest.line id).reverse

/-- Follow child names from a node. -/
def descend (forest : Forest ε) : NodeId → List String → Except Error (Option NodeId)
  | id, [] => return some id
  | id, name :: names => do
    match ← forest.child? id name with
    | none => return none
    | some child => forest.descend child names

/-- The names between the dots of a path.  A path without dots is one name. -/
def segments (path : String) : List String :=
  (path.toList.splitOn '.').map String.ofList

/-- The node that a dotted path leads to, from the root-level node its first name stands for. -/
def find (forest : Forest ε) (path : String) : Except Error (Option NodeId) :=
  match segments path with
  | [] => return none
  | root :: names =>
    match forest.roots.find? root with
    | none => return none
    | some id => forest.descend id names

/-! ## Growth -/

/-- Add a node.  Without a parent it becomes the root-level node of its name; without a root it is
its own root. -/
def add (forest : Forest ε) (name : String) (payload : ε) (parent root : Option NodeId) :
    Forest ε where
  nodes := forest.nodes.push
    { name, parent, root := root.getD forest.size, children := .empty, baseName := none, payload }
  roots := if parent.isNone then forest.roots.insert name forest.size else forest.roots

/-- Change the node at an id, if the forest holds it. -/
def modify (forest : Forest ε) (id : NodeId) (change : Node ε → Node ε) : Forest ε :=
  { forest with nodes := forest.nodes.modify id change }

@[simp]
theorem size_add (forest : Forest ε) (name : String) (payload : ε) (parent root : Option NodeId) :
    (forest.add name payload parent root).size = forest.size + 1 := by
  simp [size, add]

/-- Adding a node leaves those before it as they were. -/
theorem node?_add_of_lt {forest : Forest ε} {id : NodeId} (h : id < forest.size) (name : String)
    (payload : ε) (parent root : Option NodeId) :
    (forest.add name payload parent root).node? id = forest.node? id := by
  unfold node? add
  rw [Array.getElem?_push]
  exact if_neg (Nat.ne_of_lt h)

@[simp]
theorem size_modify (forest : Forest ε) (id : NodeId) (change : Node ε → Node ε) :
    (forest.modify id change).size = forest.size := by
  simp [size, modify]

theorem node?_modify (forest : Forest ε) (id other : NodeId) (change : Node ε → Node ε) :
    (forest.modify id change).node? other =
      if other = id then (forest.node? other).map change else forest.node? other := by
  unfold node? modify
  rw [Array.getElem?_modify]
  simp only [eq_comm]

end Forest

end Lineage
