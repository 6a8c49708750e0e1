import Lineage.Session

/-!
# Style forests

In a style forest, blocks hold classes, classes hold states, and states are leaves.  Each node
carries declarations in source order; a node shows those of its bases before its own.

Classes and states under a block that extends another find their bases by name, so only the bases
of blocks are ever declared.
-/

namespace Lineage

inductive Style.Kind where
  | block
  | styleClass
  | state
deriving DecidableEq

/-- The payload of a style node. -/
structure Style where
  kind : Style.Kind
  declarations : List String
deriving DecidableEq

namespace Style

/-- The kind of the children of a node of a given kind. -/
def Kind.child? : Kind → Option Kind
  | block => some styleClass
  | styleClass => some state
  | state => none

/-- A style node without declarations. -/
def bare (kind : Kind) : Style := ⟨kind, []⟩

instance : Family Style where
  childPayload? style _ := style.kind.child?.map bare

/-! ## Building -/

def addBlock (name : String) : Action Style NodeId :=
  Action.addRoot name (bare .block)

/-- The class of a name at a node and, if a state is given, the state of that name at the class;
each is created first if need be. -/
def obtainSelector (id : NodeId) (className : String) (state : Option String) :
    Action Style NodeId := do
  let classId ← Action.obtainChild id className
  match state with
  | none => return classId
  | some state => Action.obtainChild classId state

/-- Add a declaration after those of a node. -/
def declare (id : NodeId) (text : String) : Action Style Unit :=
  Action.modifyNode id fun node ↦
    { node with payload.declarations := node.payload.declarations ++ [text] }

/-! ## Reading -/

def kindOf (forest : Forest Style) (id : NodeId) : Except Error Kind := do
  return (← forest.node id).payload.kind

/-- The declarations visible at a node: those of its farthest base first, its own last. -/
def visibleDeclarations (forest : Forest Style) (id : NodeId) : Lookup (List String) := do
  let line := (← forest.inheritance id) ++ [id]
  let declarations ← line.mapM fun ancestor ↦ do
    return (← forest.node ancestor).payload.declarations
  return declarations.flatten

end Style

end Lineage
