import Lineage.Inheritance

/-!
# Sessions

A session holds a forest with the memo of its reads, and an `Action` works on it.  Edits change the
forest; the only slot that an edit changes is that of the node whose base it sets.  What an action
did before it fails stays done.
-/

namespace Lineage

structure Session (ε : Type) where
  forest : Forest ε
  memo : Memo

namespace Session

/-- An empty forest, with an empty journal if one is to be kept. -/
def empty (ε : Type) (recording : Bool) : Session ε := ⟨.empty, .empty recording⟩

end Session

abbrev Action (ε : Type) := ExceptT Error (StateM (Session ε))

namespace Action

variable {ε α : Type}

/-- Read the forest of the session. -/
def look (read : Forest ε → Lookup α) : Action ε α :=
  ExceptT.mk fun session ↦
    let (result, memo) := (read session.forest).run session.memo
    (result, { session with memo })

/-- Change one node, which has to exist. -/
def modifyNode (id : NodeId) (change : Node ε → Node ε) : Action ε Unit := do
  let forest := (← get).forest
  let _ ← forest.node id
  modify fun session ↦ { session with forest := forest.modify id change }

/-! ## Nodes -/

/-- Add a node and return its id.  A parent does not thereby register it as its child. -/
def insert (name : String) (payload : ε) (parent root : Option NodeId) : Action ε NodeId := do
  let forest := (← get).forest
  modify fun session ↦
    { forest := forest.add name payload parent root, memo := session.memo.grow }
  return forest.size

def addRoot (name : String) (payload : ε) : Action ε NodeId :=
  insert name payload none none

/-- Register a child under a name, in place of the one registered before. -/
def register (id : NodeId) (name : String) (child : NodeId) : Action ε NodeId := do
  modifyNode id fun node ↦ { node with children := node.children.insert name child }
  return child

def replacePayload (id : NodeId) (payload : ε) : Action ε Unit :=
  modifyNode id fun node ↦ { node with payload }

/-- The child of a name, created first if there is none.  Fails at a leaf. -/
def obtainChild [Family ε] (id : NodeId) (name : String) : Action ε NodeId := do
  let forest := (← get).forest
  let node ← forest.node id
  match node.children.find? name with
  | some child => return child
  | none =>
    match Family.childPayload? node.payload name with
    | none => throw (.childOfLeaf (← forest.path id) name)
    | some payload =>
      let child ← insert name payload (some id) (some node.root)
      register id name child

/-! ## Bases -/

/-- Resolve the slot of a node of a given name.  A base that was known before is reported. -/
def overwriteSlot (id : NodeId) (name baseName : String) (base : Option NodeId) : Lookup Unit := do
  if let some previous := (← Lookup.slot id).outcome then
    Lookup.report (return .overwritten name previous baseName)
  Lookup.fill id (.resolved base)

/-- Set the base of a node, or that it has none, whatever its slot held before. -/
def declareBase (id : NodeId) (baseName : String) (base : Option NodeId) : Action ε Unit := do
  let node ← (← get).forest.node id
  look fun _ ↦ overwriteSlot id node.name baseName base
  modifyNode id fun node ↦ { node with baseName := some baseName }

/-- Make `base` the base of a node, called by its path. -/
def extend (id base : NodeId) : Action ε Unit := do
  let basePath ← (← get).forest.path base
  declareBase id basePath (some base)

end Action

end Lineage
