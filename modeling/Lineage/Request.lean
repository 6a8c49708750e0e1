import Lineage.Style

/-!
# Requests

A request is one step of a session, given as data, and a reply is its answer.  There are three
sorts.  A `View` shows what a session holds and resolves nothing.  A `Query` asks what a node
inherits and may fill slots.  An `Edit` changes the forest.

Style sessions have requests of their own beside the general ones.
-/

namespace Lineage

inductive View where
  | node (id : NodeId)
  | node? (id : NodeId)
  | everyNode
  | name (id : NodeId)
  | path (id : NodeId)
  | parent (id : NodeId)
  | root (id : NodeId)
  | baseName (id : NodeId)
  | slot (id : NodeId)
  | payload (id : NodeId)
  | size
  | isEmpty
  | ids
  | roots
  | find (path : String)
  | child? (id : NodeId) (name : String)
  | children (id : NodeId)
  | childMap (id : NodeId)

inductive Query where
  | base (id : NodeId)
  | chain (id : NodeId)
  | chainPrefix (id : NodeId) (count : Nat)
  | inheritsFrom (id ancestor : NodeId)
  | inheritance (id : NodeId)
  | strictInheritance (id : NodeId)
  | visibleChild (id : NodeId) (name : String)
  | visibleChildren (id : NodeId)

inductive Edit (ε : Type) where
  | addRoot (name : String) (payload : ε)
  | insert (name : String) (payload : ε) (parent root : Option NodeId)
  | obtainChild (id : NodeId) (name : String)
  | register (id : NodeId) (name : String) (child : NodeId)
  | declareBase (id : NodeId) (baseName : String) (base : Option NodeId)
  | extend (id base : NodeId)
  | replacePayload (id : NodeId) (payload : ε)

inductive Request (ε : Type) where
  | view (view : View)
  | query (query : Query)
  | edit (edit : Edit ε)

/-- A node with its slot. -/
structure NodeRecord (ε : Type) where
  node : Node ε
  slot : Slot

inductive Reply (ε : Type) where
  | done
  | id (id : NodeId)
  | id? (id : Option NodeId)
  | ids (ids : List NodeId)
  | steps (ids : List (Option NodeId))
  | flag (flag : Bool)
  | count (count : Nat)
  | text (text : String)
  | text? (text : Option String)
  | children (children : NameMap NodeId)
  | slot (slot : Slot)
  | payload (payload : ε)
  | record (record : NodeRecord ε)
  | record? (record : Option (NodeRecord ε))
  | records (records : List (NodeRecord ε))

variable {ε : Type}

/-! ## Answers -/

def View.answer (forest : Forest ε) : View → Lookup (Reply ε)
  | node id => do return .record ⟨← forest.node id, ← Lookup.slot id⟩
  | node? id => do
    match forest.node? id with
    | none => return .record? none
    | some found => return .record? (some ⟨found, ← Lookup.slot id⟩)
  | everyNode => do
    let memo ← get
    return .records (forest.nodes.toList.mapIdx fun id found ↦ ⟨found, memo.slot id⟩)
  | name id => do return .text (← forest.node id).name
  | path id => do return .text (← forest.path id)
  | parent id => do return .id? (← forest.node id).parent
  | root id => do return .id (← forest.node id).root
  | baseName id => do return .text? (← forest.node id).baseName
  | slot id => do
    let _ ← forest.node id
    return .slot (← Lookup.slot id)
  | payload id => do return .payload (← forest.node id).payload
  | size => return .count forest.size
  | isEmpty => return .flag forest.nodes.isEmpty
  | ids => return .ids forest.ids
  | roots => return .ids forest.roots.values
  | find target => do return .id? (← forest.find target)
  | child? id key => do return .id? (← forest.child? id key)
  | children id => do return .ids (← forest.node id).children.values
  | childMap id => do return .children (← forest.node id).children

def Query.answer (forest : Forest ε) : Query → Lookup (Reply ε)
  | base id => do return .id? (← forest.base id)
  | chain id => do return .ids (← forest.chain id)
  | chainPrefix id count => do return .steps (← forest.chainPrefix id count)
  | inheritsFrom id ancestor => do return .flag (← forest.inheritsFrom id ancestor)
  | inheritance id => do return .ids (← forest.inheritance id)
  | strictInheritance id => do return .ids (← forest.strictInheritance id)
  | visibleChild id name => do return .id? (← forest.visibleChild id name)
  | visibleChildren id => do return .children (← forest.visibleChildren id)

def Edit.perform [Family ε] : Edit ε → Action ε (Reply ε)
  | addRoot name payload => do return .id (← Action.addRoot name payload)
  | insert name payload parent root => do
    return .id (← Action.insert name payload parent root)
  | obtainChild id name => do return .id (← Action.obtainChild id name)
  | register id name child => do return .id (← Action.register id name child)
  | declareBase id baseName base => do
    Action.declareBase id baseName base
    return .done
  | extend id base => do
    Action.extend id base
    return .done
  | replacePayload id payload => do
    Action.replacePayload id payload
    return .done

def Request.answer [Family ε] : Request ε → Action ε (Reply ε)
  | view shown => Action.look fun forest ↦ shown.answer forest
  | query asked => Action.look fun forest ↦ asked.answer forest
  | edit change => change.perform

/-! ## Style sessions -/

namespace Style

inductive Request where
  | general (request : Lineage.Request Style)
  | addBlock (name : String)
  | obtainSelector (id : NodeId) (className : String) (state : Option String)
  | kind (id : NodeId)
  | visibleDeclarations (id : NodeId)
  | declare (id : NodeId) (text : String)

inductive Reply where
  | general (reply : Lineage.Reply Style)
  | kind (kind : Kind)
  | declarations (declarations : List String)

def Request.answer : Request → Action Style Reply
  | general request => do return .general (← request.answer)
  | addBlock name => do return .general (.id (← Style.addBlock name))
  | obtainSelector id className state => do
    return .general (.id (← Style.obtainSelector id className state))
  | kind id => Action.look fun forest ↦ do return .kind (← kindOf forest id)
  | visibleDeclarations id => Action.look fun forest ↦ do
    return .declarations (← Style.visibleDeclarations forest id)
  | declare id text => do
    Style.declare id text
    return .general .done

end Style

/-! ## Steps -/

namespace Session

/-- Take the step that `action` stands for: its result and the session it leaves, in which the
journal, if one is kept, holds the events of this step alone. -/
def step {α : Type} (session : Session ε) (action : Action ε α) :
    Except Error α × Session ε :=
  action.run { session with memo := session.memo.restart }

end Session

end Lineage
