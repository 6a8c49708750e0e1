import Lineage.Proofs.Growth

/-!
# Clients

A client works on one session, call by call.  A call is a request, or opens a walk along bases, or
asks a walk that is open for its next node; so reads of several walks may take turns.  An edit ends
all walks, as they would have to follow a forest that changes under them.

`Call.idsNamed` are the ids that a call names, and `Outcome.idsGiven` those that an answer gives
away, be it by showing a node that refers to them.  `Reaches` describes the clients that only ever
name ids they were given.  Other runs are lists of calls (`Client.after`).
-/

namespace Lineage

/-- What a client asks for.  Some requests are those of a style session. -/
inductive Call : Type → Type 1 where
  | request {ε : Type} (request : Request ε) : Call ε
  | style (request : Style.Request) : Call Style
  /-- Open a walk along the bases of a node. -/
  | openWalk {ε : Type} (origin : NodeId) : Call ε
  /-- Ask the walk at a place in the list of those that are open for its next node. -/
  | advance {ε : Type} (index : Nat) : Call ε

inductive Outcome (ε : Type) where
  | reply (reply : Reply ε)
  | style (reply : Style.Reply)
  | opened
  | item (item : Option NodeId)

/-- A session with the walks that are open, in the order of their opening. -/
structure Client (ε : Type) where
  session : Session ε
  walks : List Walk

variable {ε : Type}

/-! ## Edits and reads -/

def Request.isEdit : Request ε → Bool
  | .edit _ => true
  | .view _ | .query _ => false

def Style.Request.isEdit : Style.Request → Bool
  | .general request => request.isEdit
  | .addBlock _ | .obtainSelector .. | .declare .. => true
  | .kind _ | .visibleDeclarations _ => false

namespace Call

def isEdit : Call ε → Bool
  | .request asked => asked.isEdit
  | .style asked => asked.isEdit
  | .openWalk _ | .advance _ => false

/-- The walk at a place in a list of walks.  Where none was opened, it has ended. -/
def walkAt (walks : List Walk) (index : Nat) : Walk := walks[index]?.getD ⟨.ended, []⟩

/-- The outcome of a call, and the walks that are open after it. -/
def perform (walks : List Walk) :
    {ε : Type} → [Family ε] → Call ε → Action ε (Outcome ε × List Walk)
  | _, _, .request asked => do
    return (.reply (← asked.answer), if asked.isEdit then [] else walks)
  | _, _, .style asked => do
    return (.style (← asked.answer), if asked.isEdit then [] else walks)
  | _, _, .openWalk origin => do
    return (.opened, walks ++ [← Action.look (·.baseWalk origin)])
  | _, _, .advance index => do
    let (node, walk) ← Action.look fun forest ↦ (walkAt walks index).next forest forest.base
    return (.item node, walks.set index walk)

/-- The walks that are open after a call that failed.  A walk that cannot be advanced has ended. -/
def walksLeft (walks : List Walk) (call : Call ε) : List Walk :=
  match call with
  | .advance index => walks.set index ⟨.ended, (walkAt walks index).seen⟩
  | _ => if call.isEdit then [] else walks

end Call

/-! ## Steps -/

namespace Client

/-- A client of an empty forest. -/
def start (ε : Type) (recording : Bool) : Client ε := ⟨.empty ε recording, []⟩

variable [Family ε]

def step (client : Client ε) (call : Call ε) : Except Error (Outcome ε) × Client ε :=
  match client.session.step (call.perform client.walks) with
  | (.ok (outcome, walks), session) => (.ok outcome, ⟨session, walks⟩)
  | (.error error, session) => (.error error, ⟨session, call.walksLeft client.walks⟩)

/-- The client after calls, one after the other. -/
def after (client : Client ε) (calls : List (Call ε)) : Client ε :=
  calls.foldl (fun client call ↦ (client.step call).2) client

theorem step_fst (client : Client ε) (call : Call ε) : (client.step call).1 =
    (client.session.step (call.perform client.walks)).1.map (·.1) := by
  unfold step
  rcases client.session.step (call.perform client.walks) with ⟨_ | _, _⟩ <;> rfl

theorem step_session (client : Client ε) (call : Call ε) : (client.step call).2.session =
    (client.session.step (call.perform client.walks)).2 := by
  unfold step
  rcases client.session.step (call.perform client.walks) with ⟨_ | _, _⟩ <;> rfl

/-- What each of the calls keeps, all of them keep. -/
theorem after_induction (kept : Client ε → Prop) {calls : List (Call ε)}
    (hstep : ∀ call ∈ calls, ∀ client : Client ε, kept client → kept (client.step call).2)
    {client : Client ε} (h : kept client) : kept (client.after calls) := by
  induction calls generalizing client with
  | nil => exact h
  | cons call calls ih =>
    obtain ⟨hcall, hcalls⟩ := List.forall_mem_cons.mp hstep
    exact ih hcalls (hcall client h)

end Client

/-! ## Ids that are named -/

def View.idsNamed : View → List NodeId
  | node id | node? id | name id | path id | parent id | root id | baseName id | slot id
  | payload id | child? id _ | children id | childMap id => [id]
  | everyNode | size | isEmpty | ids | roots | find _ => []

def Query.idsNamed : Query → List NodeId
  | base id | chain id | chainPrefix id _ | inheritance id | strictInheritance id
  | visibleChild id _ | visibleChildren id => [id]
  | inheritsFrom id ancestor => [id, ancestor]

def Edit.idsNamed : Edit ε → List NodeId
  | addRoot _ _ => []
  | insert _ _ parent root => parent.toList ++ root.toList
  | obtainChild id _ | replacePayload id _ => [id]
  | register id _ child => [id, child]
  | declareBase id _ base => id :: base.toList
  | extend id base => [id, base]

def Request.idsNamed : Request ε → List NodeId
  | view shown => shown.idsNamed
  | query asked => asked.idsNamed
  | edit change => change.idsNamed

def Style.Request.idsNamed : Style.Request → List NodeId
  | general request => request.idsNamed
  | addBlock _ => []
  | obtainSelector id _ _ | kind id | visibleDeclarations id | declare id _ => [id]

def Call.idsNamed : Call ε → List NodeId
  | .request asked => asked.idsNamed
  | .style asked => asked.idsNamed
  | .openWalk origin => [origin]
  | .advance _ => []

/-! ## Ids that are given away -/

def Slot.idsGiven (slot : Slot) : List NodeId := slot.outcome.join.toList

/-- The ids that a node refers to. -/
def Node.idsGiven (node : Node ε) : List NodeId :=
  node.parent.toList ++ node.root :: node.children.values

def NodeRecord.idsGiven (record : NodeRecord ε) : List NodeId :=
  record.node.idsGiven ++ record.slot.idsGiven

def Reply.idsGiven : Reply ε → List NodeId
  | .id found => [found]
  | .id? found => found.toList
  | .ids found => found
  | .steps found => found.flatMap Option.toList
  | .children found => found.values
  | .slot found => found.idsGiven
  | .record found => found.idsGiven
  | .record? found => found.toList.flatMap NodeRecord.idsGiven
  | .records found => found.flatMap NodeRecord.idsGiven
  | .done | .flag _ | .count _ | .text _ | .text? _ | .payload _ => []

def Style.Reply.idsGiven : Style.Reply → List NodeId
  | general reply => reply.idsGiven
  | kind _ | declarations _ => []

def Outcome.idsGiven : Outcome ε → List NodeId
  | .reply answer => answer.idsGiven
  | .style answer => answer.idsGiven
  | .opened => []
  | .item node => node.toList

/-- The ids that a step gives away, which are none where it fails. -/
def Outcome.idsGivenBy : Except Error (Outcome ε) → List NodeId
  | .ok outcome => outcome.idsGiven
  | .error _ => []

/-- The clients that name no id but those of `given`, which are all that they were given. -/
inductive Reaches [Family ε] : Client ε → List NodeId → Prop
  | start (recording : Bool) : Reaches (Client.start ε recording) []
  | step {client given call} : Reaches client given → (∀ id ∈ call.idsNamed, id ∈ given) →
      Reaches (client.step call).2 (given ++ Outcome.idsGivenBy (client.step call).1)

end Lineage
