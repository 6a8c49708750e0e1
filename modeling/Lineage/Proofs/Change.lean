import Lineage.Proofs.SlotRuns

/-!
# Orderly edits

Inserting a node under a parent, and registering a child at will, leave it to the caller to keep parents
and children in step.  An edit is orderly if it is neither.  Whatever ids it names, an orderly edit comes
to a few changes, of four sorts (`Change`): a new root-level node, a new child that is registered at its
parent, a new payload, a base that is set.

What every change keeps holds after any orderly calls, reads among them (`Client.forest_after`).
-/

namespace Lineage

open Relation

variable {ε : Type}

/-! ## Orderly calls -/

def Edit.isOrderly : Edit ε → Bool
  | addRoot .. | obtainChild .. | declareBase .. | extend .. | replacePayload .. => true
  | insert .. | register .. => false

def Request.isOrderly : Request ε → Bool
  | edit change => change.isOrderly
  | view _ | query _ => true

def Style.Request.isOrderly : Style.Request → Bool
  | general request => request.isOrderly
  | addBlock _ | obtainSelector .. | kind _ | visibleDeclarations _ | declare .. => true

def Call.isOrderly : Call ε → Bool
  | .request asked => asked.isOrderly
  | .style asked => asked.isOrderly
  | .openWalk _ | .advance _ => true

/-! ## Changes -/

namespace Session

/-- A change that an edit makes which is to set `set?`. -/
inductive Change (set? : Option (NodeId × Option NodeId)) (session : Session ε) : Session ε → Prop
  | addRoot (name : String) (payload : ε) : Change set? session
      ⟨session.forest.add name payload none none, session.memo.grow⟩
  | addChild {id : NodeId} {node : Node ε} {name : String} (payload : ε) :
      session.forest.node? id = some node → node.children.find? name = none →
      Change set? session
        ⟨(session.forest.add name payload (some id) (some node.root)).modify id fun node ↦
          { node with children := node.children.insert name session.forest.size }, session.memo.grow⟩
  | setPayload (id : NodeId) (change : ε → ε) : Change set? session
      ⟨session.forest.modify id fun node ↦ { node with payload := change node.payload }, session.memo⟩
  | setBase {id : NodeId} {node : Node ε} {base : Option NodeId} (baseName : String) :
      session.forest.node? id = some node → set? = some (id, base) → Change set? session
        ⟨session.forest.modify id fun node ↦ { node with baseName := some baseName },
        (session.memo.noteOverwrite id node.name baseName).fill id (.resolved base)⟩

/-- What an edit comes to which is to set `set?`. -/
abbrev Changes (set? : Option (NodeId × Option NodeId)) : Session ε → Session ε → Prop :=
  ReflTransGen (Change set?)

variable {set? : Option (NodeId × Option NodeId)} {session : Session ε}

theorem changes_map {α β : Type} {action : Action ε α} (h : Changes set? session (action.run session).2)
    (f : α → β) : Changes set? session ((action >>= fun value ↦ pure (f value)).run session).2 := by
  rwa [Lookup.run_map]

theorem changes_addRoot (name : String) (payload : ε) :
    Changes set? session ((Action.addRoot name payload).run session).2 :=
  .single (.addRoot name payload)

theorem changes_modifyPayload (id : NodeId) (change : ε → ε) : Changes set? session
    ((Action.modifyNode id fun node ↦ { node with payload := change node.payload }).run session).2 := by
  by_cases hid : id < session.forest.size
  · obtain ⟨node, hnode⟩ := Forest.exists_node?_of_lt hid
    rw [Action.run_modifyNode hnode]
    exact .single (.setPayload id change)
  · rw [Action.run_modifyNode_error hid]

theorem changes_obtainChild [Family ε] (id : NodeId) (name : String) :
    Changes set? session ((Action.obtainChild id name).run session).2 := by
  rcases Action.run_obtainChild_cases session id name with
    ⟨_, _, hrun⟩ | ⟨_, hrun⟩ | ⟨node, payload, hnode, hfind, _, hrun⟩
  all_goals rw [hrun]
  exact .single (.addChild payload hnode hfind)

theorem changes_declareBase (id : NodeId) (baseName : String) (base : Option NodeId) :
    Changes (some (id, base)) session ((Action.declareBase id baseName base).run session).2 := by
  by_cases hid : id < session.forest.size
  · obtain ⟨node, hnode⟩ := Forest.exists_node?_of_lt hid
    rw [Action.run_declareBase hnode]
    exact .single (.setBase baseName hnode rfl)
  · rw [Action.run_declareBase_error hid]

theorem changes_extend (id base : NodeId) :
    Changes (some (id, some base)) session ((Action.extend id base).run session).2 := by
  cases hpath : session.forest.path base with
  | ok path =>
    rw [Action.run_extend hpath]
    exact changes_declareBase id path (some base)
  | error error => rw [Action.run_extend_error hpath]

theorem changes_edit [Family ε] {edit : Edit ε} (horderly : edit.isOrderly = true) :
    Changes edit.sets? session (edit.perform.run session).2 := by
  cases edit with
  | addRoot name payload => exact changes_map (changes_addRoot name payload) Reply.id
  | obtainChild id name => exact changes_map (changes_obtainChild id name) Reply.id
  | declareBase id baseName base =>
    exact changes_map (changes_declareBase id baseName base) fun _ ↦ Reply.done
  | extend id base => exact changes_map (changes_extend id base) fun _ ↦ Reply.done
  | replacePayload id payload =>
    exact changes_map (changes_modifyPayload id fun _ ↦ payload) fun _ ↦ Reply.done
  | insert | register => exact nomatch horderly

/-- A selector takes two changes at most, and none after a class that cannot be had. -/
theorem changes_obtainSelector {session : Session Style} (id : NodeId) (className : String)
    (state : Option String) :
    Changes set? session ((Style.obtainSelector id className state).run session).2 :=
  Action.run_obtainSelector_induction (Changes set? session)
    (fun _ id name hbetween ↦ hbetween.trans (changes_obtainChild id name)) .refl id className state

theorem changes_styleRequest {session : Session Style} {request : Style.Request}
    (hedit : request.isEdit = true) (horderly : request.isOrderly = true) :
    Changes request.sets? session (request.answer.run session).2 := by
  cases request with
  | general request =>
    cases request with
    | edit change => exact changes_map (changes_edit horderly) Style.Reply.general
    | view | query => exact nomatch hedit
  | addBlock name => exact changes_map (changes_addRoot name _) _
  | obtainSelector id className state => exact changes_map (changes_obtainSelector id className state) _
  | declare id text =>
    let change : Style → Style :=
      fun style ↦ { style with declarations := style.declarations ++ [text] }
    exact changes_map (changes_modifyPayload id change) _
  | kind | visibleDeclarations => exact nomatch hedit

end Session

/-! ## Runs -/

namespace Client

variable [Family ε]

theorem changes_step (client : Client ε) {call : Call ε} (hedit : call.isEdit = true)
    (horderly : call.isOrderly = true) :
    Session.Changes call.sets? ⟨client.session.forest, client.session.memo.restart⟩
      (client.step call).2.session := by
  rw [step_session]
  cases call with
  | request asked =>
    cases asked with
    | edit change => exact Session.changes_map (Session.changes_edit horderly) _
    | view | query => exact nomatch hedit
  | style asked => exact Session.changes_map (Session.changes_styleRequest hedit horderly) _
  | openWalk | advance => exact nomatch hedit

variable {kept : Forest ε → Prop}
  (hchange : ∀ ⦃set? session after⦄, Session.Change set? session after → kept session.forest →
    kept after.forest)
include hchange

theorem forest_step (client : Client ε) {call : Call ε} (horderly : call.isOrderly = true)
    (h : kept client.session.forest) : kept (client.step call).2.session.forest := by
  cases hedit : call.isEdit with
  | false =>
    rw [forest_step_of_read client hedit]
    exact h
  | true =>
    have hchanges := changes_step client hedit horderly
    generalize (client.step call).2.session = after at hchanges
    induction hchanges with
    | refl => exact h
    | tail _ hlast ih => exact hchange hlast ih

/-- What each change keeps of a forest, orderly calls keep. -/
theorem forest_after {client : Client ε} {calls : List (Call ε)}
    (horderly : ∀ call ∈ calls, call.isOrderly = true) (h : kept client.session.forest) :
    kept (client.after calls).session.forest :=
  after_induction (fun client ↦ kept client.session.forest)
    (fun call hcall client h ↦ forest_step hchange client (horderly call hcall) h) h

end Client

end Lineage
