import Lineage.Proofs.Client
import Lineage.Proofs.Progress
import Lineage.Proofs.Reading

/-!
# What calls do to slots

A call is an edit or a read.  An edit fills the slot of the node whose base it sets and leaves the
others as they are (`Edited`); a read leaves the forest as it is and makes progress (`Looked`).  Both
hold of a call that fails too, whatever ids it names.  `Client.edited_step` and `Client.looked_step`
say so of a step.
-/

namespace Lineage

open Lookup

variable {ε α β : Type}

/-! ## Bases that are set -/

/-- The node whose base an edit sets, and that base. -/
def Edit.sets? : Edit ε → Option (NodeId × Option NodeId)
  | declareBase id _ base => some (id, base)
  | extend id base => some (id, some base)
  | addRoot .. | insert .. | obtainChild .. | register .. | replacePayload .. => none

def Request.sets? : Request ε → Option (NodeId × Option NodeId)
  | edit change => change.sets?
  | view _ | query _ => none

def Style.Request.sets? : Style.Request → Option (NodeId × Option NodeId)
  | general request => request.sets?
  | addBlock _ | obtainSelector .. | kind _ | visibleDeclarations _ | declare .. => none

def Call.sets? : Call ε → Option (NodeId × Option NodeId)
  | .request asked => asked.sets?
  | .style asked => asked.sets?
  | .openWalk _ | .advance _ => none

/-! ## What edits do to slots -/

namespace Memo

theorem slot_noteOverwrite (memo : Memo) (id : NodeId) (name baseName : String) (other : NodeId) :
    (memo.noteOverwrite id name baseName).slot other = memo.slot other :=
  slot_eq_of_slots_eq (slots_noteOverwrite ..) other

theorem isSome_journal_noteOverwrite (memo : Memo) (id : NodeId) (name baseName : String) :
    (memo.noteOverwrite id name baseName).journal.isSome = memo.journal.isSome := by
  unfold noteOverwrite
  split
  next => exact isSome_journal_write ..
  next => rfl

theorem restart_of_silent {memo : Memo} (h : memo.journal.isSome = false) : memo.restart = memo := by
  obtain ⟨slots, _ | events⟩ := memo
  · rfl
  · exact nomatch h

theorem reported_restart (memo : Memo) : memo.restart.reported = [] := by
  obtain ⟨slots, _ | events⟩ := memo <;> rfl

theorem reported_noteOverwrite (memo : Memo) (id : NodeId) (name baseName : String) :
    (memo.noteOverwrite id name baseName).reported = memo.reported := by
  unfold noteOverwrite
  split
  next => simp [reported_write, Event.resolvedId?]
  next => rfl

end Memo

namespace Session

/-- What an edit that sets `set?` does to the memo: the slot that it sets, and each other slot as it
was.  No base is reported as found. -/
structure Edited (set? : Option (NodeId × Option NodeId)) (before after : Session ε) : Prop where
  slots_size : before.memo.slots.size = before.forest.size → after.memo.slots.size = after.forest.size
  recording : after.memo.journal.isSome = before.memo.journal.isSome
  reported : after.memo.reported = before.memo.reported
  slot : ∀ id, after.memo.slot id = before.memo.slot id ∨
    ∃ base, set? = some (id, base) ∧ after.memo.slot id = .resolved base

variable {set? : Option (NodeId × Option NodeId)} {session before between after : Session ε}

/-- An edit of the forest that adds no node leaves the memo as it is. -/
theorem Edited.of_memo_eq (hsize : after.forest.size = before.forest.size)
    (hmemo : after.memo = before.memo) : Edited set? before after := by
  obtain ⟨forest, memo⟩ := after
  obtain rfl := hmemo
  exact ⟨fun h ↦ h.trans hsize.symm, rfl, rfl, fun _ ↦ .inl rfl⟩

theorem Edited.refl (set? : Option (NodeId × Option NodeId)) (session : Session ε) :
    Edited set? session session :=
  .of_memo_eq rfl rfl

theorem Edited.trans (h : Edited none before between) (h' : Edited set? between after) :
    Edited set? before after where
  slots_size := h'.slots_size ∘ h.slots_size
  recording := h'.recording.trans h.recording
  reported := h'.reported.trans h.reported
  slot id := by
    have hsame := (h.slot id).resolve_right fun ⟨_, hnone, _⟩ ↦ nomatch hnone
    exact hsame ▸ h'.slot id

theorem Edited.map {action : Action ε α} (h : Edited set? session (action.run session).2) (f : α → β) :
    Edited set? session ((action >>= fun value ↦ pure (f value)).run session).2 := by
  rwa [Lookup.run_map]

theorem edited_insert (name : String) (payload : ε) (parent root : Option NodeId) :
    Edited set? session ((Action.insert name payload parent root).run session).2 where
  slots_size hsize := by
    change (session.memo.slots.push .unresolved).size = (session.forest.add name payload parent root).size
    rw [Array.size_push, Forest.size_add, hsize]
  recording := rfl
  reported := rfl
  slot id := .inl (Memo.slot_grow ..)

theorem edited_modifyNode (id : NodeId) (change : Node ε → Node ε) :
    Edited set? session ((Action.modifyNode id change).run session).2 := by
  by_cases hid : id < session.forest.size
  · obtain ⟨node, hnode⟩ := Forest.exists_node?_of_lt hid
    rw [Action.run_modifyNode hnode]
    exact .of_memo_eq (Forest.size_modify ..) rfl
  · rw [Action.run_modifyNode_error hid]
    exact .refl set? session

theorem edited_register (id : NodeId) (name : String) (child : NodeId) :
    Edited set? session ((Action.register id name child).run session).2 :=
  (edited_modifyNode id _).map fun _ ↦ child

theorem edited_obtainChild [Family ε] (id : NodeId) (name : String) :
    Edited set? session ((Action.obtainChild id name).run session).2 := by
  rcases Action.run_obtainChild_cases session id name with
    ⟨_, _, hrun⟩ | ⟨_, hrun⟩ | ⟨node, payload, _, _, _, hrun⟩
  all_goals rw [hrun]
  · exact .refl set? session
  · exact .refl set? session
  · exact (edited_insert name payload (some id) (some node.root)).trans
      (.of_memo_eq (Forest.size_modify ..) rfl)

theorem edited_declareBase (id : NodeId) (baseName : String) (base : Option NodeId) :
    Edited (some (id, base)) session ((Action.declareBase id baseName base).run session).2 := by
  by_cases hid : id < session.forest.size
  · obtain ⟨node, hnode⟩ := Forest.exists_node?_of_lt hid
    rw [Action.run_declareBase hnode]
    refine ⟨fun hsize ↦ ?_, ?_, ?_, fun other ↦ ?_⟩
    · rw [Memo.size_fill, Memo.slots_noteOverwrite, Forest.size_modify, hsize]
    · exact Memo.isSome_journal_noteOverwrite ..
    · exact Memo.reported_noteOverwrite ..
    · rw [Memo.slot_fill]
      split
      next hfilled => exact .inr ⟨base, by rw [hfilled.1], rfl⟩
      next => exact .inl (Memo.slot_noteOverwrite ..)
  · rw [Action.run_declareBase_error hid]
    exact .refl _ session

theorem edited_extend (id base : NodeId) :
    Edited (some (id, some base)) session ((Action.extend id base).run session).2 := by
  cases hpath : session.forest.path base with
  | ok path =>
    rw [Action.run_extend hpath]
    exact edited_declareBase id path (some base)
  | error error =>
    rw [Action.run_extend_error hpath]
    exact .refl _ session

theorem edited_edit [Family ε] (edit : Edit ε) :
    Edited edit.sets? session (edit.perform.run session).2 := by
  cases edit with
  | addRoot name payload => exact (edited_insert name payload none none).map Reply.id
  | insert name payload parent root => exact (edited_insert name payload parent root).map Reply.id
  | obtainChild id name => exact (edited_obtainChild id name).map Reply.id
  | register id name child => exact (edited_register id name child).map Reply.id
  | declareBase id baseName base => exact (edited_declareBase id baseName base).map fun _ ↦ Reply.done
  | extend id base => exact (edited_extend id base).map fun _ ↦ Reply.done
  | replacePayload id payload => exact (edited_modifyNode id _).map fun _ ↦ Reply.done

theorem edited_obtainSelector {session : Session Style} (id : NodeId) (className : String)
    (state : Option String) :
    Edited none session ((Style.obtainSelector id className state).run session).2 :=
  Action.run_obtainSelector_induction (Edited none session)
    (fun _ id name hbetween ↦ hbetween.trans (edited_obtainChild id name)) (.refl none session)
    id className state

theorem edited_styleRequest {session : Session Style} {request : Style.Request}
    (hedit : request.isEdit = true) :
    Edited request.sets? session (request.answer.run session).2 := by
  cases request with
  | general request =>
    cases request with
    | edit change => exact (edited_edit change).map Style.Reply.general
    | view | query => exact nomatch hedit
  | addBlock name => exact (edited_insert name (Style.bare .block) none none).map _
  | obtainSelector id className state => exact (edited_obtainSelector id className state).map _
  | declare id text => exact (edited_modifyNode id _).map _
  | kind | visibleDeclarations => exact nomatch hedit

/-! ## What reads do to slots -/

/-- A read leaves the forest as it is, and makes progress if each node has a slot. -/
def Looked (session : Session ε) (left : Except Error α × Session ε) : Prop :=
  left.2.forest = session.forest ∧ (session.memo.slots.size = session.forest.size →
    Progress session.forest (Interrupted left.1) session.memo left.2.memo)

theorem Looked.map {action : Action ε α} (h : session.Looked (action.run session)) (f : α → β) :
    session.Looked ((action >>= fun value ↦ pure (f value)).run session) := by
  rw [run_map]
  refine ⟨h.1, fun hsize ↦ ?_⟩
  rw [interrupted_map]
  exact h.2 hsize

theorem looked_look {fails : Error → Prop} {read : Forest ε → Lookup α}
    (h : Progresses session.forest fails (read session.forest)) :
    session.Looked ((Action.look read).run session) :=
  ⟨rfl, fun hsize ↦ (h session.memo hsize).progress⟩

/-- What only reads the forest leaves the memo alone. -/
theorem looked_of_run_memo {read : Forest ε → Lookup α}
    (h : ((read session.forest).run session.memo).2 = session.memo) :
    session.Looked ((Action.look read).run session) := by
  refine ⟨rfl, fun _ ↦ ?_⟩
  change Progress session.forest _ session.memo ((read session.forest).run session.memo).2
  rw [h]
  exact .refl ..

theorem looked_request [Family ε] {request : Request ε} (hread : request.isEdit = false) :
    session.Looked (request.answer.run session) := by
  cases request with
  | view shown => exact looked_of_run_memo (view_run_memo ..)
  | query asked => exact looked_look (Forest.progresses_query asked)
  | edit change => exact nomatch hread

theorem looked_styleRequest {session : Session Style} {request : Style.Request}
    (hread : request.isEdit = false) : session.Looked (request.answer.run session) := by
  cases request with
  | general request => exact (looked_request hread).map Style.Reply.general
  | kind id => exact looked_of_run_memo (run_liftM_bind_memo _ _ session.memo fun _ ↦ rfl)
  | visibleDeclarations id =>
    exact looked_look ((Style.progresses_visibleDeclarations session.forest id).bind fun _ ↦ progresses_pure _)
  | addBlock | obtainSelector | declare => exact nomatch hread

end Session

/-! ## What calls do to slots -/

namespace Client

variable [Family ε] (client : Client ε) {call : Call ε}

theorem edited_step (hedit : call.isEdit = true) : Session.Edited call.sets?
    ⟨client.session.forest, client.session.memo.restart⟩ (client.step call).2.session := by
  rw [step_session]
  cases call with
  | request asked =>
    cases asked with
    | edit change => exact (Session.edited_edit change).map _
    | view | query => exact nomatch hedit
  | style asked => exact (Session.edited_styleRequest hedit).map _
  | openWalk | advance => exact nomatch hedit

theorem looked_step (hread : call.isEdit = false) :
    Session.Looked ⟨client.session.forest, client.session.memo.restart⟩
      ((client.step call).1, (client.step call).2.session) := by
  rw [step_session, step_fst]
  let session : Session ε := ⟨client.session.forest, client.session.memo.restart⟩
  have hperform : session.Looked ((call.perform client.walks).run session) := by
    cases call with
    | request asked => exact (Session.looked_request hread).map _
    | style asked => exact (Session.looked_styleRequest hread).map _
    | openWalk origin => exact (Session.looked_look (Forest.progresses_baseWalk origin)).map _
    | advance index =>
      have hnext : session.Looked ((Action.look fun forest ↦
          (Call.walkAt client.walks index).next forest forest.base).run session) :=
        Session.looked_look (progresses_next Forest.progresses_base _)
      exact hnext.map fun after ↦ (Outcome.item after.1, client.walks.set index after.2)
  refine ⟨hperform.1, fun hsize ↦ ?_⟩
  rw [interrupted_map]
  exact hperform.2 hsize

end Client

end Lineage
