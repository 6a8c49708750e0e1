import Lineage.Proofs.FullWalks
import Lineage.Proofs.Reading

/-!
# Clients are served

Whatever edits and reads came before, a call that names only ids which its client was given comes to
an answer, or to the refusal to put a child below a leaf or to follow a cycle strictly.  It never
meets an id that is not there, and no walk or nested read goes on for ever, although bases and
registered children may form cycles.  This is `Reaches.serves`.

What carries it is that a session stays sound: every reference in it leads to a node that is there,
parents come before their children, and no read is under way between calls.  `Serves` says of an
action what it does from a sound session; there is one fact for each view, query and edit.
-/

namespace Lineage

open Lookup

/-- The errors that turn a request down. -/
def Error.IsRefusal : Error → Prop
  | childOfLeaf _ _ | cycle _ => True
  | outOfRange _ _ | unending | unknownBlock _ => False

variable {ε α β : Type}

/-- A value that gives away ids below `size` only, or a refusal. -/
def Fits (gives : α → List NodeId) (size : Nat) : Except Error α → Prop
  | .ok value => ∀ id ∈ gives value, id < size
  | .error error => error.IsRefusal

namespace Session

/-- A valid session in which the roots of nodes, and the nodes that the index of roots names, are
there. -/
structure Sound (session : Session ε) : Prop extends session.Valid where
  root_lt : ∀ ⦃id node⦄, session.forest.node? id = some node → node.root < session.forest.size
  index_lt : ∀ ⦃name id⦄, session.forest.roots.find? name = some id → id < session.forest.size

/-- From `session`, `action` comes to what fits, and leaves a sound session that has not shrunk. -/
structure Serves (session : Session ε) (action : Action ε α) (gives : α → List NodeId) : Prop where
  sound : (action.run session).2.Sound
  grows : session.forest.size ≤ (action.run session).2.forest.size
  fits : Fits gives (action.run session).2.forest.size (action.run session).1

theorem Serves.of_run {session after : Session ε} {action : Action ε α} {gives : α → List NodeId}
    {result : Except Error α} (hrun : action.run session = (result, after)) (hsound : after.Sound)
    (hgrows : session.forest.size ≤ after.forest.size) (hfits : Fits gives after.forest.size result) :
    session.Serves action gives := by
  constructor <;> rw [hrun]
  · exact hsound
  · exact hgrows
  · exact hfits

theorem Serves.bind {session : Session ε} {action : Action ε α} {next : α → Action ε β}
    {gives : α → List NodeId} {gives' : β → List NodeId} (h : session.Serves action gives)
    (hnext : ∀ (value : α) (between : Session ε), between.Sound →
      session.forest.size ≤ between.forest.size → (∀ id ∈ gives value, id < between.forest.size) →
      between.Serves (next value) gives') : session.Serves (action >>= next) gives' := by
  obtain ⟨hsound, hgrows, hfits⟩ := h
  rcases hrun : action.run session with ⟨result, between⟩
  rw [hrun] at hsound hgrows hfits
  have hwhole := run_bind action next session
  rw [hrun] at hwhole
  cases result with
  | ok value =>
    have hrest := hnext value between hsound hgrows hfits
    exact .of_run hwhole hrest.sound (Nat.le_trans hgrows hrest.grows) hrest.fits
  | error error => exact .of_run hwhole hsound hgrows hfits

namespace Sound

variable {session : Session ε} (h : session.Sound)
include h

theorem serves_pure {value : α} {gives : α → List NodeId}
    (hgives : ∀ id ∈ gives value, id < session.forest.size) : session.Serves (pure value) gives :=
  ⟨h, Nat.le_refl _, hgives⟩

theorem of_memo {memo : Memo} (hvalid : Valid ⟨session.forest, memo⟩) :
    Sound ⟨session.forest, memo⟩ :=
  ⟨hvalid, h.root_lt, h.index_lt⟩

theorem restart : Sound ⟨session.forest, session.memo.restart⟩ :=
  h.of_memo (h.toValid.of_slots_eq rfl)

end Sound

theorem Serves.map {session : Session ε} {action : Action ε α} {gives : α → List NodeId}
    {gives' : β → List NodeId} (h : session.Serves action gives) (f : α → β)
    (hgives : ∀ value, ∀ id ∈ gives' (f value), id ∈ gives value) :
    session.Serves (action >>= fun value ↦ pure (f value)) gives' :=
  h.bind fun value _ hsound _ hvalue ↦ hsound.serves_pure fun id hid ↦ hvalue id (hgives value id hid)

/-! ## Reads -/

/-- What reads of a valid session leave is valid. -/
theorem Valid.of_settled {session : Session ε} (h : session.Valid) {memo : Memo}
    (hmemo : session.Settled memo) : Valid ⟨session.forest, memo⟩ where
  closed := h.closed
  slots_size := hmemo.slots_size
  base_lt id base hbase := by
    rcases hmemo.slot_other id List.not_mem_nil with hsame | ⟨_, hfilled⟩
    · exact h.base_lt (hsame.symm.trans hbase)
    · exact h.baseOf_lt (Slot.resolved.inj (hfilled.symm.trans hbase))
  settled id hresolving := by
    rcases hmemo.slot_other id List.not_mem_nil with hsame | ⟨_, hfilled⟩
    · exact h.settled id (hsame.symm.trans hresolving)
    · simp [hfilled] at hresolving

namespace Sound

variable {session : Session ε} (h : session.Sound)
include h

theorem serves_run {read : Forest ε → Lookup α} {gives : α → List NodeId}
    (hmemo : session.Settled ((read session.forest).run session.memo).2)
    (hfits : Fits gives session.forest.size ((read session.forest).run session.memo).1) :
    session.Serves (Action.look read) gives :=
  .of_run (Action.run_look rfl) (h.of_memo (h.toValid.of_settled hmemo)) (Nat.le_refl _) hfits

theorem serves_look {read : Forest ε → Lookup α} {gives : α → List NodeId} {result : Except Error α}
    (hread : Keeps session.Settled (read session.forest) result)
    (hfits : Fits gives session.forest.size result) : session.Serves (Action.look read) gives := by
  obtain ⟨memo, hrun, hmemo⟩ := hread session.memo h.toValid.reflects
  apply h.serves_run
  · rwa [hrun]
  · rwa [hrun]

theorem slot_lt (id : NodeId) : ∀ other ∈ (session.memo.slot id).idsGiven, other < session.forest.size := by
  intro other hother
  have hslot : session.memo.slot id = .resolved (some other) := by
    unfold Slot.idsGiven at hother
    cases hslot : session.memo.slot id <;> simp_all [Slot.outcome]
  exact h.base_lt hslot

theorem node_lt {id : NodeId} {node : Node ε} (hnode : session.forest.node? id = some node) :
    ∀ other ∈ node.idsGiven, other < session.forest.size := by
  intro other hother
  rcases List.mem_append.mp hother with hparent | hother
  · have hlt := h.closed.parent_lt ((Forest.parentOf_eq hnode).trans (Option.mem_toList.mp hparent))
    exact Nat.lt_trans hlt (Forest.lt_of_node?_eq hnode)
  rcases List.mem_cons.mp hother with rfl | hchild
  · exact h.root_lt hnode
  · obtain ⟨name, hfind⟩ := (NameMap.mem_values_iff ..).mp hchild
    exact h.closed.child_lt ((Forest.childNamed_eq hnode name).trans hfind)

theorem record_lt {id : NodeId} {node : Node ε} (hnode : session.forest.node? id = some node) :
    ∀ other ∈ (NodeRecord.mk node (session.memo.slot id)).idsGiven, other < session.forest.size :=
  fun other hother ↦ (List.mem_append.mp hother).elim (h.node_lt hnode other) (h.slot_lt id other)

/-! ## Queries -/

theorem serves_query (query : Query) (hids : ∀ id ∈ query.idsNamed, id < session.forest.size) :
    session.Serves (Action.look fun forest ↦ query.answer forest) Reply.idsGiven := by
  have hvalid := h.toValid
  cases query with
  | base id =>
    have hread := hvalid.keeps_base id (hids id List.mem_cons_self)
    refine h.serves_look (hread.bind (returns_pure _)) fun base hbase ↦ ?_
    exact hvalid.baseOf_lt (Option.mem_toList.mp hbase)
  | chain id =>
    have hid := hids id List.mem_cons_self
    obtain ⟨line, hline⟩ := hvalid.exists_trail hid
    exact h.serves_look ((hvalid.keeps_chain hid hline).bind (returns_pure _)) (hvalid.trail_lt hline)
  | chainPrefix id count =>
    have hid := hids id List.mem_cons_self
    obtain ⟨line, hline⟩ := hvalid.exists_trail hid
    refine h.serves_look ((hvalid.keeps_chainPrefix hid hline count).bind (returns_pure _)) fun met hmet ↦ ?_
    obtain ⟨_, hitem, hmet⟩ := List.mem_flatMap.mp hmet
    obtain ⟨index, _, rfl⟩ := List.mem_map.mp hitem
    exact hvalid.trail_lt hline met (List.mem_of_getElem? (Option.mem_toList.mp hmet))
  | inheritsFrom id ancestor =>
    have hid := hids id List.mem_cons_self
    obtain ⟨line, hline⟩ := hvalid.exists_trail hid
    exact h.serves_look ((hvalid.keeps_inheritsFrom hid hline ancestor).bind (returns_pure _)) (by simp [Fits, Reply.idsGiven])
  | inheritance id =>
    have hid := hids id List.mem_cons_self
    obtain ⟨line, hline⟩ := hvalid.exists_trail hid
    refine h.serves_look ((hvalid.keeps_inheritance hid hline).bind (returns_pure _)) fun met hmet ↦ ?_
    exact hvalid.trail_lt hline met (List.mem_reverse.mp hmet)
  | strictInheritance id =>
    have hid := hids id List.mem_cons_self
    obtain ⟨line, hline⟩ := hvalid.exists_trail hid
    obtain ⟨result, hresult, rfl | ⟨path, rfl⟩⟩ := hvalid.exists_keeps_strictInheritance hid hline
    · refine h.serves_look (hresult.bind (returns_pure _)) fun met hmet ↦ ?_
      exact hvalid.trail_lt hline met (List.mem_reverse.mp hmet)
    · exact h.serves_look (hresult.bind_error _) trivial
  | visibleChild id name =>
    have hid := hids id List.mem_cons_self
    obtain ⟨line, hline⟩ := hvalid.exists_trail hid
    refine h.serves_look ((hvalid.keeps_visibleChild hid hline name).bind (returns_pure _)) fun child hchild ↦ ?_
    obtain ⟨_, _, hfound⟩ := List.exists_of_findSome?_eq_some (Option.mem_toList.mp hchild)
    exact hvalid.closed.child_lt hfound
  | visibleChildren id =>
    have hid := hids id List.mem_cons_self
    obtain ⟨line, hline⟩ := hvalid.exists_trail hid
    obtain ⟨children, hchildren, hfind⟩ := hvalid.exists_keeps_visibleChildren hid hline
    refine h.serves_look (hchildren.bind (returns_pure _)) fun child hchild ↦ ?_
    obtain ⟨name, hname⟩ := (NameMap.mem_values_iff ..).mp hchild
    obtain ⟨_, _, hfound⟩ := List.exists_of_findSome?_eq_some ((hfind name).symm.trans hname)
    exact hvalid.closed.child_lt hfound

/-! ## Views -/

omit h in
/-- A view that shows something of one node comes to it. -/
theorem fits_node {id : NodeId} (hid : id < session.forest.size) {shown : Node ε → Lookup (Reply ε)}
    (hshown : ∀ node, session.forest.node? id = some node →
      Fits Reply.idsGiven session.forest.size ((shown node).run session.memo).1) :
    Fits Reply.idsGiven session.forest.size
      (((liftM (session.forest.node id) : Lookup (Node ε)) >>= shown).run session.memo).1 := by
  obtain ⟨node, hnode⟩ := Forest.exists_node?_of_lt hid
  rw [Forest.node_eq_ok hnode]
  exact hshown node hnode

theorem find_lt (path : String) : ∃ found, session.forest.find path = .ok found ∧
    ∀ id ∈ found, id < session.forest.size := by
  unfold Forest.find
  cases Forest.segments path with
  | nil => exact ⟨none, rfl, by simp⟩
  | cons root names =>
    cases hroot : session.forest.roots.find? root with
    | none =>
      simp only [hroot]
      exact ⟨none, rfl, by simp⟩
    | some id =>
      have hid := h.index_lt hroot
      simp only [hroot]
      exact ⟨_, h.closed.descend_eq_ok hid names, fun _ hfound ↦ h.closed.descendant_lt hid hfound⟩

theorem fits_view (view : View) (hids : ∀ id ∈ view.idsNamed, id < session.forest.size) :
    Fits Reply.idsGiven session.forest.size ((view.answer session.forest).run session.memo).1 := by
  cases view with
  | node id => exact fits_node (hids id List.mem_cons_self) fun _ hnode ↦ h.record_lt hnode
  | node? id =>
    obtain ⟨node, hnode⟩ := Forest.exists_node?_of_lt (hids id List.mem_cons_self)
    simp only [View.answer, hnode]
    intro other hother
    obtain ⟨record, hrecord, hother⟩ := List.mem_flatMap.mp hother
    obtain rfl := List.mem_singleton.mp hrecord
    exact h.record_lt hnode other hother
  | everyNode =>
    intro other hother
    obtain ⟨record, hrecord, hother⟩ := List.mem_flatMap.mp hother
    obtain ⟨id, hid, rfl⟩ := List.mem_mapIdx.mp hrecord
    exact h.record_lt (Array.getElem?_eq_getElem hid) other hother
  | name id => exact fits_node (hids id List.mem_cons_self) fun _ _ _ hother ↦ absurd hother List.not_mem_nil
  | path id =>
    obtain ⟨path, hpath⟩ := h.closed.exists_path (hids id List.mem_cons_self)
    simp only [View.answer, hpath]
    exact fun _ hother ↦ absurd hother List.not_mem_nil
  | parent id =>
    refine fits_node (hids id List.mem_cons_self) fun node hnode other hother ↦ ?_
    exact h.node_lt hnode other (List.mem_append_left _ hother)
  | root id =>
    refine fits_node (hids id List.mem_cons_self) fun node hnode other hother ↦ ?_
    exact List.mem_singleton.mp hother ▸ h.root_lt hnode
  | baseName id => exact fits_node (hids id List.mem_cons_self) fun _ _ _ hother ↦ absurd hother List.not_mem_nil
  | slot id => exact fits_node (hids id List.mem_cons_self) fun _ _ ↦ h.slot_lt id
  | payload id => exact fits_node (hids id List.mem_cons_self) fun _ _ _ hother ↦ absurd hother List.not_mem_nil
  | size => exact fun _ hother ↦ absurd hother List.not_mem_nil
  | isEmpty => exact fun _ hother ↦ absurd hother List.not_mem_nil
  | ids => exact fun id hid ↦ List.mem_range.mp hid
  | roots =>
    intro id hid
    obtain ⟨name, hname⟩ := (NameMap.mem_values_iff ..).mp hid
    exact h.index_lt hname
  | find path =>
    obtain ⟨found, hfound, hlt⟩ := h.find_lt path
    simp only [View.answer, hfound]
    exact fun id hid ↦ hlt id (Option.mem_toList.mp hid)
  | child? id name =>
    have hid := hids id List.mem_cons_self
    simp only [View.answer, Forest.child?_eq_ok hid]
    exact fun child hchild ↦ h.closed.child_lt (Option.mem_toList.mp hchild)
  | children id =>
    refine fits_node (hids id List.mem_cons_self) fun node hnode other hother ↦ ?_
    exact h.node_lt hnode other (List.mem_append_right _ (List.mem_cons_of_mem _ hother))
  | childMap id =>
    refine fits_node (hids id List.mem_cons_self) fun node hnode other hother ↦ ?_
    exact h.node_lt hnode other (List.mem_append_right _ (List.mem_cons_of_mem _ hother))

theorem serves_view (view : View) (hids : ∀ id ∈ view.idsNamed, id < session.forest.size) :
    session.Serves (Action.look fun forest ↦ view.answer forest) Reply.idsGiven := by
  apply h.serves_run _ (h.fits_view view hids)
  rw [view_run_memo]
  exact h.toValid.reflects

/-! ## Edits -/

theorem add {parent root : Option NodeId} (hparent : ∀ id ∈ parent, id < session.forest.size)
    (hroot : ∀ id ∈ root, id < session.forest.size) (name : String) (payload : ε) :
    Sound ⟨session.forest.add name payload parent root, session.memo.grow⟩ where
  toValid := h.toValid.add hparent name payload root
  root_lt id node hnode := by
    rw [Forest.node?_add] at hnode
    rw [Forest.size_add]
    split at hnode
    next =>
      obtain rfl := Option.some.inj hnode
      cases root with
      | none => exact Nat.lt_succ_self _
      | some root => exact Nat.lt_succ_of_lt (hroot root rfl)
    next => exact Nat.lt_succ_of_lt (h.root_lt hnode)
  index_lt key id hid := by
    rw [Forest.size_add]
    unfold Forest.add at hid
    split at hid
    next =>
      rw [NameMap.find?_insert] at hid
      split at hid
      next => exact Option.some.inj hid ▸ Nat.lt_succ_self _
      next => exact Nat.lt_succ_of_lt (h.index_lt hid)
    next => exact Nat.lt_succ_of_lt (h.index_lt hid)

/-- A node may change as long as its parent and root stay and its children are there. -/
theorem modify {id : NodeId} {change : Node ε → Node ε} (hparent : ∀ node, (change node).parent = node.parent)
    (hroot : ∀ node, (change node).root = node.root)
    (hchild : ∀ name other child, (session.forest.modify id change).childNamed name other = some child →
      child < session.forest.size) : Sound ⟨session.forest.modify id change, session.memo⟩ where
  toValid := by
    refine h.toValid.of_forest (Forest.size_modify ..) (Forest.parentOf_modify hparent) ?_
    exact fun other name child hfound ↦ hchild name other child hfound
  root_lt other node hnode := by
    rw [Forest.node?_modify] at hnode
    rw [Forest.size_modify]
    split at hnode
    next =>
      obtain ⟨before, hbefore, rfl⟩ := Option.map_eq_some_iff.mp hnode
      rw [hroot]
      exact h.root_lt hbefore
    next => exact h.root_lt hnode
  index_lt name other hother := by
    rw [Forest.size_modify]
    exact h.index_lt hother

theorem modify_apart {id : NodeId} {change : Node ε → Node ε}
    (hparent : ∀ node, (change node).parent = node.parent) (hroot : ∀ node, (change node).root = node.root)
    (hchildren : ∀ node, (change node).children = node.children) :
    Sound ⟨session.forest.modify id change, session.memo⟩ := by
  refine h.modify hparent hroot fun name other child hchild ↦ ?_
  rw [Forest.childNamed_modify hchildren] at hchild
  exact h.closed.child_lt hchild

theorem register {id child : NodeId} (hid : id < session.forest.size) (hchild : child < session.forest.size)
    (name : String) : Sound ⟨session.forest.modify id fun node ↦
      { node with children := node.children.insert name child }, session.memo⟩ := by
  refine h.modify (fun _ ↦ rfl) (fun _ ↦ rfl) fun key other found hfound ↦ ?_
  rw [Forest.childNamed_register hid] at hfound
  split at hfound
  next => exact Option.some.inj hfound ▸ hchild
  next => exact h.closed.child_lt hfound

theorem serves_insert {parent root : Option NodeId} (hparent : ∀ id ∈ parent, id < session.forest.size)
    (hroot : ∀ id ∈ root, id < session.forest.size) (name : String) (payload : ε) :
    session.Serves (Action.insert name payload parent root) ([·]) := by
  refine .of_run rfl (h.add hparent hroot name payload) ?_ ?_
  · rw [Forest.size_add]
    exact Nat.le_succ _
  · intro id hid
    rw [Forest.size_add, List.mem_singleton.mp hid]
    exact Nat.lt_succ_self _

theorem serves_register {id child : NodeId} (hid : id < session.forest.size)
    (hchild : child < session.forest.size) (name : String) :
    session.Serves (Action.register id name child) ([·]) := by
  obtain ⟨node, hnode⟩ := Forest.exists_node?_of_lt hid
  refine .of_run (Action.run_register hnode name child) (h.register hid hchild name) ?_ ?_
  · exact Nat.le_of_eq (Forest.size_modify ..).symm
  · intro other hother
    rw [Forest.size_modify, List.mem_singleton.mp hother]
    exact hchild

theorem serves_modifyNode {id : NodeId} (hid : id < session.forest.size) {change : Node ε → Node ε}
    (hparent : ∀ node, (change node).parent = node.parent) (hroot : ∀ node, (change node).root = node.root)
    (hchildren : ∀ node, (change node).children = node.children) :
    session.Serves (Action.modifyNode id change) fun _ ↦ [] := by
  obtain ⟨node, hnode⟩ := Forest.exists_node?_of_lt hid
  refine .of_run (Action.run_modifyNode hnode change) (h.modify_apart hparent hroot hchildren) ?_ ?_
  · exact Nat.le_of_eq (Forest.size_modify ..).symm
  · exact fun _ hother ↦ nomatch hother

theorem serves_obtainChild [Family ε] {id : NodeId} (hid : id < session.forest.size) (name : String) :
    session.Serves (Action.obtainChild id name) ([·]) := by
  obtain ⟨node, hnode⟩ := Forest.exists_node?_of_lt hid
  cases hfind : node.children.find? name with
  | some child =>
    refine .of_run (Action.run_obtainChild_known hnode hfind) h (Nat.le_refl _) fun other hother ↦ ?_
    rw [List.mem_singleton.mp hother]
    exact h.closed.child_lt ((Forest.childNamed_eq hnode name).trans hfind)
  | none =>
    cases hpayload : Family.childPayload? node.payload name with
    | none =>
      obtain ⟨path, hpath⟩ := h.closed.exists_path hid
      have hrun := Action.run_obtainChild_leaf hnode hfind hpayload
      rw [hpath] at hrun
      exact .of_run hrun h (Nat.le_refl _) trivial
    | some payload =>
      have hparent : ∀ other ∈ some id, other < session.forest.size := by simpa
      have hroot : ∀ other ∈ some node.root, other < session.forest.size := by
        simpa using h.root_lt hnode
      have hadded := h.add hparent hroot name payload
      have hlt : session.forest.size < (session.forest.add name payload (some id) (some node.root)).size := by
        rw [Forest.size_add]
        exact Nat.lt_succ_self _
      have hsound := hadded.register (Nat.lt_trans hid hlt) hlt name
      refine .of_run (Action.run_obtainChild_new hnode hfind hpayload) hsound ?_ fun other hother ↦ ?_
      · rw [Forest.size_modify]
        exact Nat.le_of_lt hlt
      · rw [Forest.size_modify, List.mem_singleton.mp hother]
        exact hlt

theorem serves_declareBase {id : NodeId} {base : Option NodeId} (hid : id < session.forest.size)
    (hbase : ∀ found ∈ base, found < session.forest.size) (baseName : String) :
    session.Serves (Action.declareBase id baseName base) fun _ ↦ [] := by
  obtain ⟨node, hnode⟩ := Forest.exists_node?_of_lt hid
  have hresolved := h.of_memo (h.toValid.resolve hbase
    (Memo.slots_fill_noteOverwrite session.memo id node.name baseName (.resolved base)))
  refine .of_run (Action.run_declareBase hnode baseName base) (hresolved.modify_apart (fun _ ↦ rfl) (fun _ ↦ rfl) fun _ ↦ rfl) ?_ ?_
  · exact Nat.le_of_eq (Forest.size_modify ..).symm
  · exact fun _ hother ↦ nomatch hother

theorem serves_extend {id base : NodeId} (hid : id < session.forest.size)
    (hbase : base < session.forest.size) : session.Serves (Action.extend id base) fun _ ↦ [] := by
  obtain ⟨path, hpath⟩ := h.closed.exists_path hbase
  have hfound : ∀ found ∈ some base, found < session.forest.size := by simpa
  have hdeclare := h.serves_declareBase hid hfound path
  exact .of_run (Action.run_extend hpath) hdeclare.sound hdeclare.grows hdeclare.fits

theorem serves_edit [Family ε] (edit : Edit ε) (hids : ∀ id ∈ edit.idsNamed, id < session.forest.size) :
    session.Serves edit.perform Reply.idsGiven := by
  cases edit with
  | addRoot name payload =>
    exact (h.serves_insert (by simp) (by simp) name payload).map _ fun _ _ hid ↦ hid
  | insert name payload parent root =>
    refine (h.serves_insert (fun id hid ↦ ?_) (fun id hid ↦ ?_) name payload).map _ fun _ _ hid ↦ hid
    · exact hids id (List.mem_append_left _ (Option.mem_toList.mpr hid))
    · exact hids id (List.mem_append_right _ (Option.mem_toList.mpr hid))
  | obtainChild id name =>
    exact (h.serves_obtainChild (hids id List.mem_cons_self) name).map _ fun _ _ hid ↦ hid
  | register id name child =>
    have hchild := hids child (List.mem_cons_of_mem _ List.mem_cons_self)
    exact (h.serves_register (hids id List.mem_cons_self) hchild name).map _ fun _ _ hid ↦ hid
  | declareBase id baseName base =>
    have hbase : ∀ found ∈ base, found < session.forest.size :=
      fun found hfound ↦ hids found (List.mem_cons_of_mem _ (Option.mem_toList.mpr hfound))
    exact (h.serves_declareBase (hids id List.mem_cons_self) hbase baseName).map _ fun _ _ hid ↦ hid
  | extend id base =>
    have hbase := hids base (List.mem_cons_of_mem _ List.mem_cons_self)
    exact (h.serves_extend (hids id List.mem_cons_self) hbase).map _ fun _ _ hid ↦ hid
  | replacePayload id payload =>
    have hreplace : session.Serves (Action.replacePayload id payload) fun _ ↦ [] :=
      h.serves_modifyNode (hids id List.mem_cons_self) (fun _ ↦ rfl) (fun _ ↦ rfl) fun _ ↦ rfl
    exact hreplace.map _ fun _ _ hid ↦ hid

theorem serves_request [Family ε] (request : Request ε)
    (hids : ∀ id ∈ request.idsNamed, id < session.forest.size) :
    session.Serves request.answer Reply.idsGiven := by
  cases request with
  | view shown => exact h.serves_view shown hids
  | query asked => exact h.serves_query asked hids
  | edit change => exact h.serves_edit change hids

end Sound

/-! ## Style sessions -/

namespace Sound

variable {session : Session Style} (h : session.Sound)
include h

theorem serves_obtainSelector {id : NodeId} (hid : id < session.forest.size) (className : String)
    (state : Option String) : session.Serves (Style.obtainSelector id className state) ([·]) := by
  refine (h.serves_obtainChild hid className).bind fun classId between hbetween _ hclass ↦ ?_
  cases state with
  | none => exact hbetween.serves_pure hclass
  | some state => exact hbetween.serves_obtainChild (hclass classId List.mem_cons_self) state

theorem serves_visibleDeclarations {id : NodeId} (hid : id < session.forest.size) :
    session.Serves (Action.look fun forest ↦ do
      return .declarations (← Style.visibleDeclarations forest id)) Style.Reply.idsGiven := by
  obtain ⟨line, hline⟩ := h.toValid.exists_trail hid
  have hvisible := Style.keeps_visibleDeclarations h.toValid hid hline
  exact h.serves_look (hvisible.bind (returns_pure _)) fun _ hother ↦ nomatch hother

theorem serves_kind {id : NodeId} (hid : id < session.forest.size) :
    session.Serves (Action.look fun forest ↦ do return .kind (← Style.kindOf forest id))
      Style.Reply.idsGiven := by
  obtain ⟨node, hnode⟩ := Forest.exists_node?_of_lt hid
  have hread : Keeps session.Settled (Style.kindOf session.forest id : Lookup Style.Kind)
      (.ok node.payload.kind) := by
    unfold Style.kindOf
    rw [Forest.node_eq_ok hnode]
    exact returns_liftM (.ok node.payload.kind)
  exact h.serves_look (hread.bind (returns_pure _)) fun _ hother ↦ nomatch hother

theorem serves_styleRequest (request : Style.Request)
    (hids : ∀ id ∈ request.idsNamed, id < session.forest.size) :
    session.Serves request.answer Style.Reply.idsGiven := by
  cases request with
  | general request => exact (h.serves_request request hids).map _ fun _ _ hid ↦ hid
  | addBlock name =>
    have hadd : session.Serves (Style.addBlock name) ([·]) :=
      h.serves_insert (by simp) (by simp) name (Style.bare .block)
    exact hadd.map _ fun _ _ hid ↦ hid
  | obtainSelector id className state =>
    exact (h.serves_obtainSelector (hids id List.mem_cons_self) className state).map _ fun _ _ hid ↦ hid
  | kind id => exact h.serves_kind (hids id List.mem_cons_self)
  | visibleDeclarations id => exact h.serves_visibleDeclarations (hids id List.mem_cons_self)
  | declare id text =>
    have hdeclare : session.Serves (Style.declare id text) fun _ ↦ [] :=
      h.serves_modifyNode (hids id List.mem_cons_self) (fun _ ↦ rfl) (fun _ ↦ rfl) fun _ ↦ rfl
    exact hdeclare.map _ fun _ _ hid ↦ hid

end Sound

end Session

/-! ## Walks and calls -/

/-- The node that a walk has met last or is about to meet. -/
def Walk.idsHeld (walk : Walk) : List NodeId :=
  match walk.position with
  | .before node | .standing node => [node]
  | .ended => []

/-- The ids that an outcome gives away, and those that the open walks hold. -/
def Outcome.idsLeft (left : Outcome ε × List Walk) : List NodeId :=
  left.1.idsGiven ++ left.2.flatMap Walk.idsHeld

theorem Walk.mem_idsHeld_of_mem_walkAt {walks : List Walk} {index : Nat} {id : NodeId}
    (hid : id ∈ (Call.walkAt walks index).idsHeld) : id ∈ walks.flatMap Walk.idsHeld := by
  unfold Call.walkAt at hid
  cases hwalk : walks[index]? with
  | none => simp [hwalk, idsHeld] at hid
  | some walk =>
    rw [hwalk] at hid
    exact List.mem_flatMap.mpr ⟨walk, List.mem_of_getElem? hwalk, hid⟩

namespace Session.Sound

variable {session : Session ε} (h : session.Sound)
include h

theorem serves_baseWalk {origin : NodeId} (horigin : origin < session.forest.size) :
    session.Serves (Action.look (·.baseWalk origin)) Walk.idsHeld := by
  obtain ⟨line, hline⟩ := h.toValid.exists_trail horigin
  obtain ⟨walk, hwalk, hremaining, hposition⟩ := h.toValid.keeps_baseWalk horigin hline
  refine h.serves_look hwalk fun id hid ↦ ?_
  cases hremaining with
  | before => exact h.toValid.trail_lt hline id (List.mem_singleton.mp hid ▸ List.mem_cons_self)
  | standing => exact absurd rfl (hposition _)
  | ended => exact nomatch hid

theorem serves_next {walk : Walk} (hwalk : ∀ id ∈ walk.idsHeld, id < session.forest.size) :
    session.Serves (Action.look fun forest ↦ walk.next forest forest.base)
      fun after ↦ after.1.toList ++ after.2.idsHeld := by
  obtain ⟨position, seen⟩ := walk
  cases position with
  | before first =>
    have hfirst := hwalk first List.mem_cons_self
    exact h.serves_look (returns_pure _) (by simpa [Fits, Walk.idsHeld] using hfirst)
  | ended => exact h.serves_look (returns_pure _) fun _ hid ↦ nomatch hid
  | standing node =>
    have hnode := hwalk node List.mem_cons_self
    have hread := h.toValid.keeps_base node hnode
    cases hbase : session.baseOf node with
    | none =>
      rw [hbase] at hread
      exact h.serves_look (hread.bind (returns_pure _)) fun _ hid ↦ nomatch hid
    | some base =>
      rw [hbase] at hread
      have hlt := h.baseOf_lt hbase
      by_cases hseen : base ∈ seen
      · have hnext : Keeps session.Settled
            (Walk.next session.forest session.forest.base ⟨.standing node, seen⟩)
            (.ok (none, ⟨.ended, seen⟩)) := by
          refine hread.bind ?_
          simp only [if_pos hseen]
          exact (Walk.keeps_report_paths h.closed Valid.write_settled hnode hlt _).bind (returns_pure _)
        exact h.serves_look hnext fun _ hid ↦ nomatch hid
      · have hnext : Keeps session.Settled
            (Walk.next session.forest session.forest.base ⟨.standing node, seen⟩)
            (.ok (some base, ⟨.standing base, base :: seen⟩)) := by
          refine hread.bind ?_
          simp only [if_neg hseen]
          exact returns_pure _
        exact h.serves_look hnext (by simpa [Fits, Walk.idsHeld] using hlt)

end Session.Sound

/-- A call that asks `action` and keeps the walks open, or ends them where it is an edit. -/
theorem Session.Serves.withWalks {session : Session ε} {action : Action ε α} {gives : α → List NodeId}
    (hserves : session.Serves action gives)
    {outcome : α → Outcome ε} (houtcome : ∀ value, (outcome value).idsGiven = gives value) (edits : Bool)
    {walks : List Walk} (hwalks : ∀ id ∈ walks.flatMap Walk.idsHeld, id < session.forest.size) :
    session.Serves (action >>= fun value ↦ pure (outcome value, if edits then [] else walks))
      Outcome.idsLeft := by
  refine hserves.bind fun value between hbetween hgrows hvalue ↦ hbetween.serves_pure fun id hid ↦ ?_
  rcases List.mem_append.mp hid with hid | hid
  · exact hvalue id (houtcome value ▸ hid)
  · cases edits with
    | true => exact nomatch hid
    | false => exact Nat.lt_of_lt_of_le (hwalks id hid) hgrows

/-- What a call comes to that names ids of nodes which are there. -/
theorem Session.Sound.serves_call [Family ε] {session : Session ε} (h : session.Sound)
    {walks : List Walk} {call : Call ε}
    (hwalks : ∀ id ∈ walks.flatMap Walk.idsHeld, id < session.forest.size)
    (hids : ∀ id ∈ call.idsNamed, id < session.forest.size) :
    session.Serves (call.perform walks) Outcome.idsLeft := by
  cases call with
  | request asked =>
    exact (h.serves_request asked hids).withWalks (fun _ ↦ rfl) asked.isEdit hwalks
  | style asked =>
    exact (h.serves_styleRequest asked hids).withWalks (fun _ ↦ rfl) asked.isEdit hwalks
  | openWalk origin =>
    refine (h.serves_baseWalk (hids origin List.mem_cons_self)).bind
      fun walk between hbetween hgrows hwalk ↦ hbetween.serves_pure fun id hid ↦ ?_
    obtain ⟨other, hother, hid⟩ := List.mem_flatMap.mp hid
    rcases List.mem_append.mp hother with hother | hother
    · exact Nat.lt_of_lt_of_le (hwalks id (List.mem_flatMap.mpr ⟨other, hother, hid⟩)) hgrows
    · exact hwalk id (List.mem_singleton.mp hother ▸ hid)
  | advance index =>
    have hwalk : ∀ id ∈ (Call.walkAt walks index).idsHeld, id < session.forest.size := by
      intro id hid
      exact hwalks id (Walk.mem_idsHeld_of_mem_walkAt hid)
    refine (h.serves_next hwalk).bind fun (node, walk) between hbetween hgrows hnext ↦
      hbetween.serves_pure fun id hid ↦ ?_
    rcases List.mem_append.mp hid with hid | hheld
    · exact hnext id (List.mem_append_left _ hid)
    obtain ⟨other, hother, hid'⟩ := List.mem_flatMap.mp hheld
    rcases List.mem_or_eq_of_mem_set hother with hother | rfl
    · exact Nat.lt_of_lt_of_le (hwalks id (List.mem_flatMap.mpr ⟨other, hother, hid'⟩)) hgrows
    · exact hnext id (List.mem_append_right _ hid')

/-! ## Runs -/

/-- What holds of a client between its calls. -/
structure Client.Sound (client : Client ε) (given : List NodeId) : Prop where
  session : client.session.Sound
  walks_lt : ∀ id ∈ client.walks.flatMap Walk.idsHeld, id < client.session.forest.size
  given_lt : ∀ id ∈ given, id < client.session.forest.size

/-- A call that fails leaves no walk that holds more than was held before. -/
theorem Call.idsHeld_walksLeft {walks : List Walk} {call : Call ε} {id : NodeId}
    (hid : id ∈ (call.walksLeft walks).flatMap Walk.idsHeld) : id ∈ walks.flatMap Walk.idsHeld := by
  unfold walksLeft at hid
  split at hid
  next =>
    obtain ⟨walk, hwalk, hid⟩ := List.mem_flatMap.mp hid
    rcases List.mem_or_eq_of_mem_set hwalk with hwalk | rfl
    · exact List.mem_flatMap.mpr ⟨walk, hwalk, hid⟩
    · exact nomatch hid
  next =>
    split at hid
    · exact nomatch hid
    · exact hid

theorem Client.sound_start (recording : Bool) : (Client.start ε recording).Sound [] where
  session := by
    refine ⟨Session.valid_empty recording, fun id node hnode ↦ ?_, fun name id hid ↦ ?_⟩
    · exact absurd (Forest.lt_of_node?_eq hnode) (Nat.not_lt_zero id)
    · exact nomatch hid
  walks_lt _ hid := nomatch hid
  given_lt _ hid := nomatch hid

variable [Family ε] {client : Client ε} {given : List NodeId}

theorem Client.Sound.step {call : Call ε} (h : client.Sound given)
    (hcall : ∀ id ∈ call.idsNamed, id ∈ given) :
    (client.step call).2.Sound (given ++ Outcome.idsGivenBy (client.step call).1) ∧
      ∀ error, (client.step call).1 = .error error → error.IsRefusal := by
  obtain ⟨hsound, hgrows, hfits⟩ :=
    h.session.restart.serves_call h.walks_lt fun id hid ↦ h.given_lt id (hcall id hid)
  unfold Client.step Session.step
  rcases hrun : (call.perform client.walks).run
    { client.session with memo := client.session.memo.restart } with ⟨⟨error⟩ | ⟨outcome, walks⟩, after⟩
  all_goals rw [hrun] at hsound hgrows hfits
  · refine ⟨⟨hsound, fun id hid ↦ ?_, fun id hid ↦ ?_⟩, fun _ heq ↦ Except.error.inj heq ▸ hfits⟩
    · exact Nat.lt_of_lt_of_le (h.walks_lt id (Call.idsHeld_walksLeft hid)) hgrows
    · rcases List.mem_append.mp hid with hid | hid
      · exact Nat.lt_of_lt_of_le (h.given_lt id hid) hgrows
      · exact nomatch hid
  · refine ⟨⟨hsound, fun id hid ↦ hfits id (List.mem_append_right _ hid), fun id hid ↦ ?_⟩, nofun⟩
    rcases List.mem_append.mp hid with hid | hid
    · exact Nat.lt_of_lt_of_le (h.given_lt id hid) hgrows
    · exact hfits id (List.mem_append_left _ hid)

theorem Reaches.sound (h : Reaches client given) : client.Sound given := by
  induction h with
  | start recording => exact Client.sound_start recording
  | step _ hcall ih => exact (ih.step hcall).1

/-- The session of a client that names only what it was given is sound, and no call of such a client
fails but by a refusal. -/
theorem Reaches.serves (h : Reaches client given) : client.session.Sound ∧
    ∀ call : Call ε, (∀ id ∈ call.idsNamed, id ∈ given) →
      ∀ error, (client.step call).1 = .error error → error.IsRefusal :=
  ⟨h.sound.session, fun _ hcall ↦ (h.sound.step hcall).2⟩

/-- A node that is its own base: following bases strictly from it is refused. -/
theorem Reaches.loop_serves :
    let add : Call Unit := .request (.edit (.addRoot "loop" ()))
    let extend : Call Unit := .request (.edit (.extend 0 0))
    let client := (Client.start Unit true).after [add, extend]
    Reaches client [0] ∧ client.session.Sound ∧
      (client.step (.request (.query (.strictInheritance 0)))).1 = .error (.cycle ["loop", "loop"]) ∧
      Error.IsRefusal (.cycle ["loop", "loop"]) := by
  intro add extend client
  have hadd : ∀ id ∈ add.idsNamed, id ∈ ([] : List NodeId) := by decide
  have hextend : ∀ id ∈ extend.idsNamed, id ∈ [0] := by decide
  have hclient : Reaches client [0] := ((Reaches.start true).step hadd).step hextend
  have hrefused : (client.step (.request (.query (.strictInheritance 0)))).1 =
      .error (.cycle ["loop", "loop"]) := rfl
  have hserves := Reaches.serves hclient
  exact ⟨hclient, hserves.1, hrefused, hserves.2 _ (by decide) _ hrefused⟩

end Lineage
