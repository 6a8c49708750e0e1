import Lineage.Request
import Lineage.Proofs.Meaning
import Lineage.Proofs.Lookup

/-!
# How edits change a session

An edit adds a node, changes what one node says, or fills the slot of the node whose base it sets.
This module says what names, parents and children there are after each of these, to what an edit
comes as a whole, and that a session stays valid.
-/

namespace Lineage

namespace Forest

variable {ε : Type} {forest : Forest ε}

/-! ## One more node -/

section Add

variable (name : String) (payload : ε) (parent root : Option NodeId) (id : NodeId)

theorem node?_add : (forest.add name payload parent root).node? id =
    if id = forest.size then some ⟨name, parent, root.getD forest.size, .empty, none, payload⟩
    else forest.node? id := by
  unfold node? add
  exact Array.getElem?_push

theorem nameOf_add : (forest.add name payload parent root).nameOf id =
    if id = forest.size then some name else forest.nameOf id := by
  unfold nameOf
  rw [node?_add]
  split <;> rfl

theorem parentOf_add : (forest.add name payload parent root).parentOf id =
    if id = forest.size then parent else forest.parentOf id := by
  unfold parentOf
  rw [node?_add]
  split <;> rfl

/-- A new node has no children yet. -/
theorem childNamed_add (key : String) :
    (forest.add name payload parent root).childNamed key id = forest.childNamed key id := by
  unfold childNamed
  rw [node?_add]
  split
  next h =>
    rw [node?_eq_none (h ▸ Nat.lt_irrefl forest.size)]
    rfl
  next => rfl

end Add

/-! ## A node that changes -/

section Modify

variable {id : NodeId} {change : Node ε → Node ε}

theorem nameOf_modify (h : ∀ node, (change node).name = node.name) (other : NodeId) :
    (forest.modify id change).nameOf other = forest.nameOf other := by
  unfold nameOf
  rw [node?_modify]
  split
  next => cases forest.node? other <;> simp [h]
  next => rfl

theorem parentOf_modify (h : ∀ node, (change node).parent = node.parent) (other : NodeId) :
    (forest.modify id change).parentOf other = forest.parentOf other := by
  unfold parentOf
  rw [node?_modify]
  split
  next => cases forest.node? other <;> simp [h]
  next => rfl

theorem childNamed_modify (h : ∀ node, (change node).children = node.children) (key : String)
    (other : NodeId) : (forest.modify id change).childNamed key other = forest.childNamed key other := by
  unfold childNamed
  rw [node?_modify]
  split
  next => cases forest.node? other <;> simp [h]
  next => rfl

theorem childNamed_setBaseName (baseName key : String) (other : NodeId) :
    (forest.modify id fun node ↦ { node with baseName := some baseName }).childNamed key other =
      forest.childNamed key other := by
  apply childNamed_modify
  exact fun _ ↦ rfl

theorem childNamed_register (hid : id < forest.size) (name key : String) (child other : NodeId) :
    (forest.modify id fun node ↦ { node with children := node.children.insert name child }).childNamed
      key other = if other = id ∧ key = name then some child else forest.childNamed key other := by
  obtain ⟨node, hnode⟩ := exists_node?_of_lt hid
  unfold childNamed
  rw [node?_modify]
  by_cases hother : other = id
  · subst hother
    rw [if_pos rfl, hnode]
    simp [NameMap.find?_insert]
  · rw [if_neg hother, if_neg fun hand ↦ hother hand.1]

end Modify

end Forest

/-- The memo with a report of what was known of a base that is about to be set. -/
def Memo.noteOverwrite (memo : Memo) (id : NodeId) (name baseName : String) : Memo :=
  match (memo.slot id).outcome with
  | some previous => memo.write (.overwritten name previous baseName)
  | none => memo

theorem Memo.slots_noteOverwrite (memo : Memo) (id : NodeId) (name baseName : String) :
    (memo.noteOverwrite id name baseName).slots = memo.slots := by
  unfold noteOverwrite
  split <;> rfl

theorem Memo.slots_fill_noteOverwrite (memo : Memo) (id : NodeId) (name baseName : String) (slot : Slot) :
    ((memo.noteOverwrite id name baseName).fill id slot).slots = (memo.fill id slot).slots := by
  unfold fill
  rw [slots_noteOverwrite]

namespace Action

variable {ε : Type} {session : Session ε}

/-! ## What edits come to -/

theorem run_look {α : Type} {read : Forest ε → Lookup α} {result : Except Error α} {memo : Memo}
    (h : (read session.forest).run session.memo = (result, memo)) :
    (look read).run session = (result, ⟨session.forest, memo⟩) := by
  change (((read session.forest).run session.memo).1,
    (⟨session.forest, ((read session.forest).run session.memo).2⟩ : Session ε)) = _
  rw [h]

theorem run_report_pure (event : Event) (memo : Memo) :
    (Lookup.report (pure event)).run memo = (.ok (), memo.write event) := by
  obtain ⟨slots, _ | events⟩ := memo <;> rfl

theorem run_overwriteSlot (id : NodeId) (name baseName : String) (base : Option NodeId) (memo : Memo) :
    (overwriteSlot id name baseName base).run memo =
      (.ok (), (memo.noteOverwrite id name baseName).fill id (.resolved base)) := by
  have hslot : (Lookup.slot id).run memo = (.ok (memo.slot id), memo) := rfl
  unfold overwriteSlot Memo.noteOverwrite
  rw [Lookup.run_bind, hslot]
  dsimp only
  cases (memo.slot id).outcome with
  | none => rfl
  | some previous =>
    rw [Lookup.run_bind, run_report_pure]
    rfl

section Node

variable {id : NodeId} {node : Node ε} (hnode : session.forest.node? id = some node)
include hnode

theorem run_node_bind {α : Type} (next : Node ε → Action ε α) :
    ((liftM (session.forest.node id) : Action ε (Node ε)) >>= next).run session =
      (next node).run session := by
  rw [Forest.node_eq_ok hnode]
  rfl

theorem run_modifyNode (change : Node ε → Node ε) : (modifyNode id change).run session =
    (.ok (), ⟨session.forest.modify id change, session.memo⟩) :=
  run_node_bind hnode _

theorem run_register (name : String) (child : NodeId) : (register id name child).run session =
    (.ok child, ⟨session.forest.modify id fun node ↦
      { node with children := node.children.insert name child }, session.memo⟩) := by
  unfold register
  rw [Lookup.run_bind, run_modifyNode hnode]
  rfl

theorem run_obtainChild_known [Family ε] {name : String} {child : NodeId}
    (hfind : node.children.find? name = some child) :
    (obtainChild id name).run session = (.ok child, session) := by
  refine (run_node_bind hnode _).trans ?_
  rw [hfind]
  rfl

/-- Below a leaf there is no child to be had, and the session stays as it is. -/
theorem run_obtainChild_leaf [Family ε] {name : String} (hfind : node.children.find? name = none)
    (hpayload : Family.childPayload? node.payload name = none) :
    (obtainChild id name).run session =
      ((session.forest.path id).bind fun path ↦ .error (.childOfLeaf path name), session) := by
  have hrun : (obtainChild id name).run session = ((do
      throw (.childOfLeaf (← session.forest.path id) name)) : Action ε NodeId).run session := by
    refine (run_node_bind hnode _).trans ?_
    rw [hfind, hpayload]
  rw [hrun]
  cases session.forest.path id with
  | ok path => rfl
  | error error => rfl

/-- A child that is not there yet is added and registered at its parent. -/
theorem run_obtainChild_new [Family ε] {name : String} {payload : ε}
    (hfind : node.children.find? name = none)
    (hpayload : Family.childPayload? node.payload name = some payload) :
    (obtainChild id name).run session = (.ok session.forest.size,
      ⟨(session.forest.add name payload (some id) (some node.root)).modify id fun node ↦
        { node with children := node.children.insert name session.forest.size },
      session.memo.grow⟩) := by
  let added : Session ε :=
    ⟨session.forest.add name payload (some id) (some node.root), session.memo.grow⟩
  have hadded : added.forest.node? id = some node := by
    rw [← hnode]
    exact Forest.node?_add_of_lt (Forest.lt_of_node?_eq hnode) ..
  have hrun : (obtainChild id name).run session =
      (register id name session.forest.size).run added := by
    refine (run_node_bind hnode _).trans ?_
    rw [hfind, hpayload]
    rfl
  rw [hrun, run_register hadded]

theorem run_declareBase (baseName : String) (base : Option NodeId) :
    (declareBase id baseName base).run session = (.ok (),
      ⟨session.forest.modify id fun node ↦ { node with baseName := some baseName },
      (session.memo.noteOverwrite id node.name baseName).fill id (.resolved base)⟩) := by
  have hrun := run_overwriteSlot id node.name baseName base session.memo
  have hlooked : (⟨session.forest, (session.memo.noteOverwrite id node.name baseName).fill id
      (.resolved base)⟩ : Session ε).forest.node? id = some node := hnode
  refine (run_node_bind hnode _).trans ?_
  rw [Lookup.run_bind, run_look hrun]
  exact run_modifyNode hlooked _

end Node

theorem run_extend {id base : NodeId} {path : String} (hpath : session.forest.path base = .ok path) :
    (extend id base).run session = (declareBase id path (some base)).run session := by
  change ((liftM (session.forest.path base) : Action ε String) >>= fun _ ↦ _).run session = _
  rw [hpath]
  rfl

section NoNode

variable {id : NodeId} (hid : ¬ id < session.forest.size)
include hid

/-- Where there is no node, nothing happens. -/
theorem run_node_bind_error {α : Type} (next : Node ε → Action ε α) :
    ((liftM (session.forest.node id) : Action ε (Node ε)) >>= next).run session =
      (.error (.outOfRange id session.forest.size), session) := by
  rw [Forest.node_eq_error hid]
  rfl

theorem run_modifyNode_error (change : Node ε → Node ε) : (modifyNode id change).run session =
    (.error (.outOfRange id session.forest.size), session) :=
  run_node_bind_error hid _

theorem run_obtainChild_error [Family ε] (name : String) : (obtainChild id name).run session =
    (.error (.outOfRange id session.forest.size), session) :=
  run_node_bind_error hid _

theorem run_declareBase_error (baseName : String) (base : Option NodeId) :
    (declareBase id baseName base).run session =
      (.error (.outOfRange id session.forest.size), session) :=
  run_node_bind_error hid _

end NoNode

theorem run_extend_error {id base : NodeId} {error : Error} (hpath : session.forest.path base = .error error) :
    (extend id base).run session = (.error error, session) := by
  change ((liftM (session.forest.path base) : Action ε String) >>= fun _ ↦ _).run session = _
  rw [hpath]
  rfl

/-- What asking for a child comes to: the child was there, or there is none to be had, or it is new. -/
theorem run_obtainChild_cases [Family ε] (session : Session ε) (id : NodeId) (name : String) :
    (∃ child, session.forest.childNamed name id = some child ∧
      (obtainChild id name).run session = (.ok child, session)) ∨
    (∃ error, (obtainChild id name).run session = (.error error, session)) ∨
    ∃ node payload, session.forest.node? id = some node ∧ node.children.find? name = none ∧
      Family.childPayload? node.payload name = some payload ∧
      (obtainChild id name).run session = (.ok session.forest.size,
        ⟨(session.forest.add name payload (some id) (some node.root)).modify id fun node ↦
          { node with children := node.children.insert name session.forest.size },
        session.memo.grow⟩) := by
  by_cases hid : id < session.forest.size
  · obtain ⟨node, hnode⟩ := Forest.exists_node?_of_lt hid
    cases hfind : node.children.find? name with
    | some child =>
      exact .inl ⟨child, (Forest.childNamed_eq hnode name).trans hfind, run_obtainChild_known hnode hfind⟩
    | none =>
      cases hpayload : Family.childPayload? node.payload name with
      | none =>
        have hrun := run_obtainChild_leaf hnode hfind hpayload
        cases hpath : session.forest.path id with
        | ok path => exact .inr (.inl ⟨_, by rw [hrun, hpath]; rfl⟩)
        | error error => exact .inr (.inl ⟨error, by rw [hrun, hpath]; rfl⟩)
      | some payload =>
        exact .inr (.inr ⟨node, payload, hnode, hfind, hpayload, run_obtainChild_new hnode hfind hpayload⟩)
  · exact .inr (.inl ⟨_, run_obtainChild_error hid name⟩)

/-- What asking for a child keeps of a session, asking for a selector keeps. -/
theorem run_obtainSelector_induction (kept : Session Style → Prop)
    (hchild : ∀ session id name, kept session → kept ((obtainChild id name).run session).2)
    {session : Session Style} (h : kept session) (id : NodeId) (className : String) (state : Option String) :
    kept ((Style.obtainSelector id className state).run session).2 := by
  have hclass := hchild session id className h
  unfold Style.obtainSelector
  rw [Lookup.run_bind]
  rcases hrun : (obtainChild id className).run session with ⟨_ | classId, between⟩
  all_goals rw [hrun] at hclass
  · exact hclass
  · cases state with
    | none => exact hclass
    | some state => exact hchild between classId state hclass

/-- Where a child is obtained that was not there, it is the new node. -/
theorem exists_run_obtainChild_eq [Family ε] {id child : NodeId} {name : String}
    (hnone : session.forest.childNamed name id = none)
    (h : ((obtainChild id name).run session).1 = .ok child) :
    ∃ payload root, (obtainChild id name).run session = (.ok session.forest.size,
      ⟨(session.forest.add name payload (some id) root).modify id fun node ↦
        { node with children := node.children.insert name session.forest.size },
      session.memo.grow⟩) := by
  rcases run_obtainChild_cases session id name with
    ⟨known, hknown, _⟩ | ⟨error, hrun⟩ | ⟨node, payload, _, _, _, hrun⟩
  · exact nomatch hnone.symm.trans hknown
  · rw [hrun] at h
    exact nomatch h
  · exact ⟨payload, some node.root, hrun⟩

/-- Where a child is obtained, it was there already or is the new node. -/
theorem obtainChild_cases [Family ε] {id child : NodeId} {name : String}
    (h : ((obtainChild id name).run session).1 = .ok child) :
    ((obtainChild id name).run session).2 = session ∨
      id < session.forest.size ∧ session.forest.childNamed name id = none ∧
      ∃ payload root, ((obtainChild id name).run session).2 =
        ⟨(session.forest.add name payload (some id) root).modify id fun node ↦
          { node with children := node.children.insert name session.forest.size },
        session.memo.grow⟩ := by
  rcases run_obtainChild_cases session id name with
    ⟨known, _, hrun⟩ | ⟨error, hrun⟩ | ⟨node, payload, hnode, hfind, _, hrun⟩
  · exact .inl (congrArg Prod.snd hrun)
  · rw [hrun] at h
    exact nomatch h
  · exact .inr ⟨Forest.lt_of_node?_eq hnode, (Forest.childNamed_eq hnode name).trans hfind, payload,
      some node.root, congrArg Prod.snd hrun⟩

end Action

/-! ## Sessions stay valid -/

namespace Session

variable {ε : Type} {session : Session ε}

namespace Valid

variable (h : session.Valid)
include h

theorem of_slots_eq {memo : Memo} (hslots : memo.slots = session.memo.slots) :
    Valid ⟨session.forest, memo⟩ := by
  refine ⟨h.closed, hslots ▸ h.slots_size, fun id base hbase ↦ ?_, fun id hresolving ↦ ?_⟩
  · rw [Memo.slot_eq_of_slots_eq hslots] at hbase
    exact h.base_lt hbase
  · rw [Memo.slot_eq_of_slots_eq hslots] at hresolving
    exact h.settled id hresolving

theorem add {parent : Option NodeId} (hparent : ∀ id ∈ parent, id < session.forest.size)
    (name : String) (payload : ε) (root : Option NodeId) :
    Valid ⟨session.forest.add name payload parent root, session.memo.grow⟩ where
  closed.parent_lt id above habove := by
    rw [Forest.parentOf_add] at habove
    split at habove
    next hid => exact hid ▸ hparent above habove
    next => exact h.closed.parent_lt habove
  closed.child_lt id key child hchild := by
    rw [Forest.childNamed_add] at hchild
    rw [Forest.size_add]
    exact Nat.lt_succ_of_lt (h.closed.child_lt hchild)
  slots_size := by simp [Memo.grow, h.slots_size]
  base_lt id base hbase := by
    rw [Memo.slot_grow] at hbase
    rw [Forest.size_add]
    exact Nat.lt_succ_of_lt (h.base_lt hbase)
  settled id := by
    rw [Memo.slot_grow]
    exact h.settled id

/-- A forest may change as long as no parent does and every child is still there. -/
theorem of_forest {forest : Forest ε} (hsize : forest.size = session.forest.size)
    (hparent : ∀ id, forest.parentOf id = session.forest.parentOf id)
    (hchild : ∀ id name child, forest.childNamed name id = some child → child < session.forest.size) :
    Valid ⟨forest, session.memo⟩ where
  closed.parent_lt id _ hid := h.closed.parent_lt (hparent id ▸ hid)
  closed.child_lt id name child hid := hsize ▸ hchild id name child hid
  slots_size := h.slots_size.trans hsize.symm
  base_lt _ _ hbase := hsize ▸ h.base_lt hbase
  settled := h.settled

theorem resolve {id : NodeId} {base : Option NodeId} {memo : Memo}
    (hbase : ∀ found ∈ base, found < session.forest.size)
    (hslots : memo.slots = (session.memo.fill id (.resolved base)).slots) :
    Valid ⟨session.forest, memo⟩ := by
  have hslot : ∀ other, memo.slot other = .resolved base ∨ memo.slot other = session.memo.slot other := by
    intro other
    rw [Memo.slot_eq_of_slots_eq hslots, Memo.slot_fill]
    split
    next => exact .inl rfl
    next => exact .inr rfl
  refine ⟨h.closed, ?_, fun other found hfound ↦ ?_, fun other hresolving ↦ ?_⟩
  · rw [hslots, Memo.size_fill]
    exact h.slots_size
  · rcases hslot other with hfilled | hsame
    · rw [hfilled] at hfound
      exact hbase found (Slot.resolved.inj hfound)
    · exact h.base_lt (hsame.symm.trans hfound)
  · rcases hslot other with hfilled | hsame
    · simp [hfilled] at hresolving
    · exact h.settled other (hsame.symm.trans hresolving)

end Valid

end Session

end Lineage
