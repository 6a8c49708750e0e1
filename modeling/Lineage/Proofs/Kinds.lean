import Lineage.Proofs.Depth

/-!
# Kinds

Blocks hold classes and classes hold states, so the kind of a node should follow from its depth.  No
operation checks that.  It holds because a root-level node is added as a block and any other node is
obtained as a child, whose payload the family chooses; pushing declarations leaves kinds alone.

A forest is `Tiered` if it is orderly and the kind of each node is that of its depth.  Calls that keep
to these ways of adding nodes (`Call.keepsKinds`) keep a forest tiered, whether they fail or not
(`Client.tiered_step`, `Client.tiered_after`).
-/

namespace Lineage

namespace Style

/-! ## Kinds and depths -/

/-- The kind of the nodes with so many parents above them.  There are none below states. -/
def Kind.ofDepth? : Nat → Option Kind
  | 0 => some block
  | 1 => some styleClass
  | 2 => some state
  | _ + 3 => none

theorem Kind.ofDepth?_succ (depth : Nat) : ofDepth? (depth + 1) = (ofDepth? depth).bind child? := by
  rcases depth with _ | _ | _ | depth <;> rfl

theorem Kind.child?_eq_none_iff (kind : Kind) : kind.child? = none ↔ kind = .state := by
  cases kind <;> simp [child?]

theorem childPayload?_eq_none_iff (style : Style) (name : String) :
    Family.childPayload? style name = none ↔ style.kind = .state :=
  Option.map_eq_none_iff.trans style.kind.child?_eq_none_iff

theorem kind_of_childPayload? {style payload : Style} {name : String}
    (h : Family.childPayload? style name = some payload) : style.kind.child? = some payload.kind := by
  obtain ⟨kind, hkind, rfl⟩ := Option.map_eq_some_iff.mp h
  exact hkind

end Style

open Style (Kind)

namespace Forest

/-! ## Tiered forests -/

def kindAt (forest : Forest Style) (id : NodeId) : Option Kind :=
  (forest.node? id).map (·.payload.kind)

/-- An orderly forest in which the kind of each node is that of its depth. -/
structure Tiered (forest : Forest Style) : Prop where
  orderly : forest.Orderly
  kind : ∀ ⦃id⦄, id < forest.size → forest.kindAt id = Kind.ofDepth? (forest.depth id)

variable {forest : Forest Style} {id : NodeId} {kind : Kind}

theorem kindAt_eq {node : Node Style} (hnode : forest.node? id = some node) :
    forest.kindAt id = some node.payload.kind := by
  simp [kindAt, hnode]

theorem exists_kindAt_of_lt (hid : id < forest.size) : ∃ kind, forest.kindAt id = some kind := by
  obtain ⟨node, hnode⟩ := exists_node?_of_lt hid
  exact ⟨_, kindAt_eq hnode⟩

theorem kindOf_eq_ok_iff : Style.kindOf forest id = .ok kind ↔ forest.kindAt id = some kind := by
  unfold Style.kindOf kindAt
  by_cases hid : id < forest.size
  · obtain ⟨node, hnode⟩ := exists_node?_of_lt hid
    rw [node_eq_ok hnode, hnode, Option.map_some, Option.some_inj]
    exact ⟨Except.ok.inj, congrArg Except.ok⟩
  · rw [node_eq_error hid, node?_eq_none hid]
    exact iff_of_false nofun nofun

theorem kindAt_add (name : String) (payload : Style) (parent root : Option NodeId) (id : NodeId) :
    (forest.add name payload parent root).kindAt id =
      if id = forest.size then some payload.kind else forest.kindAt id := by
  unfold kindAt
  rw [node?_add]
  split <;> rfl

theorem kindAt_modify {change : Node Style → Node Style}
    (h : ∀ node, (change node).payload.kind = node.payload.kind) (other : NodeId) :
    (forest.modify id change).kindAt other = forest.kindAt other := by
  unfold kindAt
  rw [node?_modify]
  split
  next => cases forest.node? other <;> simp [h]
  next => rfl

theorem tiered_empty : (empty : Forest Style).Tiered :=
  ⟨orderly_empty, fun id hid ↦ absurd hid (Nat.not_lt_zero id)⟩

namespace Tiered

variable (h : forest.Tiered)
include h

theorem kind_of_parent {parent : NodeId} (hparent : forest.parentOf id = some parent) :
    forest.kindAt id = (forest.kindAt parent).bind Kind.child? := by
  have hid := lt_of_parentOf_eq_some hparent
  have hlt := Nat.lt_trans (h.orderly.parent_lt hparent) hid
  rw [h.kind hid, h.kind hlt, h.orderly.closed.depth_of_parent hparent, Kind.ofDepth?_succ]

/-- A state has no children. -/
theorem childNamed_of_state (hstate : forest.kindAt id = some .state) (name : String) :
    forest.childNamed name id = none := by
  refine Option.eq_none_iff_forall_ne_some.mpr fun child hchild ↦ ?_
  have hparent := (h.orderly.child_iff.mp hchild).1
  obtain ⟨kind, hkind⟩ := exists_kindAt_of_lt (lt_of_parentOf_eq_some hparent)
  rw [h.kind_of_parent hparent, hstate] at hkind
  exact nomatch hkind

end Tiered

end Forest

/-! ## Edits -/

namespace Session

variable {session after : Session Style} {set? : Option (NodeId × Option NodeId)}
  (h : session.forest.Tiered)
include h

namespace Change

theorem tiered_of_same (hchange : Change set? session after) (hsize : after.forest.size = session.forest.size)
    (hkind : ∀ id, after.forest.kindAt id = session.forest.kindAt id) : after.forest.Tiered where
  orderly := hchange.orderly h.orderly
  kind id hid := by
    rw [hsize] at hid
    rw [hkind, h.kind hid, hchange.grows.depth h.orderly.closed hid]

/-- One more node keeps a forest tiered if its kind is that of its depth. -/
theorem tiered_of_one_more {kind : Kind} (hchange : Change set? session after)
    (hsize : after.forest.size = session.forest.size + 1)
    (hkind : ∀ id, after.forest.kindAt id =
      if id = session.forest.size then some kind else session.forest.kindAt id)
    (hnew : some kind = Kind.ofDepth? (after.forest.depth session.forest.size)) : after.forest.Tiered where
  orderly := hchange.orderly h.orderly
  kind id hid := by
    rw [hkind]
    split
    next heq => rw [heq, hnew]
    next hne =>
      have hle := Nat.le_of_lt_succ (Nat.lt_of_lt_of_eq hid hsize)
      have hold := Nat.lt_of_le_of_ne hle hne
      rw [h.kind hold, hchange.grows.depth h.orderly.closed hold]

end Change

theorem tiered_addRoot (name : String) {payload : Style} (hblock : payload.kind = .block) :
    ((Action.addRoot name payload).run session).2.forest.Tiered := by
  have hchange : Change none session
      ⟨session.forest.add name payload none none, session.memo.grow⟩ := .addRoot name payload
  apply hchange.tiered_of_one_more h (Forest.size_add ..) (Forest.kindAt_add name payload none none)
  rw [Forest.depth_of_not_parent, hblock]
  · rfl
  · exact (Forest.parentOf_add ..).trans (if_pos rfl)

theorem tiered_addChild {id : NodeId} {node : Node Style} {name : String} {payload : Style}
    (hnode : session.forest.node? id = some node) (hfind : node.children.find? name = none)
    (hpayload : node.payload.kind.child? = some payload.kind) :
    ((session.forest.add name payload (some id) (some node.root)).modify id fun node ↦
      { node with children := node.children.insert name session.forest.size }).Tiered := by
  let added := session.forest.add name payload (some id) (some node.root)
  let register : Node Style → Node Style :=
    fun node ↦ { node with children := node.children.insert name session.forest.size }
  have hchange : Change none session ⟨added.modify id register, session.memo.grow⟩ :=
    .addChild payload hnode hfind
  have hkind : ∀ other, (added.modify id register).kindAt other = added.kindAt other :=
    Forest.kindAt_modify fun _ ↦ rfl
  have hparent : ∀ other, (added.modify id register).parentOf other = added.parentOf other :=
    Forest.parentOf_modify fun _ ↦ rfl
  have hnew : (added.modify id register).parentOf session.forest.size = some id := by
    rw [hparent, Forest.parentOf_add, if_pos rfl]
  have hid := Forest.lt_of_node?_eq hnode
  apply hchange.tiered_of_one_more h
  · exact (Forest.size_modify ..).trans (Forest.size_add ..)
  · exact fun other ↦ (hkind other).trans (Forest.kindAt_add ..)
  · calc
      some payload.kind = (session.forest.kindAt id).bind Kind.child? := by
        rw [Forest.kindAt_eq hnode, Option.bind_some, hpayload]
      _ = Kind.ofDepth? (session.forest.depth id + 1) := by
        rw [h.kind hid, Kind.ofDepth?_succ]
      _ = Kind.ofDepth? ((added.modify id register).depth session.forest.size) := by
        rw [(hchange.orderly h.orderly).closed.depth_of_parent hnew,
          hchange.grows.depth h.orderly.closed hid]

theorem tiered_obtainChild (id : NodeId) (name : String) :
    ((Action.obtainChild id name).run session).2.forest.Tiered := by
  rcases Action.run_obtainChild_cases session id name with
    ⟨_, _, hrun⟩ | ⟨_, hrun⟩ | ⟨node, payload, hnode, hfind, hpayload, hrun⟩
  all_goals rw [hrun]
  · exact h
  · exact h
  · exact tiered_addChild h hnode hfind (Style.kind_of_childPayload? hpayload)

theorem tiered_obtainSelector (id : NodeId) (className : String) (state : Option String) :
    ((Style.obtainSelector id className state).run session).2.forest.Tiered :=
  Action.run_obtainSelector_induction (·.forest.Tiered)
    (fun _ id name hbetween ↦ tiered_obtainChild hbetween id name) h id className state

theorem tiered_declare (id : NodeId) (text : String) :
    ((Style.declare id text).run session).2.forest.Tiered := by
  unfold Style.declare
  by_cases hid : id < session.forest.size
  · obtain ⟨node, hnode⟩ := Forest.exists_node?_of_lt hid
    rw [Action.run_modifyNode hnode]
    let push : Style → Style := fun style ↦ { style with declarations := style.declarations ++ [text] }
    have hchange : Change none session
        ⟨session.forest.modify id fun node ↦ { node with payload := push node.payload }, session.memo⟩ :=
      .setPayload id push
    apply hchange.tiered_of_same h (Forest.size_modify ..)
    exact Forest.kindAt_modify fun _ ↦ rfl
  · rw [Action.run_modifyNode_error hid]
    exact h

theorem tiered_declareBase (id : NodeId) (baseName : String) (base : Option NodeId) :
    ((Action.declareBase id baseName base).run session).2.forest.Tiered := by
  by_cases hid : id < session.forest.size
  · obtain ⟨node, hnode⟩ := Forest.exists_node?_of_lt hid
    rw [Action.run_declareBase hnode]
    have hchange : Change (some (id, base)) session _ := .setBase baseName hnode rfl
    apply hchange.tiered_of_same h (Forest.size_modify ..)
    exact Forest.kindAt_modify fun _ ↦ rfl
  · rw [Action.run_declareBase_error hid]
    exact h

theorem tiered_extend (id base : NodeId) :
    ((Action.extend id base).run session).2.forest.Tiered := by
  cases hpath : session.forest.path base with
  | ok path =>
    rw [Action.run_extend hpath]
    exact tiered_declareBase h id path (some base)
  | error error =>
    rw [Action.run_extend_error hpath]
    exact h

end Session

/-! ## Calls -/

/-- An edit that adds root-level nodes as blocks only, other nodes as children that are obtained, and
replaces no payload. -/
def Edit.keepsKinds : Edit Style → Bool
  | addRoot _ payload => payload.kind = .block
  | obtainChild .. | declareBase .. | extend .. => true
  | insert .. | register .. | replacePayload .. => false

def Request.keepsKinds : Request Style → Bool
  | edit change => change.keepsKinds
  | view _ | query _ => true

def Style.Request.keepsKinds : Style.Request → Bool
  | general request => request.keepsKinds
  | addBlock _ | obtainSelector .. | kind _ | visibleDeclarations _ | declare .. => true

def Call.keepsKinds : Call Style → Bool
  | .request asked => asked.keepsKinds
  | .style asked => asked.keepsKinds
  | .openWalk _ | .advance _ => true

namespace Session

variable {session : Session Style}

theorem tiered_map {α β : Type} {action : Action Style α} (h : (action.run session).2.forest.Tiered)
    (f : α → β) : ((action >>= fun value ↦ pure (f value)).run session).2.forest.Tiered := by
  rwa [Lookup.run_map]

variable (h : session.forest.Tiered)
include h

theorem tiered_edit {edit : Edit Style} (hedit : edit.keepsKinds = true) :
    (edit.perform.run session).2.forest.Tiered := by
  cases edit with
  | addRoot name payload => exact tiered_map (tiered_addRoot h name (of_decide_eq_true hedit)) Reply.id
  | obtainChild id name => exact tiered_map (tiered_obtainChild h id name) Reply.id
  | declareBase id baseName base =>
    exact tiered_map (tiered_declareBase h id baseName base) fun _ ↦ Reply.done
  | extend id base => exact tiered_map (tiered_extend h id base) fun _ ↦ Reply.done
  | insert | register | replacePayload => exact nomatch hedit

theorem tiered_styleRequest {request : Style.Request} (hedit : request.isEdit = true)
    (hrequest : request.keepsKinds = true) : (request.answer.run session).2.forest.Tiered := by
  cases request with
  | general request =>
    cases request with
    | edit change => exact tiered_map (tiered_edit h hrequest) Style.Reply.general
    | view | query => exact nomatch hedit
  | addBlock name => exact tiered_map (tiered_addRoot h name rfl) _
  | obtainSelector id className state => exact tiered_map (tiered_obtainSelector h id className state) _
  | declare id text => exact tiered_map (tiered_declare h id text) _
  | kind | visibleDeclarations => exact nomatch hedit

end Session

namespace Client

theorem tiered_step {client : Client Style} {call : Call Style} (h : client.session.forest.Tiered)
    (hcall : call.keepsKinds = true) : (client.step call).2.session.forest.Tiered := by
  cases hedit : call.isEdit with
  | false =>
    rw [forest_step_of_read client hedit]
    exact h
  | true =>
    rw [step_session]
    have hrestart : Forest.Tiered
        (⟨client.session.forest, client.session.memo.restart⟩ : Session Style).forest := h
    cases call with
    | request asked =>
      cases asked with
      | edit change => exact Session.tiered_map (Session.tiered_edit hrestart hcall) _
      | view | query => exact nomatch hedit
    | style asked => exact Session.tiered_map (Session.tiered_styleRequest hrestart hedit hcall) _
    | openWalk | advance => exact nomatch hedit

/-- After any calls that keep kinds, failing ones and reads among them, kinds go by depths. -/
theorem tiered_after {client : Client Style} {calls : List (Call Style)}
    (h : client.session.forest.Tiered) (hcalls : ∀ call ∈ calls, call.keepsKinds = true) :
    (client.after calls).session.forest.Tiered :=
  after_induction (·.session.forest.Tiered) (fun call hcall _ h ↦ tiered_step h (hcalls call hcall)) h

end Client

end Lineage
