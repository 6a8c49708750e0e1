import Lineage.Request
import Lineage.Proofs.BaseRead

/-!
# Reading chains and children

The chain of a node is the trail along `baseOf` that sets out from it, whatever has been read before,
and what a node inherits is read off that trail.  At a node of a valid session these reads succeed.
-/

namespace Lineage.Session.Valid

open Lookup

variable {ε : Type} {session : Session ε} (h : session.Valid)
include h

theorem exists_trail {id : NodeId} (hid : id < session.forest.size) :
    ∃ line, Trail session.baseOf [id] id line :=
  Trail.exists_trail h.baseOf_lt hid

theorem trail_lt {id : NodeId} {line : List NodeId} (hline : Trail session.baseOf [id] id line) :
    ∀ met ∈ line, met < session.forest.size := by
  intro met hmet
  obtain ⟨_, hmet⟩ := hline.exists_next_eq hmet
  exact h.baseOf_lt hmet

theorem cons_trail_lt {id : NodeId} {line : List NodeId} (hid : id < session.forest.size)
    (hline : Trail session.baseOf [id] id line) : ∀ met ∈ id :: line, met < session.forest.size :=
  List.forall_mem_cons.mpr ⟨hid, h.trail_lt hline⟩

theorem length_lt_walkLimit {id : NodeId} {line : List NodeId} (hid : id < session.forest.size)
    (hline : Trail session.baseOf [id] id line) : line.length < session.forest.walkLimit := by
  have hlength := hline.length_add_length_le h.baseOf_lt (List.nodup_singleton id) (by simpa)
  simp only [List.length_singleton] at hlength
  unfold Forest.walkLimit
  omega

omit h in
theorem write_settled : ∀ memo event, session.Settled memo → session.Settled (memo.write event) :=
  fun _ event hmemo ↦ hmemo.write event

theorem keeps_baseWalk {id : NodeId} {line : List NodeId} (hid : id < session.forest.size)
    (hline : Trail session.baseOf [id] id line) :
    ∃ walk, Keeps session.Settled (session.forest.baseWalk id) (.ok walk) ∧
      Walk.Remaining session.baseOf walk line ∧ ∀ node, walk.position ≠ .standing node := by
  obtain ⟨walk, hstart, hremaining, hposition⟩ :=
    Walk.start_returns h.closed h.baseOf_lt write_settled hline
  exact ⟨walk, (h.keeps_base id hid).bind hstart, hremaining, hposition⟩

omit h in
theorem returns_baseWalk_of_not_lt {id : NodeId} {pre : Memo → Prop}
    (hid : ¬ id < session.forest.size) :
    Returns pre (session.forest.baseWalk id) (.error (.outOfRange id session.forest.size)) pre :=
  (returns_base_of_not_lt hid).bind_error _

theorem keeps_chain {id : NodeId} {line : List NodeId} (hid : id < session.forest.size)
    (hline : Trail session.baseOf [id] id line) :
    Keeps session.Settled (session.forest.chain id) (.ok line) := by
  obtain ⟨walk, hwalk, hremaining, hposition⟩ := h.keeps_baseWalk hid hline
  exact hwalk.bind (Walk.toList_returns h.closed h.baseOf_lt write_settled h.keeps_base hremaining
    (h.trail_lt hline) (fun node hnode ↦ absurd hnode (hposition node)) (h.length_lt_walkLimit hid hline))

theorem keeps_chainPrefix {id : NodeId} {chain : List NodeId} (hid : id < session.forest.size)
    (hline : Trail session.baseOf [id] id chain) (count : Nat) :
    Keeps session.Settled (session.forest.chainPrefix id count)
      (.ok ((List.range count).map fun index ↦ chain[index]?)) := by
  obtain ⟨walk, hwalk, hremaining, hposition⟩ := h.keeps_baseWalk hid hline
  exact hwalk.bind (Walk.take_returns h.closed h.baseOf_lt write_settled h.keeps_base count hremaining
    (h.trail_lt hline) fun node hnode ↦ absurd hnode (hposition node))

theorem keeps_inheritance {id : NodeId} {line : List NodeId} (hid : id < session.forest.size)
    (hline : Trail session.baseOf [id] id line) :
    Keeps session.Settled (session.forest.inheritance id) (.ok line.reverse) :=
  (h.keeps_chain hid hline).bind (returns_pure _)

/-- A search along the bases of a node comes to the first result on its trail. -/
theorem keeps_findSome? {β : Type} {id : NodeId} {line : List NodeId}
    {test : NodeId → Lookup (Option β)} {probe : NodeId → Option β} (hid : id < session.forest.size)
    (hline : Trail session.baseOf [id] id line)
    (htest : ∀ node < session.forest.size, Keeps session.Settled (test node) (.ok (probe node))) :
    ∃ walk, Keeps session.Settled (session.forest.baseWalk id) (.ok walk) ∧
      Keeps session.Settled (walk.findSome? session.forest session.forest.base test
        session.forest.walkLimit) (.ok (line.findSome? probe)) := by
  obtain ⟨walk, hwalk, hremaining, hposition⟩ := h.keeps_baseWalk hid hline
  have hlt := h.trail_lt hline
  refine ⟨walk, hwalk, Walk.findSome?_returns h.closed h.baseOf_lt write_settled
    (fun node hnode ↦ htest node (hlt node hnode)) (fun node hnode ↦ ⟨hnode, h.keeps_base node hnode⟩)
    hremaining (fun node hnode ↦ absurd hnode (hposition node)) ?_ (h.length_lt_walkLimit hid hline)⟩
  intro passed node rest heq _ _
  exact hlt node (by simp [heq])

theorem keeps_inheritsFrom {id : NodeId} {line : List NodeId} (hid : id < session.forest.size)
    (hline : Trail session.baseOf [id] id line) (ancestor : NodeId) :
    Keeps session.Settled (session.forest.inheritsFrom id ancestor) (.ok (decide (ancestor ∈ line))) := by
  have hfound : (line.findSome? fun base ↦ if base = ancestor then some base else none).isSome =
      decide (ancestor ∈ line) := by
    rw [Bool.eq_iff_iff, List.isSome_findSome?]
    simp
  obtain ⟨walk, hwalk, hfind⟩ := h.keeps_findSome? hid hline fun node _ ↦
    returns_pure (if node = ancestor then some node else none)
  rw [← hfound]
  exact hwalk.bind (hfind.bind (returns_pure _))

/-- The child visible at a node is the first on the node and its trail. -/
theorem keeps_visibleChild {id : NodeId} {line : List NodeId} (hid : id < session.forest.size)
    (hline : Trail session.baseOf [id] id line) (name : String) :
    Keeps session.Settled (session.forest.visibleChild id name)
      (.ok ((id :: line).findSome? (session.forest.childNamed name))) := by
  unfold Forest.visibleChild
  rw [Forest.child?_eq_ok hid, List.findSome?_cons]
  refine (returns_liftM _).bind ?_
  cases session.forest.childNamed name id with
  | some child => exact returns_pure _
  | none =>
    obtain ⟨walk, hwalk, hfind⟩ := h.keeps_findSome? hid hline fun node hnode ↦ by
      rw [← Forest.child?_eq_ok hnode]
      exact returns_liftM (session.forest.child? node name)
    exact hwalk.bind hfind

omit h in
/-- Laying the children of some nodes over those known before. -/
theorem exists_keeps_overwrite {nodes : List NodeId} (hnodes : ∀ id ∈ nodes, id < session.forest.size)
    (start : NameMap NodeId) :
    ∃ merged, Keeps session.Settled (nodes.foldlM (fun merged ancestor ↦ do
        return merged.overwrite (← session.forest.node ancestor).children) start : Lookup _) (.ok merged) ∧
      ∀ name, merged.find? name =
        (nodes.reverse.findSome? (session.forest.childNamed name)).or (start.find? name) := by
  induction nodes generalizing start with
  | nil => exact ⟨start, returns_pure start, fun _ ↦ rfl⟩
  | cons id nodes ih =>
    obtain ⟨hid, hnodes⟩ := List.forall_mem_cons.mp hnodes
    obtain ⟨node, hnode⟩ := Forest.exists_node?_of_lt hid
    obtain ⟨merged, hmerged, hfind⟩ := ih hnodes (start.overwrite node.children)
    refine ⟨merged, ?_, fun name ↦ ?_⟩
    · rw [List.foldlM_cons, Forest.node_eq_ok hnode]
      have hlaid : Keeps session.Settled (pure (start.overwrite node.children)) (.ok _) :=
        returns_pure _
      exact Returns.bind ((returns_liftM (.ok node)).bind hlaid) hmerged
    · rw [hfind, NameMap.find?_overwrite, List.reverse_cons, List.findSome?_append,
        List.findSome?_singleton, Forest.childNamed_eq hnode, Option.or_assoc]

/-- Of the children of one name, the first on the node and its trail is visible. -/
theorem exists_keeps_visibleChildren {id : NodeId} {line : List NodeId}
    (hid : id < session.forest.size) (hline : Trail session.baseOf [id] id line) :
    ∃ children, Keeps session.Settled (session.forest.visibleChildren id) (.ok children) ∧
      ∀ name, children.find? name = (id :: line).findSome? (session.forest.childNamed name) := by
  have hlt : ∀ met ∈ line.reverse ++ [id], met < session.forest.size := by
    intro met hmet
    apply h.cons_trail_lt hid hline
    simpa [or_comm] using hmet
  obtain ⟨children, hchildren, hfind⟩ := exists_keeps_overwrite hlt NameMap.empty
  refine ⟨children, (h.keeps_inheritance hid hline).bind hchildren, fun name ↦ ?_⟩
  rw [hfind, NameMap.find?_empty, Option.or_none]
  simp

/-! ## Answers that no read changes -/

theorem steady_base (id : NodeId) : Steady session.Settled (session.forest.base id) := by
  by_cases hid : id < session.forest.size
  · exact ⟨_, h.keeps_base id hid⟩
  · exact ⟨_, returns_base_of_not_lt hid⟩

theorem steady_baseWalk (id : NodeId) : Steady session.Settled (session.forest.baseWalk id) := by
  by_cases hid : id < session.forest.size
  · obtain ⟨line, hline⟩ := h.exists_trail hid
    obtain ⟨walk, hwalk, _⟩ := h.keeps_baseWalk hid hline
    exact ⟨_, hwalk⟩
  · exact ⟨_, returns_baseWalk_of_not_lt hid⟩

/-- Where there is no node, what follows on its walk fails with it. -/
theorem steady_baseWalk_bind {β : Type} {id : NodeId} {next : Walk → Lookup β}
    (hnext : ∀ line, id < session.forest.size → Trail session.baseOf [id] id line →
      Steady session.Settled (session.forest.baseWalk id >>= next)) :
    Steady session.Settled (session.forest.baseWalk id >>= next) := by
  by_cases hid : id < session.forest.size
  · obtain ⟨line, hline⟩ := h.exists_trail hid
    exact hnext line hid hline
  · exact ⟨_, (returns_baseWalk_of_not_lt hid).bind_error _⟩

theorem steady_chain (id : NodeId) : Steady session.Settled (session.forest.chain id) := by
  apply h.steady_baseWalk_bind
  intro line hid hline
  exact ⟨_, h.keeps_chain hid hline⟩

theorem steady_chainPrefix (id : NodeId) (count : Nat) :
    Steady session.Settled (session.forest.chainPrefix id count) := by
  apply h.steady_baseWalk_bind
  intro line hid hline
  exact ⟨_, h.keeps_chainPrefix hid hline count⟩

theorem steady_inheritsFrom (id ancestor : NodeId) :
    Steady session.Settled (session.forest.inheritsFrom id ancestor) := by
  apply h.steady_baseWalk_bind
  intro line hid hline
  exact ⟨_, h.keeps_inheritsFrom hid hline ancestor⟩

theorem steady_inheritance (id : NodeId) : Steady session.Settled (session.forest.inheritance id) :=
  (h.steady_chain id).bind fun _ ↦ steady_pure _

theorem steady_strictInheritance (id : NodeId) :
    Steady session.Settled (session.forest.strictInheritance id) := by
  have hwithin : ∀ limit node met,
      Steady session.Settled (session.forest.strictInheritanceWithin limit node met) := by
    intro limit
    induction limit with
    | zero => exact fun _ _ ↦ steady_throw _
    | succ limit ih =>
      intro node met
      refine (h.steady_base node).bind fun base ↦ ?_
      cases base with
      | none => exact steady_pure _
      | some base =>
        by_cases hmem : base ∈ met
        · simp only [if_pos hmem]
          exact (steady_mapM (fun _ ↦ steady_liftM _) _).bind fun _ ↦ steady_throw _
        · simp only [if_neg hmem]
          exact ih base (base :: met)
  exact hwithin _ _ _

theorem steady_visibleChild (id : NodeId) (name : String) :
    Steady session.Settled (session.forest.visibleChild id name) := by
  by_cases hid : id < session.forest.size
  · obtain ⟨line, hline⟩ := h.exists_trail hid
    exact ⟨_, h.keeps_visibleChild hid hline name⟩
  · unfold Forest.visibleChild Forest.child?
    rw [Forest.node_eq_error hid]
    exact ⟨_, (returns_liftM _).bind_error _⟩

theorem steady_visibleChildren (id : NodeId) :
    Steady session.Settled (session.forest.visibleChildren id) :=
  (h.steady_inheritance id).bind fun _ ↦
    steady_foldlM (fun _ _ ↦ (steady_liftM _).bind fun _ ↦ steady_pure _) _ _

theorem steady_query (query : Query) : Steady session.Settled (query.answer session.forest) := by
  cases query with
  | base id => exact (h.steady_base id).bind fun _ ↦ steady_pure _
  | chain id => exact (h.steady_chain id).bind fun _ ↦ steady_pure _
  | chainPrefix id count => exact (h.steady_chainPrefix id count).bind fun _ ↦ steady_pure _
  | inheritsFrom id ancestor => exact (h.steady_inheritsFrom id ancestor).bind fun _ ↦ steady_pure _
  | inheritance id => exact (h.steady_inheritance id).bind fun _ ↦ steady_pure _
  | strictInheritance id => exact (h.steady_strictInheritance id).bind fun _ ↦ steady_pure _
  | visibleChild id name => exact (h.steady_visibleChild id name).bind fun _ ↦ steady_pure _
  | visibleChildren id => exact (h.steady_visibleChildren id).bind fun _ ↦ steady_pure _

/-! ## The equation of bases -/

/-- The base of an open node is the first other child of its name along the chain of its parent, and
reading it fills its slot. -/
theorem base_equation {id : NodeId} {node : Node ε} (hnode : session.forest.node? id = some node) :
    ∃ base after, (session.forest.base id).run session.memo = (.ok base, after) ∧
      after.slot id = .resolved base ∧
      match session.memo.slot id, node.parent with
      | .resolved known, _ => base = known
      | _, none => base = none
      | _, some parent => ∃ line,
        ((session.forest.chain parent).run session.memo).1 = .ok line ∧
        line.findSomeM? (fun met ↦ do
          return (← session.forest.child? met node.name).filter (· ≠ id)) = .ok base := by
  have hid := Forest.lt_of_node?_eq hnode
  obtain ⟨after, hrun, -, hslot⟩ := h.base_returns hid session.memo h.reflects
  refine ⟨session.baseOf id, after, hrun, hslot, ?_⟩
  cases hstate : session.memo.slot id with
  | resolved known => exact baseOf_of_resolved hstate
  | resolving => exact absurd hstate (h.settled id)
  | unresolved =>
    cases hparent : node.parent with
    | none => exact baseOf_of_parentless hstate ((Forest.parentOf_eq hnode).trans hparent)
    | some parent =>
      have hparentOf := (Forest.parentOf_eq hnode).trans hparent
      have hparentLt := Nat.lt_trans (h.closed.parent_lt hparentOf) hid
      obtain ⟨line, hline⟩ := h.exists_trail hparentLt
      obtain ⟨_, hchain, _⟩ := h.keeps_chain hparentLt hline session.memo h.reflects
      refine ⟨line, by rw [hchain], ?_⟩
      rw [baseOf_eq_findSome? hstate hparentOf hline]
      exact Forest.findSomeM?_eq_ok fun met hmet ↦
        Forest.namesake?_eq_ok hnode (h.trail_lt hline met hmet)

omit h in
/-- The chain of the outer room leads through the inner one, whose base is being read.  The inner one has
none, and meanwhile it is found to be the base of the outer one. -/
theorem houseOfRooms_base_equation :
    houseOfRooms.Valid ∧
      houseOfRooms.forest.node? 2 = some ⟨"room", some 1, 0, .empty, none, ()⟩ ∧
      ∃ after, (houseOfRooms.forest.base 2).run houseOfRooms.memo = (.ok none, after) ∧
        after.slot 2 = .resolved none ∧ after.slot 1 = .resolved (some 2) ∧
        ((houseOfRooms.forest.chain 1).run houseOfRooms.memo).1 = .ok [2] ∧
        [2].findSomeM? (fun met ↦ do
          return (← houseOfRooms.forest.child? met "room").filter (· ≠ 2)) = .ok none := by
  have hvalid : houseOfRooms.Valid := by decide
  have hnode : houseOfRooms.forest.node? 2 = some ⟨"room", some 1, 0, .empty, none, ()⟩ := rfl
  obtain ⟨base, after, hbase, hslot, line, hline, hfound⟩ := base_equation hvalid hnode
  have hnone : ((houseOfRooms.forest.base 2).run houseOfRooms.memo).1 = .ok none := rfl
  have houter : ((houseOfRooms.forest.base 2).run houseOfRooms.memo).2.slot 1 = .resolved (some 2) := rfl
  have hinner : ((houseOfRooms.forest.chain 1).run houseOfRooms.memo).1 = .ok [2] := rfl
  rw [hbase] at hnone houter
  obtain rfl := Except.ok.inj hnone
  obtain rfl := Except.ok.inj (hline.symm.trans hinner)
  exact ⟨hvalid, hnode, after, hbase, hslot, houter, hinner, hfound⟩

end Lineage.Session.Valid

namespace Lineage.Style

open Lookup

/-- The declarations of a node, or none where there is no node. -/
def declarationsOf (forest : Forest Style) (id : NodeId) : List String :=
  ((forest.node? id).map (·.payload.declarations)).getD []

/-- The declarations visible at a node are those along its trail, the farthest first. -/
theorem keeps_visibleDeclarations {session : Session Style} (h : session.Valid) {id : NodeId}
    {line : List NodeId} (hid : id < session.forest.size) (hline : Trail session.baseOf [id] id line) :
    Keeps session.Settled (visibleDeclarations session.forest id)
      (.ok ((id :: line).reverse.flatMap (declarationsOf session.forest))) := by
  rw [List.reverse_cons, List.flatMap_def]
  refine (h.keeps_inheritance hid hline).bind ?_
  refine (keeps_mapM fun met hmet ↦ ?_).bind (returns_pure _)
  have hlt : met < session.forest.size := by
    apply h.cons_trail_lt hid hline
    simpa [or_comm] using hmet
  obtain ⟨node, hnode⟩ := Forest.exists_node?_of_lt hlt
  have hvalue : declarationsOf session.forest met = node.payload.declarations := by
    simp [declarationsOf, hnode]
  rw [Forest.node_eq_ok hnode, hvalue]
  exact (returns_liftM (.ok node)).bind (returns_pure _)

theorem steady_visibleDeclarations {session : Session Style} (h : session.Valid) (id : NodeId) :
    Steady session.Settled (visibleDeclarations session.forest id) := by
  refine (h.steady_inheritance id).bind fun _ ↦ ?_
  exact (steady_mapM (fun _ ↦ (steady_liftM _).bind fun _ ↦ steady_pure _) _).bind
    fun _ ↦ steady_pure _

end Lineage.Style
