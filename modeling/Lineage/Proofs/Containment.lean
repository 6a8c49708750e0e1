import Lineage.Proofs.Change
import Lineage.Proofs.Rooted
import Mathlib.Data.Nat.Find

/-!
# Containment

A forest says in four places which node is in which: in the parents, the roots, the children and the
index of root-level nodes.  A forest is `Orderly` if the first two determine the other two, and roots
agree with parents.  Every change keeps that, so it holds after any orderly calls.

`Containment` says what follows for what is shown of a forest, and `Client.containment_after` that it
holds after any orderly calls.
-/

namespace Lineage

open Relation

variable {ε : Type}

namespace Forest

/-! ## Roots -/

def rootOf (forest : Forest ε) (id : NodeId) : Option NodeId := (forest.node? id).map (·.root)

/-- No root-level node of the same name was added after `id`, which is one. -/
def IsLastRoot (forest : Forest ε) (id : NodeId) : Prop :=
  forest.IsRoot id ∧ ∀ other, forest.IsRoot other → forest.nameOf other = forest.nameOf id → other ≤ id

variable {forest : Forest ε} {id : NodeId}

theorem rootOf_eq {node : Node ε} (hnode : forest.node? id = some node) :
    forest.rootOf id = some node.root := by
  simp [rootOf, hnode]

theorem exists_nameOf_of_lt (hid : id < forest.size) : ∃ name, forest.nameOf id = some name := by
  obtain ⟨node, hnode⟩ := exists_node?_of_lt hid
  exact ⟨node.name, nameOf_eq hnode⟩

theorem lt_of_nameOf_eq_some {name : String} (h : forest.nameOf id = some name) : id < forest.size := by
  obtain ⟨node, hnode, _⟩ := Option.map_eq_some_iff.mp h
  exact lt_of_node?_eq hnode

theorem rootOf_add (name : String) (payload : ε) (parent root : Option NodeId) (id : NodeId) :
    (forest.add name payload parent root).rootOf id =
      if id = forest.size then some (root.getD forest.size) else forest.rootOf id := by
  unfold rootOf
  rw [node?_add]
  split <;> rfl

theorem rootOf_modify {change : Node ε → Node ε} (h : ∀ node, (change node).root = node.root)
    (other : NodeId) : (forest.modify id change).rootOf other = forest.rootOf other := by
  unfold rootOf
  rw [node?_modify]
  split
  next => cases forest.node? other <;> simp [h]
  next => rfl

/-- Of the root-level nodes of one name, one is the last. -/
theorem IsRoot.exists_isLastRoot (h : forest.IsRoot id) :
    ∃ last, forest.IsLastRoot last ∧ forest.nameOf last = forest.nameOf id ∧ id ≤ last := by
  classical
  let alike := fun other ↦ forest.IsRoot other ∧ forest.nameOf other = forest.nameOf id
  have hid : alike id := ⟨h, rfl⟩
  have hlast : alike (Nat.findGreatest alike forest.size) := Nat.findGreatest_spec (Nat.le_of_lt h.1) hid
  refine ⟨Nat.findGreatest alike forest.size, ⟨hlast.1, fun other hother hname ↦ ?_⟩, hlast.2, ?_⟩
  · exact Nat.le_findGreatest (Nat.le_of_lt hother.1) ⟨hother, hname.trans hlast.2⟩
  · exact Nat.le_findGreatest (Nat.le_of_lt h.1) hid

/-! ## Orderly forests -/

/-- Parents come before their children, roots are found by way of parents, and the nodes registered are
the children with the name under which they are registered and the last root-level nodes of a name. -/
structure Orderly (forest : Forest ε) : Prop where
  parent_lt : ∀ ⦃id parent⦄, forest.parentOf id = some parent → parent < id
  root_self : ∀ ⦃id⦄, forest.IsRoot id → forest.rootOf id = some id
  root_parent : ∀ ⦃id parent⦄, forest.parentOf id = some parent → forest.rootOf id = forest.rootOf parent
  child_iff : ∀ {name parent child}, forest.childNamed name parent = some child ↔
    forest.parentOf child = some parent ∧ forest.nameOf child = some name
  roots_iff : ∀ {name id}, forest.roots.find? name = some id ↔
    forest.nameOf id = some name ∧ forest.IsLastRoot id

theorem orderly_empty : (empty : Forest ε).Orderly where
  parent_lt id parent hparent := absurd (lt_of_parentOf_eq_some hparent) (Nat.not_lt_zero id)
  root_self id hroot := absurd hroot.1 (Nat.not_lt_zero id)
  root_parent id parent hparent := absurd (lt_of_parentOf_eq_some hparent) (Nat.not_lt_zero id)
  child_iff {name parent child} := by
    constructor
    · exact fun hchild ↦ absurd (lt_of_childNamed_eq_some hchild) (Nat.not_lt_zero parent)
    · exact fun hchild ↦ absurd (lt_of_parentOf_eq_some hchild.1) (Nat.not_lt_zero child)
  roots_iff {name id} := by
    constructor
    · exact nofun
    · exact fun hid ↦ absurd (lt_of_nameOf_eq_some hid.1) (Nat.not_lt_zero id)

namespace Orderly

variable (h : forest.Orderly)
include h

theorem closed : forest.Closed where
  parent_lt := h.parent_lt
  child_lt _ _ _ hchild := lt_of_parentOf_eq_some (h.child_iff.mp hchild).1

/-- The walk from a node up its parents ends at its root. -/
theorem exists_root (hid : id < forest.size) :
    ∃ root, forest.rootOf id = some root ∧ forest.IsRoot root ∧
      ReflTransGen (fun child parent ↦ forest.parentOf child = some parent) id root := by
  induction id using Nat.strongRecOn with
  | ind id ih =>
    cases hparent : forest.parentOf id with
    | none => exact ⟨id, h.root_self ⟨hid, hparent⟩, ⟨hid, hparent⟩, .refl⟩
    | some parent =>
      have hlt := h.parent_lt hparent
      obtain ⟨root, hroot, hisRoot, hwalk⟩ := ih parent hlt (Nat.lt_trans hlt hid)
      exact ⟨root, (h.root_parent hparent).trans hroot, hisRoot, .head hparent hwalk⟩

/-! ## Changes -/

/-- A forest may change as long as it shows the same nodes, parents, roots and children. -/
theorem of_same {after : Forest ε} (hsize : after.size = forest.size)
    (hname : ∀ id, after.nameOf id = forest.nameOf id)
    (hparent : ∀ id, after.parentOf id = forest.parentOf id)
    (hroot : ∀ id, after.rootOf id = forest.rootOf id)
    (hchild : ∀ name id, after.childNamed name id = forest.childNamed name id)
    (hroots : after.roots = forest.roots) : after.Orderly := by
  have hisRoot : ∀ id, after.IsRoot id ↔ forest.IsRoot id := by
    intro id
    unfold IsRoot
    rw [hsize, hparent]
  have hisLast : ∀ id, after.IsLastRoot id ↔ forest.IsLastRoot id := by
    intro id
    unfold IsLastRoot
    simp only [hisRoot, hname]
  constructor
  · simpa only [hparent] using h.parent_lt
  · simpa only [hisRoot, hroot] using h.root_self
  · simpa only [hparent, hroot] using h.root_parent
  · simpa only [hchild, hparent, hname] using @h.child_iff
  · simpa only [hroots, hname, hisLast] using @h.roots_iff

section OneMore

variable {after : Forest ε} {name : String} {parent : Option NodeId}
  (hsize : after.size = forest.size + 1)
  (hname : ∀ id, after.nameOf id = if id = forest.size then some name else forest.nameOf id)
  (hparent : ∀ id, after.parentOf id = if id = forest.size then parent else forest.parentOf id)
include hsize hparent

omit h in
theorem isRoot_iff (id : NodeId) :
    after.IsRoot id ↔ id = forest.size ∧ parent = none ∨ forest.IsRoot id := by
  unfold IsRoot
  rw [hsize, hparent]
  by_cases hid : id = forest.size
  · simp [hid]
  · rw [if_neg hid, or_iff_right fun hnew ↦ hid hnew.1, Nat.lt_succ_iff_lt_or_eq, or_iff_left hid]

include hname

/-- The index of root-level nodes holds a new one under its name, and none else is replaced. -/
theorem roots_iff_of_one_more {key : String} (id : NodeId) :
    (if key = name ∧ parent = none then some forest.size else forest.roots.find? key) = some id ↔
      after.nameOf id = some key ∧ after.IsLastRoot id := by
  have hisRoot := isRoot_iff hsize hparent
  -- Under the name of a new root-level node that node is the last, and under others nothing changes.
  by_cases hnew : key = name ∧ parent = none
  · obtain ⟨rfl, hnone⟩ := hnew
    have hsizeRoot : after.IsRoot forest.size := (hisRoot forest.size).mpr (.inl ⟨rfl, hnone⟩)
    have hsizeName : after.nameOf forest.size = some key := by rw [hname, if_pos rfl]
    rw [if_pos ⟨rfl, hnone⟩, Option.some_inj]
    constructor
    · rintro rfl
      refine ⟨hsizeName, hsizeRoot, fun other hother _ ↦ Nat.le_of_lt_add_one ?_⟩
      exact hsize ▸ hother.1
    · rintro ⟨hkey, hroot, hlast⟩
      have hle := hlast forest.size hsizeRoot (hsizeName.trans hkey.symm)
      exact Nat.le_antisymm hle (Nat.le_of_lt_add_one (hsize ▸ hroot.1))
  · rw [if_neg hnew, h.roots_iff, hname]
    by_cases hid : id = forest.size
    · subst hid
      rw [if_pos rfl]
      refine iff_of_false (fun hold ↦ Nat.lt_irrefl _ hold.2.1.1) fun ⟨hkey, hroot, _⟩ ↦ hnew ?_
      have hnone := ((hisRoot _).mp hroot).resolve_right fun hold ↦ Nat.lt_irrefl _ hold.1
      exact ⟨(Option.some.inj hkey).symm, hnone.2⟩
    · rw [if_neg hid]
      refine and_congr_right fun hkey ↦ ?_
      have hkey' : after.nameOf id = some key := by rw [hname, if_neg hid, hkey]
      unfold IsLastRoot
      rw [hisRoot, or_iff_right fun hand ↦ hid hand.1, hkey, hkey']
      refine and_congr_right fun _ ↦ ⟨fun hlast other hother hsame ↦ ?_, fun hlast other hother hsame ↦ ?_⟩
      · rw [hname] at hsame
        rcases (hisRoot other).mp hother with ⟨rfl, hnone⟩ | hold
        · rw [if_pos rfl] at hsame
          exact absurd ⟨(Option.some.inj hsame).symm, hnone⟩ hnew
        · rw [if_neg (Nat.ne_of_lt hold.1)] at hsame
          exact hlast other hold hsame
      · apply hlast other ((hisRoot other).mpr (.inr hother))
        rw [hname, if_neg (Nat.ne_of_lt hother.1), hsame]

omit hsize in
/-- The children of a node are those it had, and the new one if that is registered there. -/
theorem child_iff_of_one_more
    (hchild : ∀ key id, after.childNamed key id =
      if key = name ∧ parent = some id then some forest.size else forest.childNamed key id)
    (hfresh : ∀ above, parent = some above → above < forest.size ∧ forest.childNamed name above = none)
    {key : String} {above child : NodeId} : after.childNamed key above = some child ↔
      after.parentOf child = some above ∧ after.nameOf child = some key := by
  rw [hchild, hparent, hname]
  by_cases hid : child = forest.size
  · rw [if_pos hid, if_pos hid]
    split
    next hnew => simp [hnew, hid]
    next hold =>
      refine iff_of_false (fun hfound ↦ ?_) fun hnew ↦ hold ?_
      · exact Nat.ne_of_lt (h.closed.child_lt hfound) hid
      · exact ⟨(Option.some.inj hnew.2).symm, hnew.1⟩
  · rw [if_neg hid, if_neg hid]
    split
    next hnew =>
      refine iff_of_false (fun hsame ↦ hid (Option.some.inj hsame).symm) fun hfound ↦ ?_
      have hnone := (hfresh above hnew.2).2
      rw [← hnew.1, h.child_iff.mpr hfound] at hnone
      exact nomatch hnone
    next => exact h.child_iff

/-- A forest may get one more node, which is registered where it belongs. -/
theorem of_one_more
    (hroot : ∀ id, after.rootOf id =
      if id = forest.size then parent.elim (some forest.size) forest.rootOf else forest.rootOf id)
    (hchild : ∀ key id, after.childNamed key id =
      if key = name ∧ parent = some id then some forest.size else forest.childNamed key id)
    (hroots : ∀ key, after.roots.find? key =
      if key = name ∧ parent = none then some forest.size else forest.roots.find? key)
    (hfresh : ∀ above, parent = some above → above < forest.size ∧ forest.childNamed name above = none) :
    after.Orderly where
  parent_lt id above habove := by
    rw [hparent] at habove
    split at habove
    next hid => exact hid ▸ (hfresh above habove).1
    next => exact h.parent_lt habove
  root_self id hid := by
    rw [hroot]
    rcases (isRoot_iff hsize hparent id).mp hid with ⟨rfl, rfl⟩ | hold
    · exact if_pos rfl
    · rw [if_neg (Nat.ne_of_lt hold.1)]
      exact h.root_self hold
  root_parent id above habove := by
    rw [hparent] at habove
    rw [hroot, hroot]
    split at habove
    next hid =>
      rw [if_pos hid, if_neg (Nat.ne_of_lt (hfresh above habove).1), habove]
      rfl
    next hid =>
      have hlt := Nat.lt_trans (h.parent_lt habove) (lt_of_parentOf_eq_some habove)
      rw [if_neg hid, if_neg (Nat.ne_of_lt hlt)]
      exact h.root_parent habove
  child_iff := h.child_iff_of_one_more hname hparent hchild hfresh
  roots_iff {key id} := by
    rw [hroots]
    exact h.roots_iff_of_one_more hsize hname hparent id

end OneMore

theorem addRoot (name : String) (payload : ε) : (forest.add name payload none none).Orderly := by
  apply h.of_one_more (size_add ..)
  · exact nameOf_add name payload none none
  · exact parentOf_add name payload none none
  · exact rootOf_add name payload none none
  · intro key id
    rw [childNamed_add]
    simp
  · intro key
    change (forest.roots.insert name forest.size).find? key = _
    simp [NameMap.find?_insert]
  · exact nofun

theorem addChild {node : Node ε} {name : String} (payload : ε) (hnode : forest.node? id = some node)
    (hfind : node.children.find? name = none) :
    ((forest.add name payload (some id) (some node.root)).modify id fun node ↦
      { node with children := node.children.insert name forest.size }).Orderly := by
  have hid := lt_of_node?_eq hnode
  let added := forest.add name payload (some id) (some node.root)
  let register : Node ε → Node ε :=
    fun node ↦ { node with children := node.children.insert name forest.size }
  have hname : ∀ other, (added.modify id register).nameOf other = added.nameOf other :=
    nameOf_modify fun _ ↦ rfl
  have hparent : ∀ other, (added.modify id register).parentOf other = added.parentOf other :=
    parentOf_modify fun _ ↦ rfl
  have hroot : ∀ other, (added.modify id register).rootOf other = added.rootOf other :=
    rootOf_modify fun _ ↦ rfl
  have hadded : id < added.size := by
    rw [size_add]
    exact Nat.lt_succ_of_lt hid
  apply h.of_one_more
  · exact (size_modify ..).trans (size_add ..)
  · exact fun other ↦ (hname other).trans (nameOf_add ..)
  · exact fun other ↦ (hparent other).trans (parentOf_add ..)
  · intro other
    rw [Option.elim_some, rootOf_eq hnode]
    exact (hroot other).trans (rootOf_add ..)
  · intro key other
    rw [childNamed_register hadded, childNamed_add]
    simp [and_comm, eq_comm]
  · intro key
    rw [if_neg fun hnew ↦ nomatch hnew.2]
    rfl
  · intro above habove
    obtain rfl := Option.some.inj habove
    exact ⟨hid, (childNamed_eq hnode name).trans hfind⟩

/-- A change of one node that leaves alone where it is. -/
theorem modify {change : Node ε → Node ε} (hname : ∀ node, (change node).name = node.name)
    (hparent : ∀ node, (change node).parent = node.parent) (hroot : ∀ node, (change node).root = node.root)
    (hchild : ∀ node, (change node).children = node.children) (id : NodeId) :
    (forest.modify id change).Orderly :=
  h.of_same (size_modify ..) (nameOf_modify hname) (parentOf_modify hparent) (rootOf_modify hroot)
    (fun key other ↦ childNamed_modify hchild key other) rfl

end Orderly

end Forest

/-- Every change keeps a forest orderly. -/
theorem Session.Change.orderly ⦃set? : Option (NodeId × Option NodeId)⦄ ⦃session after : Session ε⦄
    (hchange : Change set? session after) (h : session.forest.Orderly) : after.forest.Orderly := by
  cases hchange with
  | addRoot name payload => exact h.addRoot name payload
  | addChild payload hnode hfind => exact h.addChild payload hnode hfind
  | setPayload | setBase =>
    apply h.modify
    all_goals exact fun _ ↦ rfl

theorem Client.orderly_after [Family ε] (recording : Bool) {calls : List (Call ε)}
    (horderly : ∀ call ∈ calls, call.isOrderly = true) :
    ((start ε recording).after calls).session.forest.Orderly :=
  forest_after Session.Change.orderly horderly Forest.orderly_empty

namespace Forest

/-! ## What is shown -/

/-- Whatever has been read before, the answer to a view is `reply`, and it leaves the memo alone. -/
def Shows (forest : Forest ε) (view : View) (reply : Reply ε) : Prop :=
  ∀ memo, (view.answer forest).run memo = (.ok reply, memo)

/-- The name of one node comes before that of the other. -/
def Precedes (forest : Forest ε) (left right : NodeId) : Prop :=
  ∃ first second, forest.nameOf left = some first ∧ forest.nameOf right = some second ∧ first < second

variable {forest : Forest ε} {id : NodeId}

/-- A view that reads one node. -/
theorem shows_of_node {node : Node ε} (hnode : forest.node? id = some node) {view : View}
    (read : Node ε → Reply ε) (hview : view.answer forest = do return read (← forest.node id)) :
    forest.Shows view (read node) := by
  unfold Shows
  rw [hview, node_eq_ok hnode]
  exact fun _ ↦ rfl

/-- In a map of nodes by their names, the nodes are in the order of these. -/
theorem pairwise_values {map : NameMap NodeId}
    (h : ∀ name id, map.find? name = some id → forest.nameOf id = some name) :
    map.values.Pairwise forest.Precedes := by
  apply List.pairwise_map.mpr
  apply map.sorted.imp_of_mem
  intro left right hleft hright hlt
  refine ⟨left.1, right.1, h left.1 left.2 ?_, h right.1 right.2 ?_, hlt⟩
  · exact (map.find?_eq_some_iff ..).mpr hleft
  · exact (map.find?_eq_some_iff ..).mpr hright

/-- What is shown of parents, roots, children and root-level nodes agrees. -/
structure Containment (forest : Forest ε) : Prop where
  /-- What is registered at a node under a name has that node as its parent and that name. -/
  entry : ∀ ⦃name parent child⦄, forest.childNamed name parent = some child →
    forest.parentOf child = some parent ∧ forest.nameOf child = some name
  /-- A node with a parent is registered there under its name, and nowhere else. -/
  registered : ∀ ⦃child parent⦄, forest.parentOf child = some parent → ∃ name,
    forest.nameOf child = some name ∧
    ∀ key other, forest.childNamed key other = some child ↔ key = name ∧ other = parent
  siblings : ∀ ⦃left right parent⦄, forest.parentOf left = some parent →
    forest.parentOf right = some parent → forest.nameOf left = forest.nameOf right → left = right
  /-- The walk from a node up its parents ends at what is shown as its root. -/
  root : ∀ id < forest.size, ∃ root, forest.Shows (.root id) (.id root) ∧
    ReflTransGen (fun child parent ↦ forest.parentOf child = some parent) id root ∧
    forest.Shows (.parent root) (.id? none) ∧ forest.Shows (.root root) (.id root)
  children : ∀ id < forest.size, ∃ children, forest.Shows (.childMap id) (.children children) ∧
    forest.Shows (.children id) (.ids children.values) ∧
    (∀ name child, (name, child) ∈ children.toList ↔
      forest.parentOf child = some id ∧ forest.nameOf child = some name) ∧
    (∀ child, child ∈ children.values ↔ forest.parentOf child = some id) ∧
    children.values.Pairwise forest.Precedes
  /-- For each name of a root-level node the last of them is listed, and nothing else. -/
  roots : ∃ ids, forest.Shows .roots (.ids ids) ∧ (∀ id, id ∈ ids ↔ forest.IsLastRoot id) ∧
    (∀ id, forest.IsRoot id → ∃ last ∈ ids, forest.nameOf last = forest.nameOf id ∧ id ≤ last) ∧
    ids.Pairwise forest.Precedes

namespace Orderly

variable (h : forest.Orderly)
include h

theorem registered {child parent : NodeId} (hparent : forest.parentOf child = some parent) :
    ∃ name, forest.nameOf child = some name ∧
      ∀ key other, forest.childNamed key other = some child ↔ key = name ∧ other = parent := by
  obtain ⟨name, hname⟩ := exists_nameOf_of_lt (lt_of_parentOf_eq_some hparent)
  refine ⟨name, hname, fun key other ↦ ?_⟩
  rw [h.child_iff, hparent, hname, Option.some_inj, Option.some_inj, and_comm, eq_comm,
    eq_comm (a := parent)]

theorem children (hid : id < forest.size) :
    ∃ children, forest.Shows (.childMap id) (.children children) ∧
      forest.Shows (.children id) (.ids children.values) ∧
      (∀ name child, (name, child) ∈ children.toList ↔
        forest.parentOf child = some id ∧ forest.nameOf child = some name) ∧
      (∀ child, child ∈ children.values ↔ forest.parentOf child = some id) ∧
      children.values.Pairwise forest.Precedes := by
  obtain ⟨node, hnode⟩ := exists_node?_of_lt hid
  have hfind : ∀ name child, node.children.find? name = some child ↔
      forest.parentOf child = some id ∧ forest.nameOf child = some name := by
    intro name child
    rw [← childNamed_eq hnode name, h.child_iff]
  refine ⟨node.children, shows_of_node hnode (.children ·.children) rfl,
    shows_of_node hnode (.ids ·.children.values) rfl, ?_, ?_, ?_⟩
  · intro name child
    rw [← node.children.find?_eq_some_iff, hfind]
  · intro child
    simp only [NameMap.mem_values_iff, hfind]
    constructor
    · exact fun ⟨_, hparent, _⟩ ↦ hparent
    · intro hparent
      obtain ⟨name, hname⟩ := exists_nameOf_of_lt (lt_of_parentOf_eq_some hparent)
      exact ⟨name, hparent, hname⟩
  · exact pairwise_values fun name child hchild ↦ ((hfind name child).mp hchild).2

theorem roots : ∃ ids, forest.Shows .roots (.ids ids) ∧ (∀ id, id ∈ ids ↔ forest.IsLastRoot id) ∧
    (∀ id, forest.IsRoot id → ∃ last ∈ ids, forest.nameOf last = forest.nameOf id ∧ id ≤ last) ∧
    ids.Pairwise forest.Precedes := by
  have hmem : ∀ id, id ∈ forest.roots.values ↔ forest.IsLastRoot id := by
    intro id
    simp only [NameMap.mem_values_iff, h.roots_iff]
    constructor
    · exact fun ⟨_, _, hlast⟩ ↦ hlast
    · intro hlast
      obtain ⟨name, hname⟩ := exists_nameOf_of_lt hlast.1.1
      exact ⟨name, hname, hlast⟩
  refine ⟨forest.roots.values, fun _ ↦ rfl, hmem, fun id hid ↦ ?_, ?_⟩
  · obtain ⟨last, hlast, hname, hle⟩ := hid.exists_isLastRoot
    exact ⟨last, (hmem last).mpr hlast, hname, hle⟩
  · exact pairwise_values fun name id hid ↦ (h.roots_iff.mp hid).1

theorem containment : forest.Containment where
  entry _ _ _ := h.child_iff.mp
  registered _ _ := h.registered
  siblings left right parent hleft hright hname := by
    obtain ⟨name, hright'⟩ := exists_nameOf_of_lt (lt_of_parentOf_eq_some hright)
    have hfound := h.child_iff.mpr ⟨hleft, hname.trans hright'⟩
    exact Option.some.inj (hfound.symm.trans (h.child_iff.mpr ⟨hright, hright'⟩))
  root id hid := by
    obtain ⟨root, hroot, hisRoot, hwalk⟩ := h.exists_root hid
    obtain ⟨node, hnode⟩ := exists_node?_of_lt hid
    obtain ⟨top, htop⟩ := exists_node?_of_lt hisRoot.1
    have hnodeRoot : node.root = root := Option.some.inj ((rootOf_eq hnode).symm.trans hroot)
    have htopRoot : top.root = root := Option.some.inj ((rootOf_eq htop).symm.trans (h.root_self hisRoot))
    have htopParent : top.parent = none := (parentOf_eq htop).symm.trans hisRoot.2
    refine ⟨root, ?_, hwalk, ?_, ?_⟩
    · exact hnodeRoot ▸ shows_of_node hnode (.id ·.root) rfl
    · exact htopParent ▸ shows_of_node htop (.id? ·.parent) rfl
    · have hshown : forest.Shows (.root root) (.id top.root) := shows_of_node htop (.id ·.root) rfl
      rwa [htopRoot] at hshown
  children _ := h.children
  roots := h.roots

end Orderly

end Forest

/-- After any orderly calls, failing ones and reads among them, parents, roots, children and the index
of root-level nodes agree. -/
theorem Client.containment_after [Family ε] (recording : Bool) {calls : List (Call ε)}
    (horderly : ∀ call ∈ calls, call.isOrderly = true) :
    ((start ε recording).after calls).session.forest.Containment :=
  (orderly_after recording horderly).containment

/-- Two blocks of one name, of which the later extends the earlier, and two calls that fail.  Only the
later block is listed. -/
theorem Client.containment_of_two_pages :
    let page : Call Style := .style (.addBlock "page")
    let link (id : NodeId) : Call Style := .style (.obtainSelector id "link" (some "hover"))
    let calls := [page, link 0, page, link 3, .request (.edit (.obtainChild 2 "none")),
      .request (.edit (.extend 3 0)), .request (.query (.chain 5)), link 9]
    (∀ call ∈ calls, call.isOrderly = true) ∧
      ((start Style true).after calls).session.forest.Shows .roots (.ids [3]) ∧
      ((start Style true).after calls).session.forest.Containment := by
  intro page link calls
  have horderly : ∀ call ∈ calls, call.isOrderly = true := by decide
  have hvalues : ((start Style true).after calls).session.forest.roots.values = [3] := by decide +kernel
  refine ⟨horderly, fun _ ↦ ?_, containment_after true horderly⟩
  rw [← hvalues]
  rfl

end Lineage
