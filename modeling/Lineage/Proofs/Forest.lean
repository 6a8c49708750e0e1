import Lineage.Base

/-!
# Forests without dangling references

`nameOf`, `parentOf` and `childNamed` say what a forest holds at an id, and nothing where it holds no
node.  A forest is closed if every parent was added before its children and every child that is
registered is there.

Reading a closed forest at one of its nodes does not fail, and reads just that: a look-up at one node
(`child?_eq_ok`, `namesake?_eq_ok`), along a list of names (`descend_eq_ok`), at each node of a list,
and up to the root (`exists_path`).
-/

namespace Lineage

namespace Forest

variable {ε : Type} {forest : Forest ε}

/-! ## Nodes -/

theorem exists_node?_of_lt {id : NodeId} (hid : id < forest.size) :
    ∃ node, forest.node? id = some node :=
  ⟨_, Array.getElem?_eq_getElem hid⟩

theorem node?_eq_none {id : NodeId} (hid : ¬ id < forest.size) : forest.node? id = none :=
  Array.getElem?_eq_none (Nat.le_of_not_lt hid)

theorem lt_of_node?_eq {id : NodeId} {node : Node ε} (hnode : forest.node? id = some node) :
    id < forest.size :=
  (Array.getElem?_eq_some_iff.mp hnode).1

theorem node_eq_ok {id : NodeId} {node : Node ε} (hnode : forest.node? id = some node) :
    forest.node id = .ok node := by
  unfold Forest.node
  rw [hnode]

/-- At an id that it does not hold, a forest says so. -/
theorem node_eq_error {id : NodeId} (hid : ¬ id < forest.size) :
    forest.node id = .error (.outOfRange id forest.size) := by
  unfold Forest.node
  rw [node?_eq_none hid]

/-! ## What a node says -/

def nameOf (forest : Forest ε) (id : NodeId) : Option String :=
  (forest.node? id).map (·.name)

def parentOf (forest : Forest ε) (id : NodeId) : Option NodeId :=
  (forest.node? id).bind (·.parent)

/-- The child registered under `name` at `id`, if both are there. -/
def childNamed (forest : Forest ε) (name : String) (id : NodeId) : Option NodeId :=
  (forest.node? id).bind (·.children.find? name)

/-- The child of `candidate` that bears the name of `id` and is not `id` itself. -/
def namesakeOf (forest : Forest ε) (id candidate : NodeId) : Option NodeId :=
  (forest.nameOf id).bind fun name ↦ (forest.childNamed name candidate).filter (· ≠ id)

/-- The node that child names lead to from `id`. -/
def descendant (forest : Forest ε) : List String → NodeId → Option NodeId
  | [], id => some id
  | name :: names, id => (forest.childNamed name id).bind (forest.descendant names)

section Node

variable {id : NodeId} {node : Node ε} (hnode : forest.node? id = some node)
include hnode

theorem nameOf_eq : forest.nameOf id = some node.name := by
  simp [nameOf, hnode]

theorem parentOf_eq : forest.parentOf id = node.parent := by
  simp [parentOf, hnode]

theorem childNamed_eq (name : String) : forest.childNamed name id = node.children.find? name := by
  simp [childNamed, hnode]

end Node

theorem lt_of_parentOf_eq_some {id parent : NodeId} (h : forest.parentOf id = some parent) :
    id < forest.size := by
  obtain ⟨node, hnode, _⟩ := Option.bind_eq_some_iff.mp h
  exact lt_of_node?_eq hnode

theorem lt_of_childNamed_eq_some {id child : NodeId} {name : String}
    (h : forest.childNamed name id = some child) : id < forest.size := by
  obtain ⟨node, hnode, _⟩ := Option.bind_eq_some_iff.mp h
  exact lt_of_node?_eq hnode

theorem descendant_append (first second : List String) (id : NodeId) :
    forest.descendant (first ++ second) id =
      (forest.descendant first id).bind (forest.descendant second) := by
  induction first generalizing id with
  | nil => rfl
  | cons name first ih =>
    simp only [List.cons_append, descendant, Option.bind_assoc]
    congr
    funext child
    exact ih child

theorem descendant_concat (names : List String) (name : String) (id : NodeId) :
    forest.descendant (names ++ [name]) id =
      (forest.descendant names id).bind (forest.childNamed name) := by
  rw [descendant_append]
  simp [descendant]

/-! ## Closed forests -/

structure Closed (forest : Forest ε) : Prop where
  parent_lt : ∀ ⦃id parent⦄, forest.parentOf id = some parent → parent < id
  child_lt : ∀ ⦃id name child⦄, forest.childNamed name id = some child → child < forest.size

theorem closed_iff : forest.Closed ↔
    ∀ id < forest.size, (∀ parent ∈ forest.parentOf id, parent < id) ∧
      ∀ node ∈ forest.node? id, ∀ child ∈ node.children.values, child < forest.size := by
  constructor
  · intro h id _
    refine ⟨fun parent hparent ↦ h.parent_lt hparent, fun node hnode child hchild ↦ ?_⟩
    obtain ⟨⟨name, child⟩, hentry, rfl⟩ := List.mem_map.mp hchild
    apply h.child_lt
    rw [childNamed_eq hnode name]
    exact (node.children.find?_eq_some_iff name child).mpr hentry
  · intro h
    constructor
    · intro id parent hparent
      exact (h id (lt_of_parentOf_eq_some hparent)).1 parent hparent
    · intro id name child hchild
      obtain ⟨node, hnode, hfind⟩ := Option.bind_eq_some_iff.mp hchild
      have hentry := (node.children.find?_eq_some_iff name child).mp hfind
      exact (h id (lt_of_node?_eq hnode)).2 node hnode child (List.mem_map.mpr ⟨_, hentry, rfl⟩)

instance : Decidable forest.Closed := decidable_of_iff _ closed_iff.symm

theorem Closed.namesakeOf_lt (h : forest.Closed) {id candidate child : NodeId}
    (hchild : forest.namesakeOf id candidate = some child) : child < forest.size := by
  obtain ⟨name, _, hfilter⟩ := Option.bind_eq_some_iff.mp hchild
  exact h.child_lt (Option.filter_eq_some_iff.mp hfilter).1

theorem Closed.descendant_lt (h : forest.Closed) {names : List String} {id found : NodeId}
    (hid : id < forest.size) (hfound : forest.descendant names id = some found) :
    found < forest.size := by
  induction names generalizing id with
  | nil => exact Option.some.inj hfound ▸ hid
  | cons name names ih =>
    obtain ⟨child, hchild, hfound⟩ := Option.bind_eq_some_iff.mp hfound
    exact ih (h.child_lt hchild) hfound

/-! ## Reading a forest -/

theorem child?_eq_ok {id : NodeId} (hid : id < forest.size) (name : String) :
    forest.child? id name = .ok (forest.childNamed name id) := by
  obtain ⟨node, hnode⟩ := exists_node?_of_lt hid
  unfold child?
  rw [node_eq_ok hnode, childNamed_eq hnode]
  rfl

theorem namesake?_eq_ok {id candidate : NodeId} {node : Node ε}
    (hnode : forest.node? id = some node) (hcandidate : candidate < forest.size) :
    forest.namesake? id node.name candidate = .ok (forest.namesakeOf id candidate) := by
  unfold namesake? namesakeOf
  rw [child?_eq_ok hcandidate, nameOf_eq hnode]
  rfl

theorem Closed.descend_eq_ok (h : forest.Closed) {id : NodeId} (hid : id < forest.size)
    (names : List String) : forest.descend id names = .ok (forest.descendant names id) := by
  induction names generalizing id with
  | nil => rfl
  | cons name names ih =>
    simp only [descend, descendant, child?_eq_ok hid]
    cases hchild : forest.childNamed name id with
    | none => rfl
    | some child => exact ih (h.child_lt hchild)

section List

variable {α β : Type} {read : α → Except Error (Option β)} {probe : α → Option β} {items : List α}
  (h : ∀ item ∈ items, read item = .ok (probe item))
include h

theorem findSomeM?_eq_ok : items.findSomeM? read = .ok (items.findSome? probe) := by
  induction items with
  | nil => rfl
  | cons item items ih =>
    obtain ⟨hitem, hitems⟩ := List.forall_mem_cons.mp h
    rw [List.findSomeM?_cons, hitem, List.findSome?_cons]
    cases probe item with
    | some found => rfl
    | none => exact ih hitems

theorem filterMapM_eq_ok : items.filterMapM read = .ok (items.filterMap probe) := by
  induction items with
  | nil => rfl
  | cons item items ih =>
    obtain ⟨hitem, hitems⟩ := List.forall_mem_cons.mp h
    rw [List.filterMapM_cons, hitem, ih hitems, List.filterMap_cons]
    cases probe item with
    | some found => rfl
    | none => rfl

end List

theorem Closed.exists_lineWithin (h : forest.Closed) {limit : Nat} {id : NodeId}
    (hid : id < forest.size) (hlimit : id < limit) :
    ∃ names, forest.lineWithin limit id = .ok names := by
  induction limit generalizing id with
  | zero => exact absurd hlimit (Nat.not_lt_zero id)
  | succ limit ih =>
    obtain ⟨node, hnode⟩ := exists_node?_of_lt hid
    simp only [lineWithin, node_eq_ok hnode, bind, Except.bind]
    cases hparent : node.parent with
    | none => exact ⟨[node.name], rfl⟩
    | some parent =>
      have hlt := h.parent_lt ((parentOf_eq hnode).trans hparent)
      obtain ⟨names, hnames⟩ :=
        ih (Nat.lt_trans hlt hid) (Nat.lt_of_lt_of_le hlt (Nat.le_of_lt_succ hlimit))
      exact ⟨node.name :: names, by simp only [hnames]; rfl⟩

/-- Every node of a closed forest has a path. -/
theorem Closed.exists_path (h : forest.Closed) {id : NodeId} (hid : id < forest.size) :
    ∃ path, forest.path id = .ok path := by
  obtain ⟨names, hnames⟩ := h.exists_lineWithin hid (Nat.lt_succ_of_lt hid)
  refine ⟨".".intercalate names.reverse, ?_⟩
  unfold path line
  rw [hnames]
  rfl

end Forest

end Lineage
