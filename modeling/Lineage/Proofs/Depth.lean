import Lineage.Proofs.Containment

/-!
# Depths

The depth of a node is the number of parents above it.  It does not change while a forest grows, nor do
names, parents and roots.

A node is `Over` another if it is as deep and its root is above that of the other, with regard to some
order of the roots.  A session is `Layered` if every base that it remembers is over the node whose base
it is.  Changes keep that, as long as the bases that are set are over their nodes.
-/

namespace Lineage

open Relation

variable {ε : Type}

namespace Forest

/-! ## Depths -/

/-- The number of parents above a node, counting `limit` at most. -/
def depthWithin (forest : Forest ε) : (limit : Nat) → NodeId → Nat
  | 0, _ => 0
  | limit + 1, id => (forest.parentOf id).elim 0 fun parent ↦ forest.depthWithin limit parent + 1

/-- The number of parents above a node.  Where parents come first there are no more than `id`. -/
def depth (forest : Forest ε) (id : NodeId) : Nat := forest.depthWithin id id

variable {forest before between after : Forest ε} {id base parent : NodeId}

theorem depthWithin_eq_zero (hparent : forest.parentOf id = none) (limit : Nat) :
    forest.depthWithin limit id = 0 := by
  cases limit with
  | zero => rfl
  | succ limit => rw [depthWithin, hparent, Option.elim_none]

theorem Closed.depthWithin_eq (h : forest.Closed) {limit limit' : Nat} (hlimit : id ≤ limit)
    (hlimit' : id ≤ limit') : forest.depthWithin limit id = forest.depthWithin limit' id := by
  induction limit generalizing id limit' with
  | zero =>
    cases hparent : forest.parentOf id with
    | none => rw [depthWithin_eq_zero hparent, depthWithin_eq_zero hparent]
    | some parent => exact absurd (Nat.lt_of_lt_of_le (h.parent_lt hparent) hlimit) (Nat.not_lt_zero parent)
  | succ limit ih =>
    cases hparent : forest.parentOf id with
    | none => rw [depthWithin_eq_zero hparent, depthWithin_eq_zero hparent]
    | some parent =>
      have hlt := Nat.lt_of_lt_of_le (h.parent_lt hparent) hlimit
      have hlt' := Nat.lt_of_lt_of_le (h.parent_lt hparent) hlimit'
      obtain ⟨limit', rfl⟩ := Nat.exists_eq_add_one_of_ne_zero (Nat.ne_zero_of_lt hlt')
      rw [depthWithin, depthWithin, hparent, Option.elim_some, Option.elim_some,
        ih (Nat.le_of_lt_succ hlt) (Nat.le_of_lt_succ hlt')]

theorem Closed.depth_of_parent (h : forest.Closed) (hparent : forest.parentOf id = some parent) :
    forest.depth id = forest.depth parent + 1 := by
  have hlt := h.parent_lt hparent
  obtain ⟨limit, rfl⟩ := Nat.exists_eq_add_one_of_ne_zero (Nat.ne_zero_of_lt hlt)
  unfold depth
  rw [depthWithin, hparent, Option.elim_some, h.depthWithin_eq (Nat.le_of_lt_succ hlt) (Nat.le_refl parent)]

theorem depth_of_not_parent (hparent : forest.parentOf id = none) : forest.depth id = 0 :=
  depthWithin_eq_zero hparent id

/-! ## Growth -/

/-- Nodes are only added, and those that were there keep names, parents and roots. -/
structure Grows (before after : Forest ε) : Prop where
  size_le : before.size ≤ after.size
  name : ∀ ⦃id⦄, id < before.size → after.nameOf id = before.nameOf id
  parent : ∀ ⦃id⦄, id < before.size → after.parentOf id = before.parentOf id
  root : ∀ ⦃id⦄, id < before.size → after.rootOf id = before.rootOf id

theorem Grows.refl (forest : Forest ε) : Grows forest forest :=
  ⟨Nat.le_refl _, fun _ _ ↦ rfl, fun _ _ ↦ rfl, fun _ _ ↦ rfl⟩

theorem Grows.trans (h : Grows before between) (h' : Grows between after) : Grows before after where
  size_le := Nat.le_trans h.size_le h'.size_le
  name _ hid := (h'.name (Nat.lt_of_lt_of_le hid h.size_le)).trans (h.name hid)
  parent _ hid := (h'.parent (Nat.lt_of_lt_of_le hid h.size_le)).trans (h.parent hid)
  root _ hid := (h'.root (Nat.lt_of_lt_of_le hid h.size_le)).trans (h.root hid)

theorem grows_add (name : String) (payload : ε) (parent root : Option NodeId) :
    Grows forest (forest.add name payload parent root) where
  size_le := by
    rw [size_add]
    exact Nat.le_succ _
  name id hid := by rw [nameOf_add, if_neg (Nat.ne_of_lt hid)]
  parent id hid := by rw [parentOf_add, if_neg (Nat.ne_of_lt hid)]
  root id hid := by rw [rootOf_add, if_neg (Nat.ne_of_lt hid)]

theorem grows_modify {change : Node ε → Node ε} (hname : ∀ node, (change node).name = node.name)
    (hparent : ∀ node, (change node).parent = node.parent) (hroot : ∀ node, (change node).root = node.root)
    (id : NodeId) : Grows forest (forest.modify id change) where
  size_le := Nat.le_of_eq (size_modify ..).symm
  name other _ := nameOf_modify hname other
  parent other _ := parentOf_modify hparent other
  root other _ := rootOf_modify hroot other

theorem Grows.depth (h : Grows before after) (hclosed : before.Closed) (hid : id < before.size) :
    after.depth id = before.depth id := by
  have hwithin : ∀ limit id, id < before.size →
      after.depthWithin limit id = before.depthWithin limit id := by
    -- Not on `id`: the limit of a parent is one less, whatever its id.
    intro limit
    induction limit with
    | zero => exact fun _ _ ↦ rfl
    | succ limit ih =>
      intro id hid
      rw [depthWithin, depthWithin, h.parent hid]
      cases hparent : before.parentOf id with
      | none => rfl
      | some parent =>
        rw [Option.elim_some, Option.elim_some, ih parent (Nat.lt_trans (hclosed.parent_lt hparent) hid)]
  exact hwithin id id hid

/-! ## Nodes over others -/

variable {above : NodeId → NodeId → Prop}

/-- The node `base` is as deep as `id`, and its root is above that of `id`. -/
structure Over (forest : Forest ε) (above : NodeId → NodeId → Prop) (id base : NodeId) : Prop where
  same_depth : forest.depth base = forest.depth id
  roots : ∃ root top, forest.rootOf id = some root ∧ forest.rootOf base = some top ∧ above root top

namespace Over

variable (h : forest.Over above id base)
include h

theorem lt_size : id < forest.size ∧ base < forest.size := by
  obtain ⟨_, _, hroot, htop, _⟩ := h.roots
  obtain ⟨node, hnode, _⟩ := Option.map_eq_some_iff.mp hroot
  obtain ⟨baseNode, hbaseNode, _⟩ := Option.map_eq_some_iff.mp htop
  exact ⟨lt_of_node?_eq hnode, lt_of_node?_eq hbaseNode⟩

theorem trans [IsTrans NodeId above] {farther : NodeId} (h' : forest.Over above base farther) :
    forest.Over above id farther where
  same_depth := h'.same_depth.trans h.same_depth
  roots := by
    obtain ⟨root, top, hroot, htop, habove⟩ := h.roots
    obtain ⟨_, farTop, htop', hfarTop, habove'⟩ := h'.roots
    obtain rfl := Option.some.inj (htop.symm.trans htop')
    exact ⟨root, farTop, hroot, hfarTop, IsTrans.trans _ _ _ habove habove'⟩

/-- Children of nodes of which one is over the other. -/
theorem child (hforest : forest.Orderly) {child baseChild : NodeId}
    (hchild : forest.parentOf child = some id) (hbaseChild : forest.parentOf baseChild = some base) :
    forest.Over above child baseChild where
  same_depth := by
    rw [hforest.closed.depth_of_parent hchild, hforest.closed.depth_of_parent hbaseChild, h.same_depth]
  roots := by
    rw [hforest.root_parent hchild, hforest.root_parent hbaseChild]
    exact h.roots

theorem grows (hclosed : forest.Closed) (hgrows : Grows forest after) : after.Over above id base where
  same_depth := by
    rw [hgrows.depth hclosed h.lt_size.1, hgrows.depth hclosed h.lt_size.2]
    exact h.same_depth
  roots := by
    rw [hgrows.root h.lt_size.1, hgrows.root h.lt_size.2]
    exact h.roots

end Over

/-- A node that is over itself has a root that is above itself. -/
theorem Over.exists_above_self (h : forest.Over above id id) : ∃ root, above root root := by
  obtain ⟨root, top, hroot, htop, habove⟩ := h.roots
  obtain rfl := Option.some.inj (hroot.symm.trans htop)
  exact ⟨root, habove⟩

end Forest

namespace Session

variable {set? : Option (NodeId × Option NodeId)} {session between after : Session ε}
  {above : NodeId → NodeId → Prop}

theorem Change.grows (h : Change set? session after) : Forest.Grows session.forest after.forest := by
  cases h with
  | addRoot name payload => exact Forest.grows_add name payload none none
  | addChild payload hnode _ =>
    apply (Forest.grows_add ..).trans
    apply Forest.grows_modify
    all_goals exact fun _ ↦ rfl
  | setPayload | setBase =>
    apply Forest.grows_modify
    all_goals exact fun _ ↦ rfl

/-- The only slot that a change fills is that of the node whose base is set. -/
theorem Change.slot (h : Change set? session after) (id : NodeId) :
    after.memo.slot id = session.memo.slot id ∨
      ∃ base, set? = some (id, base) ∧ after.memo.slot id = .resolved base := by
  cases h with
  | addRoot | addChild => exact .inl (Memo.slot_grow ..)
  | setPayload => exact .inl rfl
  | @setBase _ _ base baseName hnode hset =>
    rw [Memo.slot_fill]
    split
    next hfilled => exact .inr ⟨base, hfilled.1 ▸ hset, rfl⟩
    next => exact .inl (Memo.slot_noteOverwrite ..)

/-- A session stays valid where what is set is there. -/
theorem Change.valid (h : Change set? session after) (hvalid : session.Valid)
    (hforest : session.forest.Orderly)
    (hset : ∀ id base, set? = some (id, some base) → base < session.forest.size) : after.Valid := by
  have hclosed : after.forest.Closed := (h.orderly hforest).closed
  cases h with
  | addRoot name payload => exact hvalid.add (by simp) name payload none
  | @addChild id node name payload hnode _ =>
    have hparent : ∀ parent ∈ some id, parent < session.forest.size :=
      fun _ hparent ↦ Option.some.inj hparent ▸ Forest.lt_of_node?_eq hnode
    apply (hvalid.add hparent name payload (some node.root)).of_forest (Forest.size_modify ..)
    · exact Forest.parentOf_modify fun _ ↦ rfl
    · exact fun _ _ _ hchild ↦ Nat.lt_of_lt_of_eq (hclosed.child_lt hchild) (Forest.size_modify ..)
  | setPayload =>
    apply hvalid.of_forest (Forest.size_modify ..)
    · exact Forest.parentOf_modify fun _ ↦ rfl
    · exact fun _ _ _ hchild ↦ Nat.lt_of_lt_of_eq (hclosed.child_lt hchild) (Forest.size_modify ..)
  | @setBase id node base baseName _ hset' =>
    have hbase : ∀ found ∈ base, found < session.forest.size :=
      fun found hfound ↦ hset id found (hfound ▸ hset')
    apply (hvalid.resolve hbase (Memo.slots_fill_noteOverwrite ..)).of_forest (Forest.size_modify ..)
    · exact Forest.parentOf_modify fun _ ↦ rfl
    · exact fun _ _ _ hchild ↦ Nat.lt_of_lt_of_eq (hclosed.child_lt hchild) (Forest.size_modify ..)

/-! ## Layers -/

/-- A session in which every base that is known is over its node. -/
structure Layered (above : NodeId → NodeId → Prop) (session : Session ε) : Prop where
  valid : session.Valid
  orderly : session.forest.Orderly
  base_over : ∀ ⦃id base⦄, session.memo.slot id = .resolved (some base) → session.forest.Over above id base

theorem layered_empty (recording : Bool) : (Session.empty ε recording).Layered above where
  valid := valid_empty recording
  orderly := Forest.orderly_empty
  base_over id base hslot := by simp [Session.empty] at hslot

namespace Layered

theorem of_slots_eq (h : session.Layered above) {memo : Memo} (hslots : memo.slots = session.memo.slots) :
    Layered above ⟨session.forest, memo⟩ where
  valid := h.valid.of_slots_eq hslots
  orderly := h.orderly
  base_over id base hslot := by
    rw [Memo.slot_eq_of_slots_eq hslots] at hslot
    exact h.base_over hslot

/-- A change keeps the layers if a base that it sets is over its node. -/
theorem change (h : session.Layered above) (hchange : Change set? session after)
    (hset : ∀ id base, set? = some (id, some base) → session.forest.Over above id base) :
    after.Layered above where
  valid := hchange.valid h.valid h.orderly fun id base hsets ↦ (hset id base hsets).lt_size.2
  orderly := hchange.orderly h.orderly
  base_over id base hslot := by
    apply Forest.Over.grows _ h.orderly.closed hchange.grows
    rcases hchange.slot id with hsame | ⟨base', hsets, hfilled⟩
    · exact h.base_over (hsame.symm.trans hslot)
    · obtain rfl := Slot.resolved.inj (hfilled.symm.trans hslot)
      exact hset id base hsets

theorem changes (h : session.Layered above) (hchanges : Changes set? session after)
    (hset : ∀ id base, set? = some (id, some base) → session.forest.Over above id base) :
    after.Layered above ∧ Forest.Grows session.forest after.forest := by
  induction hchanges with
  | refl => exact ⟨h, .refl _⟩
  | tail _ hlast ih =>
    obtain ⟨hbetween, hgrows⟩ := ih
    refine ⟨hbetween.change hlast fun id base hsets ↦ ?_, hgrows.trans hlast.grows⟩
    exact (hset id base hsets).grows h.orderly.closed hgrows

end Layered

end Session

end Lineage
