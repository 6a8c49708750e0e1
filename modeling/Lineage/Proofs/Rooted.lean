import Lineage.Proofs.Growth

/-!
# Bases between roots

A session is built if it comes about from the empty one by adding root-level nodes, obtaining
children, and setting bases from root-level nodes to root-level nodes, before any base is read.  Such
bases may go round in circles.

In a built session every child knows its parent and the name it is registered under, nothing but the
bases of root-level nodes is resolved, and these are root-level themselves.  `Rooted` says so of a
session; each edit keeps it (`Rooted.step`), so it holds of every built session (`Built.rooted`).
-/

namespace Lineage

/-- There is a node at `id`, and it has no parent. -/
def Forest.IsRoot {ε : Type} (forest : Forest ε) (id : NodeId) : Prop :=
  id < forest.size ∧ forest.parentOf id = none

instance {ε : Type} (forest : Forest ε) (id : NodeId) : Decidable (forest.IsRoot id) :=
  inferInstanceAs (Decidable (_ ∧ _))

namespace Session

variable {ε : Type}

section Built

variable [Family ε]

/-- The edits by which a session is built.  A child has to be obtained successfully. -/
def Permits (session : Session ε) : Edit ε → Prop
  | .addRoot _ _ => True
  | .obtainChild id name => ∃ child, (session.step (Action.obtainChild id name)).1 = .ok child
  | .declareBase id _ base =>
    session.forest.IsRoot id ∧ ∀ found ∈ base, session.forest.IsRoot found
  | .extend id base => session.forest.IsRoot id ∧ session.forest.IsRoot base
  | .insert .. | .register .. | .replacePayload .. => False

inductive Built : Session ε → Prop
  | empty (recording : Bool) : Built (Session.empty ε recording)
  | step {session edit} : Built session → session.Permits edit →
      Built (session.step edit.perform).2

end Built

structure Rooted (session : Session ε) : Prop where
  valid : session.Valid
  child : ∀ ⦃id name child⦄, session.forest.childNamed name id = some child →
    session.forest.nameOf child = some name ∧ session.forest.parentOf child = some id
  open_of_parent : ∀ ⦃id parent⦄, session.forest.parentOf id = some parent →
    session.memo.slot id = .unresolved
  base_isRoot : ∀ ⦃id base⦄, session.memo.slot id = .resolved (some base) →
    session.forest.IsRoot base

theorem rooted_empty (recording : Bool) : (Session.empty ε recording).Rooted where
  valid := valid_empty recording
  child id name child hchild := by
    exact absurd (Forest.lt_of_childNamed_eq_some hchild) (Nat.not_lt_zero id)
  open_of_parent _ _ _ := rfl
  base_isRoot id base hslot := by simp [Session.empty] at hslot

namespace Rooted

variable {session : Session ε} (h : session.Rooted)
include h

theorem of_slots_eq {memo : Memo} (hslots : memo.slots = session.memo.slots) :
    Rooted ⟨session.forest, memo⟩ where
  valid := h.valid.of_slots_eq hslots
  child := h.child
  open_of_parent id parent hparent := by
    rw [Memo.slot_eq_of_slots_eq hslots]
    exact h.open_of_parent hparent
  base_isRoot id base hslot := by
    rw [Memo.slot_eq_of_slots_eq hslots] at hslot
    exact h.base_isRoot hslot

/-! ## Edits -/

theorem add {parent : Option NodeId} (hparent : ∀ id ∈ parent, id < session.forest.size)
    (name : String) (payload : ε) (root : Option NodeId) :
    Rooted ⟨session.forest.add name payload parent root, session.memo.grow⟩ where
  valid := h.valid.add hparent name payload root
  child id key child hchild := by
    rw [Forest.childNamed_add] at hchild
    have hne := Nat.ne_of_lt (h.valid.closed.child_lt hchild)
    rw [Forest.nameOf_add, Forest.parentOf_add, if_neg hne, if_neg hne]
    exact h.child hchild
  open_of_parent id above habove := by
    rw [Forest.parentOf_add] at habove
    rw [Memo.slot_grow]
    split at habove
    next hid =>
      apply slot_of_not_lt
      rw [hid, h.valid.slots_size]
      exact Nat.lt_irrefl session.forest.size
    next => exact h.open_of_parent habove
  base_isRoot id base hslot := by
    rw [Memo.slot_grow] at hslot
    obtain ⟨hlt, hnone⟩ := h.base_isRoot hslot
    constructor
    · rw [Forest.size_add]
      exact Nat.lt_succ_of_lt hlt
    · rw [Forest.parentOf_add, if_neg (Nat.ne_of_lt hlt)]
      exact hnone

/-- A forest may change as long as no name and no parent does and children agree with both. -/
theorem of_forest {forest : Forest ε} (hsize : forest.size = session.forest.size)
    (hname : ∀ id, forest.nameOf id = session.forest.nameOf id)
    (hparent : ∀ id, forest.parentOf id = session.forest.parentOf id)
    (hchild : ∀ id name child, forest.childNamed name id = some child →
      session.forest.nameOf child = some name ∧ session.forest.parentOf child = some id) :
    Rooted ⟨forest, session.memo⟩ where
  valid := by
    apply h.valid.of_forest hsize hparent
    intro id name child hid
    exact Forest.lt_of_parentOf_eq_some (hchild id name child hid).2
  child id name child hid := by
    rw [hname, hparent]
    exact hchild id name child hid
  open_of_parent id parent hid := h.open_of_parent (hparent id ▸ hid)
  base_isRoot id base hslot := by
    unfold Forest.IsRoot
    rw [hsize, hparent]
    exact h.base_isRoot hslot

theorem register {id child : NodeId} {name : String} (hname : session.forest.nameOf child = some name)
    (hparent : session.forest.parentOf child = some id) :
    Rooted ⟨session.forest.modify id fun node ↦
      { node with children := node.children.insert name child }, session.memo⟩ := by
  have hid : id < session.forest.size :=
    Nat.lt_trans (h.valid.closed.parent_lt hparent) (Forest.lt_of_parentOf_eq_some hparent)
  apply h.of_forest
  · exact Forest.size_modify ..
  · exact Forest.nameOf_modify fun _ ↦ rfl
  · exact Forest.parentOf_modify fun _ ↦ rfl
  · intro other key found hfound
    rw [Forest.childNamed_register hid] at hfound
    split at hfound
    next hhere =>
      obtain ⟨rfl, rfl⟩ := hhere
      obtain rfl := Option.some.inj hfound
      exact ⟨hname, hparent⟩
    next => exact h.child hfound

theorem setBaseName (id : NodeId) (baseName : String) :
    Rooted ⟨session.forest.modify id fun node ↦ { node with baseName := some baseName },
      session.memo⟩ := by
  apply h.of_forest
  · exact Forest.size_modify ..
  · exact Forest.nameOf_modify fun _ ↦ rfl
  · exact Forest.parentOf_modify fun _ ↦ rfl
  · intro other key found hfound
    rw [Forest.childNamed_setBaseName] at hfound
    exact h.child hfound

theorem resolve {id : NodeId} {base : Option NodeId} {memo : Memo} (hid : session.forest.IsRoot id)
    (hbase : ∀ found ∈ base, session.forest.IsRoot found)
    (hslots : memo.slots = (session.memo.fill id (.resolved base)).slots) :
    Rooted ⟨session.forest, memo⟩ where
  valid := h.valid.resolve (fun found hfound ↦ (hbase found hfound).1) hslots
  child := h.child
  open_of_parent other parent hparent := by
    have hne : other ≠ id := by
      rintro rfl
      simp [hid.2] at hparent
    rw [Memo.slot_eq_of_slots_eq hslots, Memo.slot_fill_of_ne hne]
    exact h.open_of_parent hparent
  base_isRoot other found hslot := by
    rw [Memo.slot_eq_of_slots_eq hslots, Memo.slot_fill] at hslot
    split at hslot
    next => exact hbase found (Slot.resolved.inj hslot)
    next => exact h.base_isRoot hslot

theorem obtainChild [Family ε] {id child : NodeId} {name : String}
    (hobtained : ((Action.obtainChild id name).run session).1 = .ok child) :
    ((Action.obtainChild id name).run session).2.Rooted := by
  rcases Action.obtainChild_cases hobtained with hsame | ⟨hid, _, payload, root, hnew⟩
  · rw [hsame]
    exact h
  · rw [hnew]
    have hadded : Rooted ⟨session.forest.add name payload (some id) root, session.memo.grow⟩ :=
      h.add (fun _ hparent ↦ Option.some.inj hparent ▸ hid) name payload root
    apply hadded.register
    · rw [Forest.nameOf_add, if_pos rfl]
    · rw [Forest.parentOf_add, if_pos rfl]

theorem declareBase {id : NodeId} {base : Option NodeId} (hid : session.forest.IsRoot id)
    (hbase : ∀ found ∈ base, session.forest.IsRoot found) (baseName : String) :
    ((Action.declareBase id baseName base).run session).2.Rooted := by
  obtain ⟨node, hnode⟩ := Forest.exists_node?_of_lt hid.1
  rw [Action.run_declareBase hnode]
  exact (h.resolve hid hbase (Memo.slots_fill_noteOverwrite ..)).setBaseName id baseName

theorem extend {id base : NodeId} (hid : session.forest.IsRoot id)
    (hbase : session.forest.IsRoot base) : ((Action.extend id base).run session).2.Rooted := by
  obtain ⟨path, hpath⟩ := h.valid.closed.exists_path hbase.1
  rw [Action.run_extend hpath]
  exact h.declareBase hid (fun _ hfound ↦ Option.some.inj hfound ▸ hbase) path

theorem step [Family ε] {edit : Edit ε} (hpermits : session.Permits edit) :
    (session.step edit.perform).2.Rooted := by
  have hrestart : Rooted ⟨session.forest, session.memo.restart⟩ := h.of_slots_eq rfl
  unfold Session.step
  cases edit with
  | addRoot name payload =>
    exact hrestart.add (by simp) name payload none
  | obtainChild id name =>
    obtain ⟨child, hchild⟩ := hpermits
    unfold Edit.perform
    rw [Lookup.run_map]
    exact hrestart.obtainChild hchild
  | declareBase id baseName base =>
    unfold Edit.perform
    rw [Lookup.run_map]
    exact hrestart.declareBase hpermits.1 hpermits.2 baseName
  | extend id base =>
    unfold Edit.perform
    rw [Lookup.run_map]
    exact hrestart.extend hpermits.1 hpermits.2
  | insert => exact hpermits.elim
  | register => exact hpermits.elim
  | replacePayload => exact hpermits.elim

end Rooted

theorem Built.rooted [Family ε] {session : Session ε} (h : session.Built) : session.Rooted := by
  induction h with
  | empty recording => exact rooted_empty recording
  | step _ hpermits ih => exact ih.step hpermits

end Session

end Lineage
