import Lineage.Proofs.Containment
import Lineage.Proofs.Blueprint.Places
import Mathlib.Data.List.Induction

/-!
# Paths and look-ups

The path of a node joins the names that lead down to it, and a look-up takes a path apart at its dots
and follows child names.  In an orderly forest the names from a node up to its root, reversed, lead from
that root down to the node (`descendant_iff`).  So a look-up only finds a node of that path.  It finds a
node by its path just if the path can be taken apart into these names, and the root is the one of its
name that is indexed.
-/

namespace Lineage

variable {ε : Type}

namespace Forest

/-- No segment of a path has a dot. -/
theorem dot_not_mem_of_mem_segments {path name : String} (h : name ∈ segments path) :
    '.' ∉ name.toList := by
  have hsplit : ∀ chars : List Char, ∀ part ∈ chars.splitOn '.', '.' ∉ part := by
    intro chars
    unfold List.splitOn
    induction chars with
    | nil => simp [List.splitOnP_nil]
    | cons char chars ih =>
      rw [List.splitOnP_cons_eq_if_modifyHead]
      split
      next => simpa using ih
      next hchar =>
        cases hrest : chars.splitOnP (· == '.') with
        | nil => exact nofun
        | cons part parts =>
          rw [hrest] at ih
          obtain ⟨hpart, hparts⟩ := List.forall_mem_cons.mp ih
          refine List.forall_mem_cons.mpr ⟨List.not_mem_cons_of_ne_of_not_mem ?_ hpart, hparts⟩
          exact fun heq ↦ hchar (beq_iff_eq.mpr heq.symm)
  obtain ⟨part, hpart, rfl⟩ := List.mem_map.mp h
  simpa using hsplit path.toList part hpart

variable {forest : Forest ε}

/-! ## Lines -/

/-- `names` are the names from the node `id` up to its root. -/
inductive Line (forest : Forest ε) : NodeId → List String → Prop
  | root {id name} : forest.parentOf id = none → forest.nameOf id = some name → Line forest id [name]
  | child {id parent name names} : forest.parentOf id = some parent → forest.nameOf id = some name →
      Line forest parent names → Line forest id (name :: names)

theorem Line.unique {id : NodeId} {names names' : List String} (h : forest.Line id names)
    (h' : forest.Line id names') : names = names' := by
  induction h generalizing names' with
  | root hparent hname =>
    cases h' with
    | root _ hname' => rw [Option.some.inj (hname.symm.trans hname')]
    | child hparent' => exact nomatch hparent.symm.trans hparent'
  | child hparent hname _ ih =>
    cases h' with
    | root hparent' => exact nomatch hparent.symm.trans hparent'
    | child hparent' hname' hline' =>
      obtain rfl := Option.some.inj (hparent.symm.trans hparent')
      rw [Option.some.inj (hname.symm.trans hname'), ih hline']

namespace Orderly

variable (h : forest.Orderly)
include h

theorem exists_line {id : NodeId} (hid : id < forest.size) :
    ∃ names, forest.line id = .ok names ∧ forest.Line id names := by
  have hwithin : ∀ limit id, id < forest.size → id < limit →
      ∃ names, forest.lineWithin limit id = .ok names ∧ forest.Line id names := by
    intro limit
    induction limit with
    | zero => exact fun id _ hlimit ↦ absurd hlimit (Nat.not_lt_zero id)
    | succ limit ih =>
      intro id hid hlimit
      obtain ⟨node, hnode⟩ := exists_node?_of_lt hid
      simp only [lineWithin, node_eq_ok hnode, bind, Except.bind]
      cases hparent : node.parent with
      | none => exact ⟨[node.name], rfl, .root ((parentOf_eq hnode).trans hparent) (nameOf_eq hnode)⟩
      | some parent =>
        have hparentOf := (parentOf_eq hnode).trans hparent
        have hlt := h.parent_lt hparentOf
        obtain ⟨names, hnames, hline⟩ :=
          ih parent (Nat.lt_trans hlt hid) (Nat.lt_of_lt_of_le hlt (Nat.le_of_lt_succ hlimit))
        refine ⟨node.name :: names, ?_, .child hparentOf (nameOf_eq hnode) hline⟩
        simp only [hnames]
        rfl
  exact hwithin (forest.size + 1) id hid (Nat.lt_succ_of_lt hid)

theorem path_eq_of_line {id : NodeId} {names : List String} (hid : id < forest.size)
    (hline : forest.Line id names) : forest.path id = .ok (".".intercalate names.reverse) := by
  obtain ⟨names', hnames, hline'⟩ := h.exists_line hid
  unfold path
  rw [hnames, hline'.unique hline]
  rfl

/-- A line ends with the name of the root. -/
theorem exists_top {id root : NodeId} {names : List String} (hline : forest.Line id names)
    (hroot : forest.rootOf id = some root) :
    ∃ top below, names = below ++ [top] ∧ forest.nameOf root = some top := by
  induction hline with
  | @root id name hparent hname =>
    have hself := h.root_self ⟨lt_of_nameOf_eq_some hname, hparent⟩
    obtain rfl := Option.some.inj (hself.symm.trans hroot)
    exact ⟨name, [], rfl, hname⟩
  | @child _ _ name _ hparent _ _ ih =>
    obtain ⟨top, below, rfl, htop⟩ := ih ((h.root_parent hparent).symm.trans hroot)
    exact ⟨top, name :: below, rfl, htop⟩

/-- Names lead from a root down to a node just if they are the names up to that root. -/
theorem descendant_iff {root id : NodeId} {top : String} {names : List String}
    (hroot : forest.IsRoot root) (htop : forest.nameOf root = some top) :
    forest.descendant names root = some id ↔
      forest.rootOf id = some root ∧ forest.Line id (names.reverse ++ [top]) := by
  -- The last name is that of the node itself, and those before it lead to its parent.
  induction names using List.reverseRecOn generalizing id with
  | nil =>
    constructor
    · intro hfound
      obtain rfl := Option.some.inj hfound
      exact ⟨h.root_self hroot, .root hroot.2 htop⟩
    · rintro ⟨hrootOf, hline⟩
      cases hline with
      | root hparent hname =>
        have hself := h.root_self ⟨lt_of_nameOf_eq_some hname, hparent⟩
        exact hrootOf.symm.trans hself ▸ rfl
      | child _ _ hline => exact nomatch hline
  | append_singleton names name ih =>
    rw [descendant_concat, Option.bind_eq_some_iff, List.reverse_concat, List.cons_append]
    constructor
    · rintro ⟨parent, hdescendant, hchild⟩
      obtain ⟨hrootOf, hline⟩ := ih.mp hdescendant
      obtain ⟨hparent, hname⟩ := h.child_iff.mp hchild
      exact ⟨(h.root_parent hparent).trans hrootOf, .child hparent hname hline⟩
    · rintro ⟨hrootOf, hline⟩
      generalize hrest : names.reverse ++ [top] = rest at hline
      cases hline with
      | root => simp at hrest
      | @child _ parent _ _ hparent hname hline =>
        refine ⟨parent, ih.mpr ⟨(h.root_parent hparent).symm.trans hrootOf, hrest ▸ hline⟩, ?_⟩
        exact h.child_iff.mpr ⟨hparent, hname⟩

/-! ## Look-ups -/

/-- A look-up goes from the indexed root on, and never fails. -/
theorem find_eq_ok {path top : String} {names : List String} (hsegments : segments path = top :: names) :
    forest.find path = .ok ((forest.roots.find? top).bind (forest.descendant names)) := by
  unfold find
  rw [hsegments]
  cases hroot : forest.roots.find? top with
  | none => simp only [hroot]; rfl
  | some root =>
    simp only [hroot]
    exact h.closed.descend_eq_ok (h.roots_iff.mp hroot).2.1.1 names

theorem exists_find (path : String) : ∃ found, forest.find path = .ok found := by
  cases hsegments : segments path with
  | nil => exact ⟨none, by unfold find; rw [hsegments]; rfl⟩
  | cons top names => exact ⟨_, h.find_eq_ok hsegments⟩

/-- The names up from a node that is found are the segments of the path. -/
theorem line_of_find {path : String} {id : NodeId} (hfind : forest.find path = .ok (some id)) :
    forest.Line id (segments path).reverse ∧
      ∃ root, forest.rootOf id = some root ∧ forest.IsLastRoot root := by
  cases hsegments : segments path with
  | nil =>
    unfold find at hfind
    rw [hsegments] at hfind
    exact nomatch hfind
  | cons top names =>
    rw [h.find_eq_ok hsegments] at hfind
    obtain ⟨root, hroot, hfound⟩ := Option.bind_eq_some_iff.mp (Except.ok.inj hfind)
    obtain ⟨hname, hlast⟩ := h.roots_iff.mp hroot
    obtain ⟨hrootOf, hline⟩ := (h.descendant_iff hlast.1 hname).mp hfound
    refine ⟨?_, root, hrootOf, hlast⟩
    rw [List.reverse_cons]
    exact hline

theorem path_of_find {path : String} {id : NodeId} (hfind : forest.find path = .ok (some id)) :
    forest.path id = .ok path := by
  obtain ⟨hline, root, hroot, _⟩ := h.line_of_find hfind
  obtain ⟨node, hnode, _⟩ := Option.map_eq_some_iff.mp hroot
  rw [h.path_eq_of_line (lt_of_node?_eq hnode) hline, List.reverse_reverse, intercalate_segments]

/-- A node is found by its path just if no name on its line has a dot and its root is the last of its
name. -/
theorem find_path_iff {id root : NodeId} {line : List String} (hline : forest.Line id line)
    (hroot : forest.rootOf id = some root) :
    forest.find (".".intercalate line.reverse) = .ok (some id) ↔
      (∀ name ∈ line, '.' ∉ name.toList) ∧ forest.IsLastRoot root := by
  constructor
  · intro hfind
    obtain ⟨hline', root', hroot', hlast⟩ := h.line_of_find hfind
    obtain rfl := Option.some.inj (hroot.symm.trans hroot')
    refine ⟨fun name hname ↦ ?_, hlast⟩
    rw [hline.unique hline', List.mem_reverse] at hname
    exact dot_not_mem_of_mem_segments hname
  · rintro ⟨hdots, hlast⟩
    obtain ⟨top, below, rfl, htop⟩ := h.exists_top hline hroot
    rw [List.reverse_concat]
    have hsegments : segments (".".intercalate (top :: below.reverse)) = top :: below.reverse := by
      apply segments_intercalate
      · simpa [and_comm, or_imp, forall_and] using hdots
      · exact List.cons_ne_nil _ _
    have hfound : forest.descendant below.reverse root = some id :=
      (h.descendant_iff hlast.1 htop).mpr ⟨hroot, by rwa [List.reverse_reverse]⟩
    rw [h.find_eq_ok hsegments, h.roots_iff.mpr ⟨htop, hlast⟩, Option.bind_some, hfound]

end Orderly

end Forest

/-- After any orderly calls, with any names in them, a node is found by its own path only, and it is
found by that path just if no name on its line has a dot and its root is the last of its name. -/
theorem Client.paths_after [Family ε] (recording : Bool) {calls : List (Call ε)}
    (horderly : ∀ call ∈ calls, call.isOrderly = true) :
    let forest := ((start ε recording).after calls).session.forest
    (∀ path, ∃ found, forest.find path = .ok found) ∧
    (∀ path id, forest.find path = .ok (some id) → forest.path id = .ok path) ∧
    ∀ id < forest.size, ∃ path line root, forest.path id = .ok path ∧ forest.line id = .ok line ∧
      forest.rootOf id = some root ∧ (forest.find path = .ok (some id) ↔
        (∀ name ∈ line, '.' ∉ name.toList) ∧ forest.IsLastRoot root) := by
  intro forest
  have h : forest.Orderly := orderly_after recording horderly
  refine ⟨h.exists_find, fun path id ↦ h.path_of_find, fun id hid ↦ ?_⟩
  obtain ⟨line, hnames, hline⟩ := h.exists_line hid
  obtain ⟨root, hroot, _⟩ := h.exists_root hid
  exact ⟨_, line, root, h.path_eq_of_line hid hline, hnames, hroot, h.find_path_iff hline hroot⟩

/-- Two rooms of one path, one of them with a dot in its name, and two houses of one name.  The later
house has no such room, so neither of the two is found by its path. -/
theorem Client.paths_of_dotted_rooms :
    let house : Call Unit := .request (.edit (.addRoot "house" ()))
    let room (id : NodeId) (name : String) : Call Unit := .request (.edit (.obtainChild id name))
    let calls := [house, room 0 "bath.tub", room 0 "bath", room 2 "tub", room 3 "",
      .request (.edit (.extend 1 3)), house, room 5 "bath", .request (.query (.chain 6))]
    (∀ call ∈ calls, call.isOrderly = true) ∧
      let forest := ((start Unit false).after calls).session.forest
      forest.path 1 = .ok "house.bath.tub" ∧ forest.path 3 = .ok "house.bath.tub" ∧
      forest.find "house.bath.tub" = .ok none ∧ forest.find "house.bath" = .ok (some 6) ∧
      (∀ path, ∃ found, forest.find path = .ok found) ∧
      (∀ path id, forest.find path = .ok (some id) → forest.path id = .ok path) ∧
      ∀ id < forest.size, ∃ path line root, forest.path id = .ok path ∧ forest.line id = .ok line ∧
        forest.rootOf id = some root ∧ (forest.find path = .ok (some id) ↔
          (∀ name ∈ line, '.' ∉ name.toList) ∧ forest.IsLastRoot root) := by
  intro house room calls
  have horderly : ∀ call ∈ calls, call.isOrderly = true := by decide
  refine ⟨horderly, ?_, ?_, ?_, ?_, paths_after false horderly⟩
  all_goals decide +kernel

end Lineage
