import Lineage.Proofs.Blueprint.Places
import Lineage.Proofs.Rooted
import Mathlib.Logic.Function.Basic

/-!
# Building, step by step

A session represents a list of places if it has a node for each, in this order, with the children that
are in the list, and the bases of blocks set as a function says.  Obtaining a child represents one more
place, unless it was in the list already (`Represents.obtainChild`); and so do a selector, a block and
all blocks, each with all that it asks for.  Setting a base changes that function at one block
(`Represents.extend`).  In the end the session represents the places that the blueprint asks for, with
the bases that it gives its blocks (`exists_run_construct`).
-/

namespace Lineage

namespace Blueprint

theorem base?_cons (block : Block) (blocks : List Block) (name : String) :
    base? ⟨block :: blocks⟩ name = if block.name = name then block.base else base? ⟨blocks⟩ name := by
  unfold base? get?
  rw [List.find?_cons]
  by_cases hname : block.name = name <;> simp [hname]

theorem base?_eq_none {blocks : List Block} {name : String} (h : ∀ block ∈ blocks, block.name ≠ name) :
    base? ⟨blocks⟩ name = none := by
  have hnone : blocks.find? (·.name = name) = none := by simpa [List.find?_eq_none] using h
  simp [base?, get?, hnone]

end Blueprint

namespace Style

/-! ## What there is at a place -/

/-- What the base at a place is called, given what the bases of blocks are called. -/
def Place.baseName? (bases : String → Option String) : Place → Option String
  | block name => bases name
  | styleClass _ _ | state _ _ _ => none

/-- The slot of the node at a place: it is filled where the base has a name. -/
def Place.slot (places : List Place) (bases : String → Option String) (place : Place) : Slot :=
  match place.baseName? bases with
  | none => .unresolved
  | some base => .resolved (places.idxOf? (.block base))

@[simp]
theorem Place.baseName?_none (place : Place) : place.baseName? (fun _ ↦ none) = none := by
  cases place <;> rfl

@[simp]
theorem Place.slot_none (places : List Place) (place : Place) :
    place.slot places (fun _ ↦ none) = .unresolved := by
  simp [slot]

theorem Place.baseName?_of_kind_ne {place : Place} (h : place.kind ≠ .block)
    (bases : String → Option String) : place.baseName? bases = none := by
  cases place with
  | block => exact absurd rfl h
  | styleClass | state => rfl

theorem Place.baseName?_update {place : Place} {name : String} (h : place ≠ .block name)
    (bases : String → Option String) (base : Option String) :
    place.baseName? (Function.update bases name base) = place.baseName? bases := by
  cases place with
  | block other => exact Function.update_of_ne (fun heq ↦ h (congrArg block heq)) ..
  | styleClass | state => rfl

/-- A node says what belongs to a place, its children apart. -/
structure Stands (places : List Place) (bases : String → Option String) (place : Place)
    (node : Node Style) : Prop where
  name : node.name = place.name
  parent : node.parent = place.parent?.bind (places.idxOf? ·)
  root : places.idxOf? place.root = some node.root
  payload : node.payload = bare place.kind
  baseName : node.baseName = place.baseName? bases

section Update

variable {places : List Place} {bases : String → Option String} {name base : String}

theorem Place.slot_update_of_ne {place : Place} (h : place ≠ .block name) :
    place.slot places (Function.update bases name (some base)) = place.slot places bases := by
  unfold slot
  rw [Place.baseName?_update h]

theorem Place.slot_update_self :
    (Place.block name).slot places (Function.update bases name (some base)) =
      .resolved (places.idxOf? (.block base)) := by
  simp [slot, baseName?]

theorem Stands.update_of_ne {place : Place} {node : Node Style} (h : Stands places bases place node)
    (hne : place ≠ .block name) : Stands places (Function.update bases name (some base)) place node :=
  ⟨h.name, h.parent, h.root, h.payload, h.baseName.trans (Place.baseName?_update hne ..).symm⟩

theorem Stands.update_self {node : Node Style} (h : Stands places bases (.block name) node) :
    Stands places (Function.update bases name (some base)) (.block name)
      { node with baseName := some base } :=
  ⟨h.name, h.parent, h.root, h.payload, (Function.update_self name (some base) bases).symm⟩

end Update

/-- There is a node for each place, in the order of the list. -/
structure Represents (session : Session Style) (places : List Place)
    (bases : String → Option String) : Prop where
  rooted : session.Rooted
  nodup : places.Nodup
  size : session.forest.size = places.length
  parent_mem : ∀ place ∈ places, ∀ parent ∈ place.parent?, parent ∈ places
  roots : ∀ name, session.forest.roots.find? name = places.idxOf? (.block name)
  child : ∀ id place, places[id]? = some place → ∀ name,
    session.forest.childNamed name id = (place.child? name).bind (places.idxOf? ·)
  node : ∀ id place, places[id]? = some place →
    ∃ node, session.forest.node? id = some node ∧ Stands places bases place node
  slot : ∀ id place, places[id]? = some place → session.memo.slot id = place.slot places bases

theorem represents_empty (recording : Bool) (bases : String → Option String) :
    Represents (.empty Style recording) [] bases where
  rooted := Session.rooted_empty recording
  nodup := .nil
  size := rfl
  parent_mem _ hplace := nomatch hplace
  roots _ := rfl
  child _ _ hid := nomatch hid
  node _ _ hid := nomatch hid
  slot _ _ hid := nomatch hid

namespace Represents

variable {session : Session Style} {places : List Place} {bases : String → Option String}

section Facts

variable (h : Represents session places bases)
include h

theorem idxOf?_eq_some_iff {place : Place} {id : NodeId} :
    places.idxOf? place = some id ↔ places[id]? = some place :=
  Place.idxOf?_eq_some_iff_getElem? h.nodup

theorem exists_getElem? {id : NodeId} (hid : id < session.forest.size) :
    ∃ place, places[id]? = some place :=
  ⟨_, List.getElem?_eq_getElem (h.size ▸ hid)⟩

theorem id_lt {id : NodeId} {place : Place} (hid : places[id]? = some place) :
    id < session.forest.size :=
  h.size ▸ (List.getElem?_eq_some_iff.mp hid).1

theorem id_unique {id other : NodeId} {place : Place} (hid : places[id]? = some place)
    (hother : places[other]? = some place) : other = id :=
  Option.some.inj ((h.idxOf?_eq_some_iff.mpr hother).symm.trans (h.idxOf?_eq_some_iff.mpr hid))

theorem of_slots_eq {memo : Memo} (hslots : memo.slots = session.memo.slots) :
    Represents ⟨session.forest, memo⟩ places bases where
  rooted := h.rooted.of_slots_eq hslots
  nodup := h.nodup
  size := h.size
  parent_mem := h.parent_mem
  roots := h.roots
  child := h.child
  node := h.node
  slot id place hid := (Memo.slot_eq_of_slots_eq hslots id).trans (h.slot id place hid)

end Facts

/-! ## One more place -/

section Grow

variable (h : Represents session places fun _ ↦ none) {new : Place} (hnew : new ∉ places)
include h hnew

theorem stands_concat {place : Place} {node : Node Style} (hplace : place ∈ places)
    (hstands : Stands places (fun _ ↦ none) place node) :
    Stands (places ++ [new]) (fun _ ↦ none) place node where
  name := hstands.name
  parent := by
    have hne : place.parent? ≠ some new := fun heq ↦ hnew (h.parent_mem place hplace new heq)
    rw [hstands.parent, Place.bind_idxOf?_concat hne]
  root := by
    have hroot : place.root ∈ places :=
      List.mem_of_getElem? (h.idxOf?_eq_some_iff.mp hstands.root)
    rw [Place.idxOf?_concat_of_mem hroot hnew]
    exact hstands.root
  payload := hstands.payload
  baseName := hstands.baseName

/-- Nothing is below a place that was not there. -/
theorem child_not_mem {child : Place} {name : String} (hchild : new.child? name = some child) :
    child ∉ places ++ [new] := by
  obtain ⟨hparent, _⟩ := Place.child?_eq_some_iff.mp hchild
  intro hmem
  rcases List.mem_append.mp hmem with hmem | hmem
  · exact hnew (h.parent_mem child hmem new hparent)
  · obtain rfl := List.mem_singleton.mp hmem
    exact Place.parent?_ne_self child hparent

variable {parent root : Option NodeId}

/-- The node that is added stands at the new place, and all others where they stood. -/
theorem exists_stands_add (hparent : parent = new.parent?.bind (places.idxOf? ·))
    (hroot : (places ++ [new]).idxOf? new.root = some (root.getD places.length))
    {id : NodeId} {place : Place} (hid : (places ++ [new])[id]? = some place) :
    ∃ node, (session.forest.add new.name (bare new.kind) parent root).node? id = some node ∧
      Stands (places ++ [new]) (fun _ ↦ none) place node := by
  rw [Forest.node?_add, h.size]
  rcases Place.getElem?_concat_eq_some_iff.mp hid with hold | ⟨rfl, rfl⟩
  · obtain ⟨node, hnode, hstands⟩ := h.node id place hold
    rw [if_neg (Nat.ne_of_lt (h.size ▸ h.id_lt hold))]
    exact ⟨node, hnode, h.stands_concat hnew (List.mem_of_getElem? hold) hstands⟩
  · rw [if_pos rfl]
    refine ⟨_, rfl, rfl, ?_, hroot, rfl, (Place.baseName?_none _).symm⟩
    rw [hparent, Place.bind_idxOf?_concat (Place.parent?_ne_self place)]

theorem childNamed_add {id : NodeId} {place : Place} (hid : (places ++ [new])[id]? = some place)
    (name : String) : (session.forest.add new.name (bare new.kind) parent root).childNamed name id =
      (place.child? name).bind (places.idxOf? ·) := by
  rw [Forest.childNamed_add]
  rcases Place.getElem?_concat_eq_some_iff.mp hid with hold | ⟨rfl, rfl⟩
  · exact h.child id place hold name
  · have hnode : session.forest.node? places.length = none :=
      Forest.node?_eq_none (h.size ▸ Nat.lt_irrefl _)
    have hnone : session.forest.childNamed name places.length = none := by
      simp [Forest.childNamed, hnode]
    rw [hnone]
    cases hchild : place.child? name with
    | none => rfl
    | some child =>
      have hmem := h.child_not_mem hnew hchild
      refine (List.idxOf?_eq_none_iff.mpr fun hold ↦ hmem ?_).symm
      exact List.mem_append_left _ hold

/-- What a list with one more place asks of a session, beside what its nodes say. -/
theorem concat (hmem : ∀ above ∈ new.parent?, above ∈ places) {forest : Forest Style}
    (hrooted : Session.Rooted ⟨forest, session.memo.grow⟩)
    (hsize : forest.size = session.forest.size + 1)
    (hroots : ∀ name, forest.roots.find? name =
      if .block name = new then some places.length else session.forest.roots.find? name)
    (hchild : ∀ id place, (places ++ [new])[id]? = some place → ∀ name,
      forest.childNamed name id = (place.child? name).bind ((places ++ [new]).idxOf? ·))
    (hnode : ∀ id place, (places ++ [new])[id]? = some place →
      ∃ node, forest.node? id = some node ∧ Stands (places ++ [new]) (fun _ ↦ none) place node) :
    Represents ⟨forest, session.memo.grow⟩ (places ++ [new]) fun _ ↦ none where
  rooted := hrooted
  nodup := List.concat_eq_append ▸ h.nodup.concat hnew
  size := by simp [hsize, h.size]
  parent_mem place hplace above habove := by
    rcases List.mem_append.mp hplace with hplace | hplace
    · exact List.mem_append_left _ (h.parent_mem place hplace above habove)
    · obtain rfl := List.mem_singleton.mp hplace
      exact List.mem_append_left _ (hmem above habove)
  roots name := by
    rw [hroots]
    split
    next heq => rw [heq, Place.idxOf?_concat_self hnew]
    next hne => rw [h.roots, Place.idxOf?_append_of_not_mem (by simpa using hne)]
  child := hchild
  node := hnode
  slot id place hid := by
    rw [Memo.slot_grow, Place.slot_none]
    rcases Place.getElem?_concat_eq_some_iff.mp hid with hold | ⟨rfl, rfl⟩
    · rw [h.slot id place hold, Place.slot_none]
    · apply Session.slot_of_not_lt
      rw [h.rooted.valid.slots_size, h.size]
      exact Nat.lt_irrefl _

end Grow

section Steps

theorem addBlock (h : Represents session places fun _ ↦ none) {name : String}
    (hnew : .block name ∉ places) : ∃ after,
      (Style.addBlock name).run session = (.ok places.length, after) ∧
      Represents after (places ++ [.block name]) fun _ ↦ none := by
  refine ⟨_, by rw [← h.size]; rfl, ?_⟩
  refine h.concat hnew (by simp [Place.parent?]) ?_ (Forest.size_add ..) ?_ ?_ ?_
  · exact h.rooted.add (by simp) name (bare .block) none
  · intro other
    rw [← h.size]
    exact (NameMap.find?_insert ..).trans (by simp)
  · intro id place hid key
    have hne : place.child? key ≠ some (.block name) := by
      intro heq
      have hparent := (Place.child?_eq_some_iff.mp heq).1
      simp [Place.parent?] at hparent
    exact (h.childNamed_add hnew hid key).trans (Place.bind_idxOf?_concat hne).symm
  · intro id place hid
    refine h.exists_stands_add hnew rfl ?_ hid
    exact Place.idxOf?_concat_self hnew

section Child

variable {id : NodeId} {place child : Place} (hid : places[id]? = some place)
  (hchild : child.parent? = some place)
include hid hchild

theorem find?_child (h : Represents session places bases) {node : Node Style}
    (hnode : session.forest.node? id = some node) :
    node.children.find? child.name = places.idxOf? child := by
  have hbelow : place.child? child.name = some child := Place.child?_eq_some_iff.mpr ⟨hchild, rfl⟩
  rw [← Forest.childNamed_eq hnode, h.child id place hid, hbelow]
  rfl

/-- The new node is registered at the place above it. -/
theorem childNamed_register (h : Represents session places fun _ ↦ none) (hnew : child ∉ places)
    (root : Option NodeId) {other : NodeId} {found : Place}
    (hother : (places ++ [child])[other]? = some found) (name : String) :
    ((session.forest.add child.name (bare child.kind) (some id) root).modify id fun node ↦
      { node with children := node.children.insert child.name session.forest.size }).childNamed name
        other = (found.child? name).bind ((places ++ [child]).idxOf? ·) := by
  have hlt : id < (session.forest.add child.name (bare child.kind) (some id) root).size := by
    rw [Forest.size_add]
    exact Nat.lt_succ_of_lt (h.id_lt hid)
  rw [Forest.childNamed_register hlt, h.childNamed_add hnew hother]
  by_cases hhere : found.child? name = some child
  · obtain ⟨hparent, rfl⟩ := Place.child?_eq_some_iff.mp hhere
    obtain rfl := Option.some.inj (hchild.symm.trans hparent)
    have hsame : other = id := by
      rcases Place.getElem?_concat_eq_some_iff.mp hother with hold | ⟨_, rfl⟩
      · exact h.id_unique hid hold
      · exact absurd hchild (Place.parent?_ne_self place)
    rw [if_pos ⟨hsame, rfl⟩, hhere, h.size]
    exact (Place.idxOf?_concat_self hnew).symm
  · have hskip : ¬ (other = id ∧ name = child.name) := by
      rintro ⟨rfl, rfl⟩
      have hplace : (places ++ [child])[other]? = some place :=
        Place.getElem?_concat_eq_some_iff.mpr (.inl hid)
      obtain rfl := Option.some.inj (hother.symm.trans hplace)
      exact hhere (Place.child?_eq_some_iff.mpr ⟨hchild, rfl⟩)
    rw [if_neg hskip, Place.bind_idxOf?_concat hhere]

theorem addChild (h : Represents session places fun _ ↦ none) (hnew : child ∉ places) : ∃ after,
    (Action.obtainChild id child.name).run session = (.ok places.length, after) ∧
    Represents after (places ++ [child]) fun _ ↦ none := by
  obtain ⟨node, hnode, hstands⟩ := h.node id place hid
  have hmem : ∀ above ∈ child.parent?, above ∈ places := by
    intro above habove
    obtain rfl := Option.some.inj (hchild.symm.trans habove)
    exact List.mem_of_getElem? hid
  have hparent : some id = child.parent?.bind (places.idxOf? ·) := by
    rw [hchild]
    exact (h.idxOf?_eq_some_iff.mpr hid).symm
  have hroot : (places ++ [child]).idxOf? child.root =
      some ((some node.root).getD places.length) := by
    have hmem : place.root ∈ places := List.mem_of_getElem? (h.idxOf?_eq_some_iff.mp hstands.root)
    rw [Place.root_of_parent? hchild, Place.idxOf?_concat_of_mem hmem hnew]
    exact hstands.root
  have hpayload : Family.childPayload? node.payload child.name = some (bare child.kind) := by
    rw [hstands.payload, Place.childPayload?_bare, Place.child?_eq_some_iff.mpr ⟨hchild, rfl⟩]
    rfl
  have hnone : node.children.find? child.name = none :=
    (h.find?_child hid hchild hnode).trans (List.idxOf?_eq_none_iff.mpr hnew)
  have hrun := Action.run_obtainChild_new hnode hnone hpayload
  have hrooted := h.rooted.obtainChild (congrArg Prod.fst hrun)
  rw [hrun] at hrooted
  refine ⟨_, h.size ▸ hrun, h.concat hnew hmem hrooted ?_ ?_ ?_ ?_⟩
  · rw [Forest.size_modify, Forest.size_add]
  · intro name
    rw [if_neg fun heq ↦ by simp [← heq, Place.parent?] at hchild]
    rfl
  · intro other found hother name
    exact h.childNamed_register hid hchild hnew _ hother name
  · intro other found hother
    obtain ⟨standing, hstanding, hstands⟩ := h.exists_stands_add hnew hparent hroot hother
    rw [Forest.node?_modify, hstanding]
    split
    next =>
      -- What registering changes is not part of what a node says of itself.
      exact ⟨_, rfl, hstands.name, hstands.parent, hstands.root, hstands.payload, hstands.baseName⟩
    next => exact ⟨standing, rfl, hstands⟩

end Child

/-- A child is there afterwards, and none is there twice. -/
theorem obtainChild {asked : List Place} (h : Represents session asked.eraseDups fun _ ↦ none)
    {id : NodeId} {place child : Place} (hid : asked.eraseDups[id]? = some place)
    (hchild : child.parent? = some place) : ∃ childId after,
      (Action.obtainChild id child.name).run session = (.ok childId, after) ∧
      (asked ++ [child]).eraseDups[childId]? = some child ∧
      Represents after (asked ++ [child]).eraseDups fun _ ↦ none := by
  rw [Place.eraseDups_concat]
  split
  next hmem =>
    obtain ⟨node, hnode, _⟩ := h.node id place hid
    obtain ⟨childId, hchildId⟩ := Place.exists_idxOf?_eq_some (List.mem_eraseDups.mpr hmem)
    have hfind := (h.find?_child hid hchild hnode).trans hchildId
    have hrun := Action.run_obtainChild_known hnode hfind
    exact ⟨childId, session, hrun, h.idxOf?_eq_some_iff.mp hchildId, h⟩
  next hmem =>
    have hnew : child ∉ asked.eraseDups := fun hold ↦ hmem (List.mem_eraseDups.mp hold)
    obtain ⟨after, hrun, hafter⟩ := h.addChild hid hchild hnew
    exact ⟨_, after, hrun, Place.getElem?_concat_eq_some_iff.mpr (.inr ⟨rfl, rfl⟩), hafter⟩

end Steps

/-! ## Blocks with what is below them -/

section Blocks

variable {asked : List Place}

theorem obtainSelector (h : Represents session asked.eraseDups fun _ ↦ none) {id : NodeId}
    {block : String} (hid : asked.eraseDups[id]? = some (.block block)) (selector : Blueprint.Selector) :
    ∃ found after,
      (Style.obtainSelector id selector.className selector.state).run session = (.ok found, after) ∧
      Represents after (asked ++ selector.places block).eraseDups fun _ ↦ none := by
  obtain ⟨className, state⟩ := selector
  obtain ⟨classId, between, hrun, hclassId, hbetween⟩ :=
    h.obtainChild hid (show (Place.styleClass block className).parent? = _ from rfl)
  cases state with
  | none => exact ⟨classId, between, Lookup.run_bind_ok hrun _, hbetween⟩
  | some state =>
    obtain ⟨stateId, after, hrun', _, hafter⟩ :=
      hbetween.obtainChild hclassId (show (Place.state block className state).parent? = _ from rfl)
    refine ⟨stateId, after, (Lookup.run_bind_ok hrun _).trans hrun', ?_⟩
    rwa [List.append_assoc] at hafter

theorem obtainSelectors (h : Represents session asked.eraseDups fun _ ↦ none) {id : NodeId}
    {block : String} (hid : asked.eraseDups[id]? = some (.block block)) (selectors : List Blueprint.Selector) :
    ∃ after,
      (selectors.forM fun selector ↦ do
        let _ ← Style.obtainSelector id selector.className selector.state).run session = (.ok (), after) ∧
      Represents after (asked ++ selectors.flatMap (·.places block)).eraseDups fun _ ↦ none := by
  induction selectors generalizing session asked with
  | nil => exact ⟨session, rfl, by simpa using h⟩
  | cons selector selectors ih =>
    obtain ⟨found, between, hrun, hbetween⟩ := h.obtainSelector hid selector
    obtain ⟨after, hrest, hafter⟩ := ih hbetween (Place.getElem?_eraseDups_append hid _)
    refine ⟨after, ?_, ?_⟩
    · exact (Lookup.run_bind_ok (Lookup.run_bind_ok hrun _) _).trans hrest
    · rwa [List.append_assoc] at hafter

theorem add (h : Represents session asked.eraseDups fun _ ↦ none) {block : Blueprint.Block}
    (hnew : .block block.name ∉ asked) : ∃ id after,
      block.add.run session = (.ok id, after) ∧
      (asked ++ block.places).eraseDups[id]? = some (.block block.name) ∧
      Represents after (asked ++ block.places).eraseDups fun _ ↦ none := by
  obtain ⟨between, hrun, hbetween⟩ := h.addBlock (fun hmem ↦ hnew (List.mem_eraseDups.mp hmem))
  have hconcat : asked.eraseDups ++ [Place.block block.name] =
      (asked ++ [Place.block block.name]).eraseDups := by
    rw [Place.eraseDups_concat, if_neg hnew]
  have hid : (asked.eraseDups ++ [Place.block block.name])[asked.eraseDups.length]? =
      some (.block block.name) :=
    Place.getElem?_concat_eq_some_iff.mpr (.inr ⟨rfl, rfl⟩)
  rw [hconcat] at hbetween hid
  obtain ⟨after, hselectors, hafter⟩ := hbetween.obtainSelectors hid block.selectors
  have hplaces : asked ++ block.places = asked ++ [Place.block block.name] ++
      block.selectors.flatMap (·.places block.name) := by simp [Blueprint.Block.places]
  rw [hplaces]
  refine ⟨_, after, ?_, Place.getElem?_eraseDups_append hid _, hafter⟩
  exact (Lookup.run_bind_ok hrun _).trans (Lookup.run_bind_ok hselectors _)

/-- Each block is added once, and found by its name from then on. -/
theorem addBlocks (h : Represents session asked.eraseDups fun _ ↦ none) {ids : NameMap NodeId}
    (hids : ∀ name, ids.find? name = asked.eraseDups.idxOf? (.block name))
    {blocks : List Blueprint.Block} (hnodup : (blocks.map (·.name)).Nodup)
    (hnew : ∀ block ∈ blocks, Place.block block.name ∉ asked) : ∃ found after,
      (blocks.foldlM (fun (ids : NameMap NodeId) (block : Blueprint.Block) ↦ do
        return ids.insert block.name (← block.add)) ids).run session =
        (.ok found, after) ∧
      (∀ name, found.find? name =
        (asked ++ blocks.flatMap (·.places)).eraseDups.idxOf? (.block name)) ∧
      Represents after (asked ++ blocks.flatMap (·.places)).eraseDups fun _ ↦ none := by
  induction blocks generalizing session asked ids with
  | nil => exact ⟨ids, session, rfl, by simpa using hids, by simpa using h⟩
  | cons block blocks ih =>
    obtain ⟨hfresh, hnodup⟩ := List.nodup_cons.mp hnodup
    obtain ⟨hblock, hblocks⟩ := List.forall_mem_cons.mp hnew
    obtain ⟨id, between, hrun, hid, hbetween⟩ := h.add hblock
    have hinsert : ∀ name, (ids.insert block.name id).find? name =
        (asked ++ block.places).eraseDups.idxOf? (.block name) := by
      intro name
      rw [NameMap.find?_insert]
      split
      next heq => exact (heq ▸ hbetween.idxOf?_eq_some_iff.mpr hid).symm
      next hne =>
        have hnot : Place.block name ∉ block.places := fun hmem ↦
          hne (Place.block.inj (Blueprint.root_of_mem_places hmem))
        rw [hids, Place.idxOf?_eraseDups_append hnot]
    have hrest : ∀ other ∈ blocks, Place.block other.name ∉ asked ++ block.places := by
      intro other hother hmem
      rcases List.mem_append.mp hmem with hmem | hmem
      · exact hblocks other hother hmem
      · have hname := Place.block.inj (Blueprint.root_of_mem_places hmem)
        exact hfresh (List.mem_map.mpr ⟨other, hother, hname⟩)
    obtain ⟨found, after, hrun', hfound, hafter⟩ := ih hbetween hinsert hnodup hrest
    rw [List.append_assoc] at hfound hafter
    refine ⟨found, after, ?_, hfound, hafter⟩
    rw [List.foldlM_cons, Lookup.run_bind_ok (Lookup.run_bind_ok hrun _)]
    exact hrun'

end Blocks

/-! ## Reading -/

section Reading

variable (h : Represents session places bases)
include h

theorem lineWithin_eq_ok {limit : Nat} {id : NodeId} {place : Place} (hid : places[id]? = some place)
    (hlimit : id < limit) : session.forest.lineWithin limit id = .ok place.line.reverse := by
  induction limit generalizing id place with
  | zero => exact absurd hlimit (Nat.not_lt_zero id)
  | succ limit ih =>
    obtain ⟨node, hnode, hstands⟩ := h.node id place hid
    simp only [Forest.lineWithin, Forest.node_eq_ok hnode, bind, Except.bind]
    cases hparent : place.parent? with
    | none =>
      rw [hstands.parent, hparent, hstands.name, Place.eq_block_of_parent?_eq_none hparent]
      rfl
    | some above =>
      obtain ⟨parent, hfound⟩ := Place.exists_idxOf?_eq_some
        (h.parent_mem place (List.mem_of_getElem? hid) above hparent)
      have hnodeParent : node.parent = some parent := by
        rw [hstands.parent, hparent]
        exact hfound
      have hlt : parent < id :=
        h.rooted.valid.closed.parent_lt ((Forest.parentOf_eq hnode).trans hnodeParent)
      have hline := ih (h.idxOf?_eq_some_iff.mp hfound) (Nat.lt_of_lt_of_le hlt (Nat.le_of_lt_succ hlimit))
      rw [hnodeParent]
      simp only [hline, hstands.name, Place.line_of_parent? hparent, List.reverse_append]
      rfl

theorem path_eq_ok {id : NodeId} {place : Place} (hid : places[id]? = some place) :
    session.forest.path id = .ok place.path := by
  have hline := h.lineWithin_eq_ok hid (Nat.lt_succ_of_lt (h.id_lt hid))
  unfold Forest.path Forest.line
  rw [hline]
  simp [bind, Except.bind, pure, Except.pure, Place.path]

theorem mem_of_foldlM {names : List String} {place found : Place}
    (hfound : names.foldlM Place.child? place = some found) (hmem : found ∈ places) : place ∈ places := by
  induction names generalizing place with
  | nil => exact Option.some.inj hfound ▸ hmem
  | cons name names ih =>
    obtain ⟨child, hchild, hfound⟩ := Option.bind_eq_some_iff.mp hfound
    exact h.parent_mem child (ih hfound) place (Place.child?_eq_some_iff.mp hchild).1

/-- Nothing is there below a place that is not there. -/
theorem foldlM_bind_eq_none {place : Place} (hplace : places.idxOf? place = none) (names : List String) :
    (names.foldlM Place.child? place).bind (places.idxOf? ·) = none := by
  cases hfound : names.foldlM Place.child? place with
  | none => rfl
  | some found =>
    refine List.idxOf?_eq_none_iff.mpr fun hmem ↦ ?_
    exact List.idxOf?_eq_none_iff.mp hplace (h.mem_of_foldlM hfound hmem)

theorem descendant_eq {names : List String} {id : NodeId} {place : Place}
    (hid : places[id]? = some place) :
    session.forest.descendant names id = (names.foldlM Place.child? place).bind (places.idxOf? ·) := by
  induction names generalizing id place with
  | nil => exact (h.idxOf?_eq_some_iff.mpr hid).symm
  | cons name names ih =>
    rw [Forest.descendant, h.child id place hid, List.foldlM_cons]
    cases hchild : place.child? name with
    | none => rfl
    | some child =>
      change (places.idxOf? child).bind _ = (names.foldlM Place.child? child).bind _
      cases hfound : places.idxOf? child with
      | none => exact (h.foldlM_bind_eq_none hfound names).symm
      | some childId => exact ih (h.idxOf?_eq_some_iff.mp hfound)

/-- A path leads to the node at the place that its segments name. -/
theorem find_eq_ok (path : String) : session.forest.find path =
    .ok ((Place.ofLine? (Forest.segments path)).bind (places.idxOf? ·)) := by
  unfold Forest.find
  cases Forest.segments path with
  | nil => rfl
  | cons name names =>
    simp only [h.roots, Place.ofLine?]
    cases hfound : places.idxOf? (.block name) with
    | none => exact (congrArg Except.ok (h.foldlM_bind_eq_none hfound names)).symm
    | some id =>
      have hid := h.idxOf?_eq_some_iff.mp hfound
      refine (h.rooted.valid.closed.descend_eq_ok (h.id_lt hid) names).trans ?_
      exact congrArg Except.ok (h.descendant_eq hid)

theorem find_path_eq_ok {place : Place} (hplace : place.WellNamed) :
    session.forest.find place.path = .ok (places.idxOf? place) := by
  rw [h.find_eq_ok, Place.segments_path hplace, Place.ofLine?_eq_some_iff.mpr rfl]
  rfl

end Reading

/-! ## Bases -/

section Bases

theorem isRoot (h : Represents session places bases) {id : NodeId} {name : String}
    (hid : places[id]? = some (.block name)) : session.forest.IsRoot id := by
  obtain ⟨node, hnode, hstands⟩ := h.node id _ hid
  exact ⟨h.id_lt hid, (Forest.parentOf_eq hnode).trans hstands.parent⟩

theorem extend (h : Represents session places bases) {id baseId : NodeId} {name base : String}
    (hid : places[id]? = some (.block name)) (hbase : places[baseId]? = some (.block base)) :
    ∃ after, (Action.extend id baseId).run session = (.ok (), after) ∧
      Represents after places (Function.update bases name (some base)) := by
  obtain ⟨node, hnode, hstands⟩ := h.node id _ hid
  have hpath : session.forest.path baseId = .ok base := h.path_eq_ok hbase
  have hrun := (Action.run_extend hpath).trans (Action.run_declareBase hnode base (some baseId))
  have hrooted := h.rooted.extend (h.isRoot hid) (h.isRoot hbase)
  rw [hrun] at hrooted
  have hne : ∀ {other place}, places[other]? = some place → other ≠ id → place ≠ .block name := by
    rintro other place hplace hother rfl
    exact hother (h.id_unique hid hplace)
  refine ⟨_, hrun, hrooted, h.nodup, ?_, h.parent_mem, h.roots, ?_, ?_, ?_⟩
  · rw [Forest.size_modify, h.size]
  · intro other place hplace key
    exact (Forest.childNamed_setBaseName base key other).trans (h.child other place hplace key)
  · intro other place hplace
    rw [Forest.node?_modify]
    by_cases heq : other = id
    · subst heq
      obtain rfl := Option.some.inj (hid.symm.trans hplace)
      rw [if_pos rfl, hnode]
      exact ⟨_, rfl, hstands.update_self⟩
    · obtain ⟨found, hfound, hstands⟩ := h.node other place hplace
      rw [if_neg heq]
      exact ⟨found, hfound, hstands.update_of_ne (hne hplace heq)⟩
  · intro other place hplace
    rw [Memo.slot_eq_of_slots_eq (Memo.slots_fill_noteOverwrite ..)]
    by_cases heq : other = id
    · subst heq
      obtain rfl := Option.some.inj (hid.symm.trans hplace)
      rw [Memo.slot_fill_self (h.rooted.valid.slots_size ▸ h.id_lt hid), Place.slot_update_self,
        h.idxOf?_eq_some_iff.mpr hbase]
    · rw [Memo.slot_fill_of_ne heq, h.slot other place hplace, Place.slot_update_of_ne (hne hplace heq)]

theorem wire (h : Represents session places bases) {ids : NameMap NodeId}
    (hids : ∀ name, ids.find? name = places.idxOf? (.block name)) {block : Blueprint.Block}
    (hblock : Place.block block.name ∈ places) (hbase : ∀ base ∈ block.base, Place.block base ∈ places)
    (hunset : bases block.name = none) : ∃ after, (block.wire ids).run session = (.ok (), after) ∧
      Represents after places (Function.update bases block.name block.base) := by
  have hnodeOf : ∀ name, Place.block name ∈ places → ∃ id, Blueprint.nodeOf ids name = .ok id ∧
      places[id]? = some (.block name) := by
    intro name hmem
    obtain ⟨id, hid⟩ := Place.exists_idxOf?_eq_some hmem
    refine ⟨id, ?_, h.idxOf?_eq_some_iff.mp hid⟩
    unfold Blueprint.nodeOf
    rw [hids, hid]
  unfold Blueprint.Block.wire
  cases hextends : block.base with
  | none =>
    refine ⟨session, rfl, ?_⟩
    rwa [← hunset, Function.update_eq_self]
  | some base =>
    obtain ⟨id, hnode, hid⟩ := hnodeOf block.name hblock
    obtain ⟨baseId, hbaseNode, hbaseId⟩ := hnodeOf base (hbase base hextends)
    have hreported : Represents ⟨session.forest, session.memo.write (.wiring block.name base)⟩ places bases :=
      h.of_slots_eq rfl
    obtain ⟨after, hrun, hafter⟩ := hreported.extend hid hbaseId
    refine ⟨after, ?_, hafter⟩
    have hfound : (liftM (Blueprint.nodeOf ids block.name) : Action Style NodeId).run session =
        (.ok id, session) := by rw [hnode]; rfl
    have hbaseFound : (liftM (Blueprint.nodeOf ids base) : Action Style NodeId).run session =
        (.ok baseId, session) := by rw [hbaseNode]; rfl
    refine (Lookup.run_bind_ok hfound _).trans ((Lookup.run_bind_ok hbaseFound _).trans ?_)
    exact (Lookup.run_bind_ok (Action.run_look (Action.run_report_pure ..)) _).trans hrun

/-- Each block is made to extend the one it names. -/
theorem wireBlocks (h : Represents session places bases) {ids : NameMap NodeId}
    (hids : ∀ name, ids.find? name = places.idxOf? (.block name)) {blocks : List Blueprint.Block}
    (hnodup : (blocks.map (·.name)).Nodup)
    (hblocks : ∀ block ∈ blocks, Place.block block.name ∈ places)
    (hbases : ∀ block ∈ blocks, ∀ base ∈ block.base, Place.block base ∈ places)
    (hunset : ∀ block ∈ blocks, bases block.name = none) : ∃ after,
      (blocks.forM (·.wire ids)).run session = (.ok (), after) ∧
      Represents after places fun name ↦ (Blueprint.base? ⟨blocks⟩ name).or (bases name) := by
  induction blocks generalizing session bases with
  | nil => exact ⟨session, rfl, h⟩
  | cons block blocks ih =>
    obtain ⟨hfresh, hnodup⟩ := List.nodup_cons.mp hnodup
    obtain ⟨hblock, hblocks⟩ := List.forall_mem_cons.mp hblocks
    obtain ⟨hbase, hbases⟩ := List.forall_mem_cons.mp hbases
    obtain ⟨hhead, hunset⟩ := List.forall_mem_cons.mp hunset
    have hne : ∀ other ∈ blocks, other.name ≠ block.name := fun other hother heq ↦
      hfresh (List.mem_map.mpr ⟨other, hother, heq⟩)
    have hrest : ∀ other ∈ blocks, Function.update bases block.name block.base other.name = none := by
      intro other hother
      rw [Function.update_of_ne (hne other hother)]
      exact hunset other hother
    obtain ⟨between, hrun, hbetween⟩ := h.wire hids hblock hbase hhead
    obtain ⟨after, hrun', hafter⟩ := ih hbetween hnodup hblocks hbases hrest
    refine ⟨after, (Lookup.run_bind_ok hrun _).trans hrun', ?_⟩
    have heq : (fun name ↦ (Blueprint.base? ⟨blocks⟩ name).or
        (Function.update bases block.name block.base name)) =
        fun name ↦ (Blueprint.base? ⟨block :: blocks⟩ name).or (bases name) := by
      funext name
      rw [Blueprint.base?_cons]
      by_cases hname : block.name = name
      · subst hname
        rw [if_pos rfl, Function.update_self, hhead, Option.or_none]
        exact Option.or_eq_right_of_none (Blueprint.base?_eq_none hne)
      · rw [if_neg hname, Function.update_of_ne (Ne.symm hname)]
    exact heq ▸ hafter

end Bases

end Represents

end Style

/-! ## The whole blueprint -/

namespace Blueprint

open Style

variable {blueprint : Blueprint}

theorem mem_places_of_mem {block : Block} (h : block ∈ blueprint.blocks) :
    Place.block block.name ∈ blueprint.places.eraseDups :=
  List.mem_eraseDups.mpr ((block_mem_places_iff ..).mpr (List.mem_map_of_mem h))

/-- Blocks with distinct names that extend only each other are built. -/
theorem exists_run_construct (hnodup : (blueprint.blocks.map (·.name)).Nodup)
    (hbases : ∀ block ∈ blueprint.blocks, ∀ base ∈ block.base,
      ∃ other ∈ blueprint.blocks, other.name = base)
    (recording : Bool) : ∃ ids after,
      blueprint.construct.run (.empty Style recording) = (.ok ids, after) ∧
      (∀ name, ids.find? name = blueprint.places.eraseDups.idxOf? (.block name)) ∧
      Represents after blueprint.places.eraseDups blueprint.base? := by
  have hstart : Represents (.empty Style recording) ([] : List Place).eraseDups fun _ ↦ none :=
    represents_empty recording _
  have hnone : ∀ name, (NameMap.empty : NameMap NodeId).find? name =
      ([] : List Place).eraseDups.idxOf? (.block name) := fun _ ↦ rfl
  obtain ⟨ids, between, hadded, hids, hbetween⟩ :=
    hstart.addBlocks hnone hnodup fun _ _ ↦ List.not_mem_nil
  have hmemBase : ∀ block ∈ blueprint.blocks, ∀ base ∈ block.base,
      Place.block base ∈ blueprint.places.eraseDups := by
    intro block hblock base hbase
    obtain ⟨other, hother, rfl⟩ := hbases block hblock base hbase
    exact mem_places_of_mem hother
  obtain ⟨after, hwired, hafter⟩ :=
    hbetween.wireBlocks hids hnodup (fun _ ↦ mem_places_of_mem) hmemBase fun _ _ ↦ rfl
  refine ⟨ids, ⟨after.forest, after.memo.write (.built ids.size after.forest.size)⟩, ?_, hids, ?_⟩
  · refine (Lookup.run_bind_ok hadded _).trans ((Lookup.run_bind_ok hwired _).trans ?_)
    exact Lookup.run_bind_ok (Action.run_look (Action.run_report_pure ..)) _
  · simp only [Option.or_none] at hafter
    exact hafter.of_slots_eq rfl

end Blueprint

end Lineage
