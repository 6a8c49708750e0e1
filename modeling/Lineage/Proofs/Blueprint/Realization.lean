import Lineage.Proofs.Blueprint.Acceptance
import Lineage.Proofs.Blueprint.Construction
import Mathlib.Data.Finset.Card
import Mathlib.Data.List.Sort

/-!
# What is built

`Built.Realizes` says what the session built from a blueprint consists of: a node for each place that
the blueprint asks for and no other, found by its path, and the bases that the blueprint gives its
blocks.  Building an accepted blueprint succeeds and realises it (`build_realizes`).
-/

namespace Lineage.Blueprint

open Style (Place)

/-! ## The result -/

/-- The node at an id is the one at a place, without declarations; unless it is a block, nothing was
set as its base. -/
structure Built.Displays (built : Built) (place : Place) (id : NodeId) : Prop where
  path : built.session.forest.path id = .ok place.path
  find : built.session.forest.find place.path = .ok (some id)
  node : ∃ node, built.session.forest.node? id = some node ∧ node.payload = Style.bare place.kind ∧
    built.session.forest.find place.root.path = .ok (some node.root) ∧
    (place.kind ≠ .block → node.baseName = none)
  slot : place.kind ≠ .block → built.session.memo.slot id = .unresolved

/-- The base of a block is set as it is declared, under its name, and not at all if none is. -/
def Built.Wires (built : Built) (block : Block) (id : NodeId) : Prop :=
  (∃ node, built.session.forest.node? id = some node ∧ node.baseName = block.base) ∧
  match block.base with
  | none => built.session.memo.slot id = .unresolved
  | some base => ∃ baseId, built.blocks.find? base = some baseId ∧
      built.session.memo.slot id = .resolved (some baseId)

structure Built.Realizes (built : Built) (blueprint : Blueprint) : Prop where
  /-- Each path that is asked for is that of one node, and no other path is that of a node. -/
  paths : ∃ paths, built.session.forest.ids.mapM built.session.forest.path = .ok paths ∧
    paths.Nodup ∧ ∀ path, path ∈ paths ↔ path ∈ blueprint.paths
  size : built.session.forest.size = blueprint.paths.toFinset.card
  node : ∀ id < built.session.forest.size, ∃ place ∈ blueprint.places, built.Displays place id
  place : ∀ place ∈ blueprint.places, ∃ id < built.session.forest.size, built.Displays place id
  elsewhere : ∀ path ∉ blueprint.paths, built.session.forest.find path = .ok none
  names : built.blocks.names = blueprint.blocks.map (·.name)
  block : ∀ block ∈ blueprint.blocks, ∃ id, built.blocks.find? block.name = some id ∧
    built.session.forest.find block.name = .ok (some id) ∧ built.Wires block id

/-! ## Accepted blueprints -/

/-- What the checks of a blueprint are for when it is built. -/
structure Buildable (blueprint : Blueprint) : Prop where
  increasing : blueprint.blocks.Pairwise fun left right ↦ left.name < right.name
  wellNamed : ∀ place ∈ blueprint.places, place.WellNamed
  base : ∀ block ∈ blueprint.blocks, ∀ base ∈ block.base,
    ∃ other ∈ blueprint.blocks, other.name = base

theorem wellNamed_of_mem_places {block : Block} {entry : String × Declaration}
    (h : block.Realizes entry) {place : Place} (hplace : place ∈ block.places) : place.WellNamed := by
  simp only [Block.places, Selector.places, List.mem_cons, List.mem_flatMap, List.mem_map,
    Option.mem_toList] at hplace
  have hblock := h.isName
  rcases hplace with rfl | ⟨selector, hselector, rfl | ⟨state, hstate, rfl⟩⟩
  · simpa [Place.WellNamed, Place.line] using hblock
  · have hclass := (h.wellNamed selector hselector).className
    simpa [Place.WellNamed, Place.line] using ⟨hblock, hclass⟩
  · have hclass := (h.wellNamed selector hselector).className
    have hname := (h.wellNamed selector hselector).state state hstate
    simpa [Place.WellNamed, Place.line] using ⟨hblock, hclass, hname⟩

theorem buildable_of_ofDeclarations_eq_ok {declarations : NameMap Declaration} {blueprint : Blueprint}
    (h : ofDeclarations declarations = .ok blueprint) : blueprint.Buildable where
  increasing := (lists_of_ofDeclarations_eq_ok h).increasing
  wellNamed place hplace := by
    obtain ⟨block, hblock, hplace⟩ := List.mem_flatMap.mp hplace
    obtain ⟨declaration, _, hrealizes⟩ := (lists_of_ofDeclarations_eq_ok h).exists_declaration hblock
    exact wellNamed_of_mem_places hrealizes hplace
  base block hblock base hbase := by
    have hcheck := ((ofDeclarations_eq_ok_iff ..).mp h).2.1 block hblock
    obtain ⟨_, hknown⟩ := (checkBase_eq_ok_iff ..).mp hcheck base hbase
    obtain ⟨other, hother⟩ := Option.isSome_iff_exists.mp hknown
    exact ⟨other, List.mem_of_find?_eq_some hother, by simpa using List.find?_some hother⟩

namespace Buildable

variable {blueprint : Blueprint} (h : blueprint.Buildable)
include h

theorem nodup_names : (blueprint.blocks.map (·.name)).Nodup := by
  refine List.pairwise_map.mpr (h.increasing.imp fun hlt heq ↦ ?_)
  exact String.lt_irrefl _ (heq ▸ hlt)

/-- Blocks have different names, so what a block extends is what its name extends. -/
theorem base?_name {block : Block} (hblock : block ∈ blueprint.blocks) :
    blueprint.base? block.name = block.base := by
  have hfound : (blueprint.get? block.name).isSome := List.find?_isSome.mpr ⟨block, hblock, by simp⟩
  obtain ⟨found, hfound⟩ := Option.isSome_iff_exists.mp hfound
  have hname : found.name = block.name := by simpa using List.find?_some hfound
  obtain rfl := List.inj_on_of_nodup_map h.nodup_names (List.mem_of_find?_eq_some hfound) hblock hname
  simp [base?, hfound]

end Buildable

/-! ## Building -/

section Realizes

variable {built : Built} {blueprint : Blueprint}

theorem names_eq (hbuildable : blueprint.Buildable)
    (hids : ∀ name, built.blocks.find? name = blueprint.places.eraseDups.idxOf? (.block name)) :
    built.blocks.names = blueprint.blocks.map (·.name) := by
  refine List.Pairwise.eq_of_mem_iff built.blocks.names_pairwise_lt
    (List.pairwise_map.mpr hbuildable.increasing) fun name ↦ ?_
  simp only [NameMap.mem_names_iff, hids]
  rw [← Option.isSome_iff_exists, List.isSome_idxOf?, List.mem_eraseDups, block_mem_places_iff]

variable (h : Style.Represents built.session blueprint.places.eraseDups blueprint.base?)
include h

theorem find_eq_none {path : String} (hpath : path ∉ blueprint.paths) :
    built.session.forest.find path = .ok none := by
  rw [h.find_eq_ok]
  cases hplace : Place.ofLine? (Forest.segments path) with
  | none => rfl
  | some place =>
    refine congrArg Except.ok (List.idxOf?_eq_none_iff.mpr fun hmem ↦ hpath ?_)
    refine List.mem_map.mpr ⟨place, List.mem_eraseDups.mp hmem, ?_⟩
    unfold Place.path
    rw [Place.ofLine?_eq_some_iff.mp hplace, Forest.intercalate_segments]

variable (hbuildable : blueprint.Buildable)
include hbuildable

theorem displays_of_represents {id : NodeId} {place : Place}
    (hid : blueprint.places.eraseDups[id]? = some place) : built.Displays place id := by
  have hwellNamed : ∀ {number : NodeId} {other : Place},
      blueprint.places.eraseDups[number]? = some other → other.WellNamed :=
    fun hother ↦ hbuildable.wellNamed _ (List.mem_eraseDups.mp (List.mem_of_getElem? hother))
  obtain ⟨node, hnode, hstands⟩ := h.node id place hid
  have hroot := h.idxOf?_eq_some_iff.mp hstands.root
  refine ⟨h.path_eq_ok hid, ?_, ⟨node, hnode, hstands.payload, ?_, fun hkind ↦ ?_⟩, fun hkind ↦ ?_⟩
  · rw [h.find_path_eq_ok (hwellNamed hid), h.idxOf?_eq_some_iff.mpr hid]
  · rw [h.find_path_eq_ok (hwellNamed hroot), hstands.root]
  · rw [hstands.baseName, Place.baseName?_of_kind_ne hkind]
  · rw [h.slot id place hid, Place.slot, Place.baseName?_of_kind_ne hkind]

theorem exists_paths : ∃ paths,
    built.session.forest.ids.mapM built.session.forest.path = .ok paths ∧ paths.Nodup ∧
    ∀ path, path ∈ paths ↔ path ∈ blueprint.paths := by
  refine ⟨blueprint.places.eraseDups.map Place.path, mapM_eq_ok_iff.mpr ?_, ?_, ?_⟩
  · refine List.forall₂_iff_get.mpr ⟨by simp [Forest.ids, h.size], fun index _ hright ↦ ?_⟩
    have hindex : index < blueprint.places.eraseDups.length := by simpa using hright
    have hpath := h.path_eq_ok (List.getElem?_eq_getElem hindex)
    simpa [Forest.ids] using hpath
  · refine List.Nodup.map_on (fun place hplace other hother ↦ ?_) h.nodup
    rw [List.mem_eraseDups] at hplace hother
    exact Place.path_injective (hbuildable.wellNamed place hplace) (hbuildable.wellNamed other hother)
  · simp [paths]

variable (hids : ∀ name, built.blocks.find? name = blueprint.places.eraseDups.idxOf? (.block name))
include hids

theorem wires_of_represents {block : Block} (hblock : block ∈ blueprint.blocks) {id : NodeId}
    (hid : blueprint.places.eraseDups[id]? = some (.block block.name)) : built.Wires block id := by
  obtain ⟨node, hnode, hstands⟩ := h.node id _ hid
  have hbase : (Place.block block.name).baseName? blueprint.base? = block.base :=
    hbuildable.base?_name hblock
  refine ⟨⟨node, hnode, hstands.baseName.trans hbase⟩, ?_⟩
  rw [h.slot id _ hid, Place.slot, hbase]
  cases hextends : block.base with
  | none => rfl
  | some base =>
    obtain ⟨other, hother, rfl⟩ := hbuildable.base block hblock base hextends
    obtain ⟨baseId, hbaseId⟩ := Place.exists_idxOf?_eq_some (mem_places_of_mem hother)
    exact ⟨baseId, (hids other.name).trans hbaseId, congrArg Slot.resolved hbaseId⟩

theorem realizes_of_represents : built.Realizes blueprint where
  paths := exists_paths h hbuildable
  size := by
    obtain ⟨paths, hpaths, hnodup, hmem⟩ := exists_paths h hbuildable
    have hlength := (mapM_eq_ok_iff.mp hpaths).length_eq
    have hpathSet : paths.toFinset = blueprint.paths.toFinset := by
      ext path
      simpa using hmem path
    rw [← hpathSet, List.toFinset_card_of_nodup hnodup, ← hlength]
    simp [Forest.ids]
  node id hid := by
    obtain ⟨place, hplace⟩ := h.exists_getElem? hid
    have hmem := List.mem_eraseDups.mp (List.mem_of_getElem? hplace)
    exact ⟨place, hmem, displays_of_represents h hbuildable hplace⟩
  place place hplace := by
    obtain ⟨id, hid⟩ := List.mem_iff_getElem?.mp (List.mem_eraseDups.mpr hplace)
    exact ⟨id, h.id_lt hid, displays_of_represents h hbuildable hid⟩
  elsewhere path hpath := find_eq_none h hpath
  names := names_eq hbuildable hids
  block block hblock := by
    obtain ⟨id, hid⟩ := List.mem_iff_getElem?.mp (mem_places_of_mem hblock)
    have hidxOf := (hids block.name).trans (h.idxOf?_eq_some_iff.mpr hid)
    have hfind := (displays_of_represents h hbuildable hid).find
    exact ⟨id, hidxOf, hfind, wires_of_represents h hbuildable hids hblock hid⟩

end Realizes

theorem build_eq_ok_iff {blueprint : Blueprint} {recording : Bool} {built : Built} :
    blueprint.build recording = .ok built ↔
      blueprint.construct.run (.empty Style recording) = (.ok built.blocks, built.session) := by
  unfold build
  obtain ⟨session, blocks⟩ := built
  rcases blueprint.construct.run (.empty Style recording) with ⟨cause | ids, after⟩
  · exact ⟨nofun, nofun⟩
  · constructor
    all_goals
      intro heq
      cases heq
      rfl

/-- What is built represents the places that the blueprint asks for. -/
theorem Buildable.exists_represents {blueprint : Blueprint} (h : blueprint.Buildable) (recording : Bool) :
    ∃ built, blueprint.build recording = .ok built ∧
      Style.Represents built.session blueprint.places.eraseDups blueprint.base? ∧
      ∀ name, built.blocks.find? name = blueprint.places.eraseDups.idxOf? (.block name) := by
  obtain ⟨ids, session, hrun, hids, hsession⟩ := exists_run_construct h.nodup_names h.base recording
  exact ⟨⟨session, ids⟩, build_eq_ok_iff.mpr hrun, hsession, hids⟩

/-- A blueprint that is accepted can be built, and what is built realises it. -/
theorem build_realizes {declarations : NameMap Declaration} {blueprint : Blueprint}
    (h : ofDeclarations declarations = .ok blueprint) (recording : Bool) :
    ∃ built, blueprint.build recording = .ok built ∧ built.Realizes blueprint := by
  have hbuildable := buildable_of_ofDeclarations_eq_ok h
  obtain ⟨built, hbuild, hbuilt, hids⟩ := hbuildable.exists_represents recording
  exact ⟨built, hbuild, realizes_of_represents hbuilt hbuildable hids⟩

/-- A class that a selector of its state asks for first is built once. -/
theorem realizes_two_blocks :
    let text := "[blocks.Derived]\nextends = 'Base'\n[blocks.Base]\nclasses = ['foo:hover', 'foo']\n"
    let blueprint : Blueprint :=
      ⟨[⟨"Base", none, [⟨"foo", some "hover"⟩, ⟨"foo", none⟩]⟩, ⟨"Derived", some "Base", []⟩]⟩
    (∃ declarations, declarationsOfText? text = some declarations ∧
      ofDeclarations declarations = .ok blueprint) ∧
      blueprint.paths.eraseDups = ["Base", "Base.foo", "Base.foo.hover", "Derived"] ∧
      ∃ built, blueprint.build true = .ok built ∧ built.Realizes blueprint := by
  intro text blueprint
  have haccepted : ofText text = .ok blueprint := by decide +kernel
  have hpaths : blueprint.paths.eraseDups = ["Base", "Base.foo", "Base.foo.hover", "Derived"] := by
    decide +kernel
  obtain ⟨declarations, hread, hdeclared⟩ := ofText_eq_ok_iff_ofDeclarations.mp haccepted
  exact ⟨⟨declarations, hread, hdeclared⟩, hpaths, build_realizes hdeclared true⟩

end Lineage.Blueprint
