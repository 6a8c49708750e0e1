import Lineage.Blueprint.Build
import Lineage.Proofs.Blueprint.Grammar
import Mathlib.Data.List.Nodup

/-!
# Places

A place is where a node of a style forest can stand: a block, a class of a block, or a state of such a
class.  The path of a place joins its names by dots; if these are names indeed, the path can be taken
apart again (`segments_path`), so different places have different paths (`path_injective`).

`Blueprint.places` lists the places that a blueprint asks for, in the order in which it does and with
repeats.  Places without repeats number the nodes of the forest that is built, and `List.idxOf?` takes
a place to the node there.
-/

namespace Lineage

/-! ## Segments -/

namespace Forest

/-- The segments of a path make up the path. -/
theorem intercalate_segments (path : String) : ".".intercalate (segments path) = path := by
  apply String.toList_injective
  rw [String.toList_intercalate]
  unfold segments
  simp [List.map_map, Function.comp_def, List.intercalate_splitOn]

/-- Names without dots can be told apart in the path that they make up. -/
theorem segments_intercalate {names : List String} (hdots : ∀ name ∈ names, '.' ∉ name.toList)
    (hne : names ≠ []) : segments (".".intercalate names) = names := by
  have hchars : ∀ chars ∈ names.map String.toList, '.' ∉ chars := by
    intro chars hmem
    obtain ⟨name, hname, rfl⟩ := List.mem_map.mp hmem
    exact hdots name hname
  unfold segments
  rw [String.toList_intercalate]
  change (List.splitOn '.' (['.'].intercalate _)).map _ = _
  rw [List.splitOn_intercalate _ hchars (List.map_eq_nil_iff.not.mpr hne)]
  simp

end Forest

namespace Style

inductive Place where
  | block (name : String)
  | styleClass (block name : String)
  | state (block styleClass name : String)
deriving DecidableEq

namespace Place

def kind : Place → Kind
  | block _ => .block
  | styleClass _ _ => .styleClass
  | state _ _ _ => .state

def name : Place → String
  | block name | styleClass _ name | state _ _ name => name

/-- The block that a place is in. -/
def root : Place → Place
  | block name | styleClass name _ | state name _ _ => block name

def parent? : Place → Option Place
  | block _ => none
  | styleClass parent _ => some (block parent)
  | state parent className _ => some (styleClass parent className)

def child? : Place → String → Option Place
  | block parent, name => some (styleClass parent name)
  | styleClass parent className, name => some (state parent className name)
  | state _ _ _, _ => none

/-- The names from the block down to a place. -/
def line : Place → List String
  | block name => [name]
  | styleClass parent name => [parent, name]
  | state parent className name => [parent, className, name]

/-- The names from the block down to a place, joined by dots. -/
def path (place : Place) : String := ".".intercalate place.line

/-- The place that names lead to from the block down. -/
def ofLine? : List String → Option Place
  | [] => none
  | name :: names => names.foldlM child? (block name)

/-! ## Parents and children -/

theorem child?_eq_some_iff {place child : Place} {name : String} :
    place.child? name = some child ↔ child.parent? = some place ∧ child.name = name := by
  cases place <;> cases child <;> simp [child?, parent?, Place.name, and_assoc, eq_comm]

theorem childPayload?_bare (place : Place) (name : String) :
    Family.childPayload? (bare place.kind) name = (place.child? name).map (bare ·.kind) := by
  cases place <;> rfl

theorem root_of_parent? {place parent : Place} (h : place.parent? = some parent) :
    place.root = parent.root := by
  cases place <;> cases h <;> rfl

theorem line_of_parent? {place parent : Place} (h : place.parent? = some parent) :
    place.line = parent.line ++ [place.name] := by
  cases place <;> cases h <;> rfl

theorem eq_block_of_parent?_eq_none {place : Place} (h : place.parent? = none) :
    place = .block place.name := by
  cases place <;> first | rfl | cases h

theorem parent?_ne_self (place : Place) : place.parent? ≠ some place := by
  cases place <;> simp [parent?]

/-! ## Lines -/

theorem line_of_foldlM {names : List String} {place found : Place}
    (h : names.foldlM child? place = some found) : found.line = place.line ++ names := by
  induction names generalizing place with
  | nil => simp [Option.some.inj h]
  | cons name names ih =>
    obtain ⟨child, hchild, hfound⟩ := Option.bind_eq_some_iff.mp h
    obtain ⟨hparent, rfl⟩ := child?_eq_some_iff.mp hchild
    rw [ih hfound, line_of_parent? hparent, List.append_assoc, List.singleton_append]

theorem ofLine?_eq_some_iff {names : List String} {place : Place} :
    ofLine? names = some place ↔ place.line = names := by
  constructor
  · intro h
    cases names with
    | nil => exact nomatch h
    | cons name names => exact line_of_foldlM h
  · rintro rfl
    cases place <;> rfl

/-! ## Paths -/

/-- A place whose names are names. -/
def WellNamed (place : Place) : Prop := ∀ name ∈ place.line, Blueprint.IsName name

theorem segments_path {place : Place} (h : place.WellNamed) :
    Forest.segments place.path = place.line := by
  apply Forest.segments_intercalate
  · exact fun name hname ↦ (h name hname).dot_not_mem
  · cases place <;> simp [line]

theorem path_injective {place other : Place} (h : place.WellNamed) (hother : other.WellNamed)
    (hpath : place.path = other.path) : place = other := by
  have hline : place.line = other.line := by rw [← segments_path h, hpath, segments_path hother]
  exact Option.some.inj ((ofLine?_eq_some_iff.mpr rfl).symm.trans (ofLine?_eq_some_iff.mpr hline.symm))

end Place

end Style

/-! ## The places of a blueprint -/

namespace Blueprint

open Style (Place)

/-- The class of a selector and, if it names one, its state. -/
def Selector.places (block : String) (selector : Selector) : List Place :=
  .styleClass block selector.className ::
    selector.state.toList.map (.state block selector.className)

def Block.places (block : Block) : List Place :=
  .block block.name :: block.selectors.flatMap (·.places block.name)

/-- The places that a blueprint asks for. -/
def places (blueprint : Blueprint) : List Place := blueprint.blocks.flatMap Block.places

def paths (blueprint : Blueprint) : List String := blueprint.places.map Place.path

theorem root_of_mem_places {block : Block} {place : Place} (h : place ∈ block.places) :
    place.root = .block block.name := by
  simp only [Block.places, Selector.places, List.mem_cons, List.mem_flatMap, List.mem_map] at h
  rcases h with rfl | ⟨selector, _, rfl | ⟨state, _, rfl⟩⟩ <;> rfl

theorem block_mem_places_iff (blueprint : Blueprint) (name : String) :
    Place.block name ∈ blueprint.places ↔ name ∈ blueprint.blocks.map (·.name) := by
  constructor
  · intro h
    obtain ⟨block, hblock, hplace⟩ := List.mem_flatMap.mp h
    have hname : name = block.name := Place.block.inj (root_of_mem_places hplace)
    exact hname ▸ List.mem_map_of_mem hblock
  · intro h
    obtain ⟨block, hblock, rfl⟩ := List.mem_map.mp h
    exact List.mem_flatMap.mpr ⟨block, hblock, List.mem_cons_self⟩

end Blueprint

/-! ## Places without repeats -/

namespace Style.Place

variable {places : List Place}

theorem idxOf?_eq_some_iff_getElem? (hnodup : places.Nodup) {place : Place} {id : NodeId} :
    places.idxOf? place = some id ↔ places[id]? = some place := by
  rw [List.idxOf?_eq_some_iff, List.getElem?_eq_some_iff]
  refine exists_congr fun hid ↦ and_iff_left_of_imp ?_
  rintro rfl other hother heq
  exact Nat.ne_of_lt hother ((hnodup.getElem_inj_iff).mp heq)

theorem idxOf?_append_of_not_mem {place : Place} {more : List Place} (h : place ∉ more) :
    (places ++ more).idxOf? place = places.idxOf? place := by
  have hnone : more.idxOf? place = none := List.idxOf?_eq_none_iff.mpr h
  rw [List.idxOf?] at hnone ⊢
  simp [List.findIdx?_append, hnone]

theorem idxOf?_concat_self {new : Place} (h : new ∉ places) :
    (places ++ [new]).idxOf? new = some places.length := by
  have hnone : places.idxOf? new = none := List.idxOf?_eq_none_iff.mpr h
  rw [List.idxOf?] at hnone ⊢
  simp [List.findIdx?_append, hnone]

theorem idxOf?_concat_of_mem {place new : Place} (h : place ∈ places) (hnew : new ∉ places) :
    (places ++ [new]).idxOf? place = places.idxOf? place := by
  apply idxOf?_append_of_not_mem
  rw [List.mem_singleton]
  exact ne_of_mem_of_not_mem h hnew

theorem bind_idxOf?_concat {place? : Option Place} {new : Place} (h : place? ≠ some new) :
    place?.bind ((places ++ [new]).idxOf? ·) = place?.bind (places.idxOf? ·) := by
  cases place? with
  | none => rfl
  | some place => exact idxOf?_append_of_not_mem (by simpa using h)

theorem exists_idxOf?_eq_some {place : Place} (h : place ∈ places) :
    ∃ id, places.idxOf? place = some id :=
  Option.isSome_iff_exists.mp (List.isSome_idxOf?.mpr h)

theorem getElem?_concat_eq_some_iff {place new : Place} {id : NodeId} :
    (places ++ [new])[id]? = some place ↔
      places[id]? = some place ∨ id = places.length ∧ place = new := by
  rw [List.getElem?_append]
  split
  next hlt => simp [Nat.ne_of_lt hlt]
  next hge =>
    have hle := Nat.le_of_not_lt hge
    have hend : id - places.length = 0 ↔ id = places.length :=
      Nat.sub_eq_zero_iff_le.trans ⟨fun hid ↦ Nat.le_antisymm hid hle, Nat.le_of_eq⟩
    have hnone : places[id]? = none := List.getElem?_eq_none hle
    simp [hnone, List.getElem?_singleton, hend, eq_comm]

/-- A place keeps its number when others are asked for later. -/
theorem getElem?_eraseDups_append {asked : List Place} {id : NodeId} {place : Place}
    (h : asked.eraseDups[id]? = some place) (more : List Place) :
    (asked ++ more).eraseDups[id]? = some place := by
  rw [List.eraseDups_append]
  exact List.getElem?_append_left (List.getElem?_eq_some_iff.mp h).1 ▸ h

theorem idxOf?_eraseDups_append {asked more : List Place} {place : Place} (h : place ∉ more) :
    (asked ++ more).eraseDups.idxOf? place = asked.eraseDups.idxOf? place := by
  rw [List.eraseDups_append]
  apply idxOf?_append_of_not_mem
  simp [List.removeAll, h]

theorem eraseDups_concat (asked : List Place) (place : Place) :
    (asked ++ [place]).eraseDups =
      if place ∈ asked then asked.eraseDups else asked.eraseDups ++ [place] := by
  rw [List.eraseDups_append]
  by_cases h : place ∈ asked <;> simp [h, List.removeAll, List.eraseDups_cons]

end Style.Place

end Lineage
