import Lineage.Proofs.Blueprint.Descent
import Lineage.Proofs.Mirror

/-!
# The order of selectors

Selectors that come in another order, more than once, or with a class that one of its states brings
along anyhow, ask for the same places in another order.  So the forests that are built hold nodes at the
same places, under ids that may differ, and those at one place are twins (`Represents.mirrors`).

A reader who calls nodes by their paths is told the same about both forests (`build_alike`).
-/

namespace Lineage

namespace Blueprint

open Style (Place)

/-! ## Blocks that ask for the same -/

/-- Two blocks of one name extend the same block, and their selectors name the same classes and the same
states of classes. -/
structure Block.Alike (block other : Block) : Prop where
  name : block.name = other.name
  base : block.base = other.base
  classes : ∀ className, (∃ selector ∈ block.selectors, selector.className = className) ↔
    ∃ selector ∈ other.selectors, selector.className = className
  states : ∀ className state, ⟨className, some state⟩ ∈ block.selectors ↔
    ⟨className, some state⟩ ∈ other.selectors

/-- Each block of the one blueprint is alike to one of the other. -/
structure Alike (blueprint other : Blueprint) : Prop where
  left : ∀ block ∈ blueprint.blocks, ∃ block' ∈ other.blocks, block.Alike block'
  right : ∀ block' ∈ other.blocks, ∃ block ∈ blueprint.blocks, block.Alike block'

theorem Block.Alike.symm {block other : Block} (h : block.Alike other) : other.Alike block :=
  ⟨h.name.symm, h.base.symm, fun className ↦ (h.classes className).symm,
    fun className state ↦ (h.states className state).symm⟩

/-- Each selector of a block names a class of the other, and if it names a state is one of the other. -/
def Block.Within (block other : Block) : Prop :=
  ∀ selector ∈ block.selectors, (∃ selector' ∈ other.selectors, selector'.className = selector.className) ∧
    (selector.state.isSome → selector ∈ other.selectors)

instance (block other : Block) : Decidable (block.Within other) :=
  inferInstanceAs (Decidable (∀ selector ∈ block.selectors, _))

theorem Block.alike_iff {block other : Block} : block.Alike other ↔
    block.name = other.name ∧ block.base = other.base ∧ block.Within other ∧ other.Within block := by
  have hwithin : ∀ {block other : Block}, block.Alike other → block.Within other := by
    rintro block other h ⟨className, state⟩ hselector
    refine ⟨(h.classes className).mp ⟨_, hselector, rfl⟩, fun hstate ↦ ?_⟩
    obtain ⟨state, rfl⟩ := Option.isSome_iff_exists.mp hstate
    exact (h.states className state).mp hselector
  constructor
  · intro h
    exact ⟨h.name, h.base, hwithin h, hwithin h.symm⟩
  · rintro ⟨hname, hbase, hleft, hright⟩
    refine ⟨hname, hbase, fun className ↦ ⟨?_, ?_⟩, fun className state ↦ ⟨?_, ?_⟩⟩
    · rintro ⟨selector, hselector, rfl⟩
      exact (hleft selector hselector).1
    · rintro ⟨selector, hselector, rfl⟩
      exact (hright selector hselector).1
    · exact fun hselector ↦ (hleft _ hselector).2 rfl
    · exact fun hselector ↦ (hright _ hselector).2 rfl

instance (block other : Block) : Decidable (block.Alike other) := decidable_of_iff _ Block.alike_iff.symm

theorem alike_iff {blueprint other : Blueprint} : blueprint.Alike other ↔
    (∀ block ∈ blueprint.blocks, ∃ block' ∈ other.blocks, block.Alike block') ∧
      ∀ block' ∈ other.blocks, ∃ block ∈ blueprint.blocks, block.Alike block' :=
  ⟨fun h ↦ ⟨h.left, h.right⟩, fun h ↦ ⟨h.1, h.2⟩⟩

instance (blueprint other : Blueprint) : Decidable (blueprint.Alike other) :=
  decidable_of_iff _ alike_iff.symm

theorem Alike.symm {blueprint other : Blueprint} (h : blueprint.Alike other) : other.Alike blueprint where
  left block' hblock' := by
    obtain ⟨block, hblock, halike⟩ := h.right block' hblock'
    exact ⟨block, hblock, halike.symm⟩
  right block hblock := by
    obtain ⟨block', hblock', halike⟩ := h.left block hblock
    exact ⟨block', hblock', halike.symm⟩

theorem styleClass_mem_places_iff (block : Block) (name className : String) :
    Place.styleClass name className ∈ block.places ↔
      name = block.name ∧ ∃ selector ∈ block.selectors, selector.className = className := by
  have hmem : Place.styleClass name className ∈ block.places ↔
      ∃ selector ∈ block.selectors, name = block.name ∧ className = selector.className := by
    simp [Block.places, Selector.places]
  rw [hmem]
  constructor
  · rintro ⟨selector, hselector, hname, hclass⟩
    exact ⟨hname, selector, hselector, hclass.symm⟩
  · rintro ⟨hname, selector, hselector, hclass⟩
    exact ⟨selector, hselector, hname, hclass.symm⟩

theorem state_mem_places_iff (block : Block) (name className state : String) :
    Place.state name className state ∈ block.places ↔
      name = block.name ∧ ⟨className, some state⟩ ∈ block.selectors := by
  have hmem : Place.state name className state ∈ block.places ↔ ∃ selector ∈ block.selectors,
      selector.state = some state ∧ block.name = name ∧ selector.className = className := by
    simp [Block.places, Selector.places]
  rw [hmem]
  constructor
  · rintro ⟨⟨_, _⟩, hselector, rfl, rfl, rfl⟩
    exact ⟨rfl, hselector⟩
  · rintro ⟨rfl, hselector⟩
    exact ⟨_, hselector, rfl, rfl, rfl⟩

theorem Block.Alike.mem_places {block other : Block} (h : block.Alike other) {place : Place}
    (hplace : place ∈ block.places) : place ∈ other.places := by
  cases place with
  | block name =>
    have hname : name = block.name := Place.block.inj (root_of_mem_places hplace)
    rw [hname, h.name]
    exact List.mem_cons_self
  | styleClass name className =>
    rw [styleClass_mem_places_iff] at hplace ⊢
    exact ⟨hplace.1.trans h.name, (h.classes className).mp hplace.2⟩
  | state name className state =>
    rw [state_mem_places_iff] at hplace ⊢
    exact ⟨hplace.1.trans h.name, (h.states className state).mp hplace.2⟩

theorem Alike.mem_places {blueprint other : Blueprint} (h : blueprint.Alike other) {place : Place}
    (hplace : place ∈ blueprint.places) : place ∈ other.places := by
  obtain ⟨block, hblock, hplace⟩ := List.mem_flatMap.mp hplace
  obtain ⟨block', hblock', halike⟩ := h.left block hblock
  exact List.mem_flatMap.mpr ⟨block', hblock', halike.mem_places hplace⟩

theorem Alike.mem_places_iff {blueprint other : Blueprint} (h : blueprint.Alike other) (place : Place) :
    place ∈ blueprint.places ↔ place ∈ other.places :=
  ⟨h.mem_places, h.symm.mem_places⟩

theorem Alike.base?_eq {blueprint other : Blueprint} (h : blueprint.Alike other)
    (hblueprint : blueprint.Buildable) (hother : other.Buildable) : blueprint.base? = other.base? := by
  funext name
  by_cases hname : ∃ block ∈ blueprint.blocks, block.name = name
  · obtain ⟨block, hblock, rfl⟩ := hname
    obtain ⟨block', hblock', halike⟩ := h.left block hblock
    calc
      blueprint.base? block.name = block.base := hblueprint.base?_name hblock
      _ = block'.base := halike.base
      _ = other.base? block'.name := (hother.base?_name hblock').symm
      _ = other.base? block.name := by rw [halike.name]
  · have hnone : blueprint.base? name = none := base?_eq_none fun block hblock heq ↦ hname ⟨block, hblock, heq⟩
    have hnone' : other.base? name = none := by
      apply base?_eq_none
      intro block' hblock' heq
      obtain ⟨block, hblock, halike⟩ := h.right block' hblock'
      exact hname ⟨block, hblock, halike.name.trans heq⟩
    rw [hnone, hnone']

end Blueprint

/-! ## Sessions with the same places -/

namespace Style

/-- Two nodes are at one place. -/
def Shares (places places' : List Place) (id id' : NodeId) : Prop :=
  ∃ place, places[id]? = some place ∧ places'[id']? = some place

namespace Represents

variable {session session' : Session Style} {places places' : List Place} {bases : String → Option String}
  (h : Represents session places bases) (h' : Represents session' places' bases)
  (hplaces : ∀ place, place ∈ places ↔ place ∈ places')
include h h'

theorem biUnique_shares : Relator.BiUnique (Shares places places') := by
  constructor
  · rintro id other id' ⟨place, hid, hid'⟩ ⟨place', hother, hother'⟩
    obtain rfl := Option.some.inj (hid'.symm.trans hother')
    exact h.id_unique hother hid
  · rintro id id' other' ⟨place, hid, hid'⟩ ⟨place', hother, hother'⟩
    obtain rfl := Option.some.inj (hid.symm.trans hother)
    exact h'.id_unique hother' hid'

include hplaces

theorem rel_idxOf? (place : Place) :
    Option.Rel (Shares places places') (places.idxOf? place) (places'.idxOf? place) := by
  by_cases hmem : place ∈ places
  · obtain ⟨id, hid⟩ := Place.exists_idxOf?_eq_some hmem
    obtain ⟨id', hid'⟩ := Place.exists_idxOf?_eq_some ((hplaces place).mp hmem)
    rw [hid, hid']
    exact .some ⟨place, h.idxOf?_eq_some_iff.mp hid, h'.idxOf?_eq_some_iff.mp hid'⟩
  · rw [List.idxOf?_eq_none_iff.mpr hmem, List.idxOf?_eq_none_iff.mpr ((hplaces place).not.mp hmem)]
    exact .none

theorem rel_bind_idxOf? (place? : Option Place) :
    Option.Rel (Shares places places') (place?.bind (places.idxOf? ·)) (place?.bind (places'.idxOf? ·)) := by
  cases place? with
  | none => exact .none
  | some place => exact h.rel_idxOf? h' hplaces place

/-- The nodes at one place are twins. -/
theorem mirrors : session.Mirrors (Shares places places') session' where
  valid := h.rooted.valid
  valid' := h'.rooted.valid
  unique := h.biUnique_shares h'
  node := by
    rintro id id' ⟨place, hid, hid'⟩
    obtain ⟨node, hnode, hstands⟩ := h.node id place hid
    obtain ⟨node', hnode', hstands'⟩ := h'.node id' place hid'
    refine ⟨node, node', hnode, hnode', ?_, ?_, ?_, fun name ↦ ?_⟩
    · exact hstands.name.trans hstands'.name.symm
    · exact hstands.payload.trans hstands'.payload.symm
    · rw [hstands.parent, hstands'.parent]
      exact h.rel_bind_idxOf? h' hplaces place.parent?
    · have hchild := h.child id place hid name
      have hchild' := h'.child id' place hid' name
      rw [Forest.childNamed_eq hnode] at hchild
      rw [Forest.childNamed_eq hnode'] at hchild'
      rw [hchild, hchild']
      exact h.rel_bind_idxOf? h' hplaces (place.child? name)
  slot := by
    rintro id id' ⟨place, hid, hid'⟩
    rw [h.slot id place hid, h'.slot id' place hid']
    unfold Place.slot
    cases place.baseName? bases with
    | none => exact .unresolved
    | some base => exact .resolved (h.rel_idxOf? h' hplaces _)
  roots name := by
    rw [h.roots, h'.roots]
    exact h.rel_idxOf? h' hplaces _

end Represents

end Style

/-! ## What is built -/

namespace Blueprint

/-- Two accepted blueprints that differ in the order and the repetition of selectors are built into forests
of which a reader who calls nodes by their paths is told the same, whatever was read before. -/
theorem build_alike {declarations declarations' : NameMap Declaration} {blueprint blueprint' : Blueprint}
    (hdeclared : ofDeclarations declarations = .ok blueprint)
    (hdeclared' : ofDeclarations declarations' = .ok blueprint')
    (halike : blueprint.Alike blueprint') (recording recording' : Bool) :
    ∃ built built', blueprint.build recording = .ok built ∧ blueprint'.build recording' = .ok built' ∧
      (∃ paths paths', built.session.forest.paths built.session.forest.ids = .ok paths ∧
        built'.session.forest.paths built'.session.forest.ids = .ok paths' ∧ paths.Perm paths' ∧
        ∀ path ∈ paths, ∃ kind, ∀ reads,
          built.session.toldAfter reads path .payload = .ok (.payload (Style.bare kind))) ∧
      ∀ path inquiry, ∃ told,
        (∀ reads, built.session.toldAfter reads path inquiry = .ok told) ∧
        ∀ reads, built'.session.toldAfter reads path inquiry = .ok told := by
  have hbuildable := buildable_of_ofDeclarations_eq_ok hdeclared
  have hbuildable' := buildable_of_ofDeclarations_eq_ok hdeclared'
  obtain ⟨built, hbuild, hbuilt, hids⟩ := hbuildable.exists_represents recording
  obtain ⟨built', hbuild', hbuilt', _⟩ := hbuildable'.exists_represents recording'
  refine ⟨built, built', hbuild, hbuild', ?_, fun path inquiry ↦ ?_⟩
  · obtain ⟨paths, hpaths, hnodup, hmem⟩ := exists_paths hbuilt hbuildable
    obtain ⟨paths', hpaths', hnodup', hmem'⟩ := exists_paths hbuilt' hbuildable'
    refine ⟨paths, paths', hpaths, hpaths', ?_, fun path hpath ↦ ?_⟩
    · apply (List.perm_ext_iff_of_nodup hnodup hnodup').mpr
      intro path
      rw [hmem, hmem']
      simp [Blueprint.paths, halike.mem_places_iff]
    · obtain ⟨place, hplace, rfl⟩ := List.mem_map.mp ((hmem path).mp hpath)
      obtain ⟨id, _, hdisplays⟩ := (realizes_of_represents hbuilt hbuildable hids).place place hplace
      obtain ⟨node, hnode, hpayload, _⟩ := hdisplays.node
      refine ⟨place.kind, fun reads ↦ ?_⟩
      rw [← hpayload]
      exact Session.toldAfter_payload hdisplays.find hnode reads
  · have hplaces : ∀ place, place ∈ blueprint.places.eraseDups ↔ place ∈ blueprint'.places.eraseDups := by
      simp [halike.mem_places_iff]
    rw [← halike.base?_eq hbuildable hbuildable'] at hbuilt'
    obtain ⟨told, htold, htold', hfails⟩ := (hbuilt.mirrors hbuilt' hplaces).exists_told path inquiry
    have htrans := isTrans_inherits hbuilt hids
    have hirreflexive := not_inherits_self hbuilt hids (acyclic_of_ofDeclarations_eq_ok hdeclared)
    cases told with
    | ok told => exact ⟨told, htold, htold'⟩
    | error error =>
      obtain ⟨id, hrevisits⟩ := hfails error rfl
      exact absurd hrevisits ((layered_of_represents hbuilt hids).not_revisits hirreflexive id)

/-- The second text asks for the body of a card before its title. -/
theorem cards_build_alike :
    let text := "[blocks.note]\nextends = 'card'\nclasses = ['title']\n" ++
      "[blocks.card]\nclasses = ['title:hover', 'body']\n"
    let text' := "[blocks.card]\nclasses = ['body', 'title', 'title:hover', 'body']\n" ++
      "[blocks.note]\nextends = 'card'\nclasses = ['title']\n"
    ∃ declarations declarations' blueprint blueprint' built built',
      declarationsOfText? text = some declarations ∧ declarationsOfText? text' = some declarations' ∧
      ofDeclarations declarations = .ok blueprint ∧ ofDeclarations declarations' = .ok blueprint' ∧
      blueprint.Alike blueprint' ∧
      blueprint.build true = .ok built ∧ blueprint'.build false = .ok built' ∧
      built.session.forest.path 1 = .ok "card.title" ∧ built'.session.forest.path 1 = .ok "card.body" ∧
      ∀ path inquiry, ∃ told,
        (∀ reads, built.session.toldAfter reads path inquiry = .ok told) ∧
        ∀ reads, built'.session.toldAfter reads path inquiry = .ok told := by
  intro text text'
  let blueprint : Blueprint := ⟨[⟨"card", none, [⟨"title", some "hover"⟩, ⟨"body", none⟩]⟩,
    ⟨"note", some "card", [⟨"title", none⟩]⟩]⟩
  let blueprint' : Blueprint := ⟨[⟨"card", none, [⟨"body", none⟩, ⟨"title", none⟩,
    ⟨"title", some "hover"⟩, ⟨"body", none⟩]⟩, ⟨"note", some "card", [⟨"title", none⟩]⟩]⟩
  have haccepted : ofText text = .ok blueprint := by decide +kernel
  have haccepted' : ofText text' = .ok blueprint' := by decide +kernel
  have halike : blueprint.Alike blueprint' := by decide
  have hpath : (blueprint.build true).map (·.session.forest.path 1) = .ok (.ok "card.title") := by
    decide +kernel
  have hpath' : (blueprint'.build false).map (·.session.forest.path 1) = .ok (.ok "card.body") := by
    decide +kernel
  obtain ⟨declarations, hread, hdeclared⟩ := ofText_eq_ok_iff_ofDeclarations.mp haccepted
  obtain ⟨declarations', hread', hdeclared'⟩ := ofText_eq_ok_iff_ofDeclarations.mp haccepted'
  obtain ⟨built, built', hbuild, hbuild', _, htold⟩ :=
    build_alike hdeclared hdeclared' halike true false
  rw [hbuild] at hpath
  rw [hbuild'] at hpath'
  exact ⟨declarations, declarations', blueprint, blueprint', built, built', hread, hread', hdeclared,
    hdeclared', halike, hbuild, hbuild', Except.ok.inj hpath, Except.ok.inj hpath', htold⟩

end Blueprint

end Lineage
