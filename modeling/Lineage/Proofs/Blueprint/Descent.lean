import Lineage.Proofs.Blueprint.Realization
import Lineage.Proofs.LayeredCalls

/-!
# Descent

A style forest that is built from an accepted blueprint is layered by what its blocks extend: a base is
as deep as its node, and the block of the node extends the block of the base, at once or by way of others
(`layered_of_represents`).  No block extends itself.

Whatever is added to the forest later, and read in between, it stays layered as long as no base is set.
So bases never lead back to where they started, and nothing that is read ends in a cycle
(`descends_after`).
-/

namespace Lineage

open Relation

variable {ε α β : Type}

/-! ## Represented places -/

namespace Style.Represents

variable {session : Session Style} {places : List Place} {bases : String → Option String}
  (h : Represents session places bases) {id : NodeId} {place : Place}
include h

theorem nameOf_eq (hid : places[id]? = some place) : session.forest.nameOf id = some place.name := by
  obtain ⟨node, hnode, hstands⟩ := h.node id place hid
  rw [Forest.nameOf_eq hnode, hstands.name]

theorem rootOf_eq (hid : places[id]? = some place) :
    session.forest.rootOf id = places.idxOf? place.root := by
  obtain ⟨node, hnode, hstands⟩ := h.node id place hid
  rw [Forest.rootOf_eq hnode, hstands.root]

theorem parentOf_eq (hid : places[id]? = some place) :
    session.forest.parentOf id = place.parent?.bind (places.idxOf? ·) := by
  obtain ⟨node, hnode, hstands⟩ := h.node id place hid
  rw [Forest.parentOf_eq hnode, hstands.parent]

theorem exists_places_of_parentOf {parent : NodeId} (hparent : session.forest.parentOf id = some parent) :
    ∃ place above, places[id]? = some place ∧ places[parent]? = some above ∧
      place.parent? = some above := by
  obtain ⟨place, hid⟩ := h.exists_getElem? (Forest.lt_of_parentOf_eq_some hparent)
  rw [h.parentOf_eq hid] at hparent
  obtain ⟨above, habove, hfound⟩ := Option.bind_eq_some_iff.mp hparent
  exact ⟨place, above, hid, h.idxOf?_eq_some_iff.mp hfound, habove⟩

theorem exists_block_of_isRoot (hroot : session.forest.IsRoot id) :
    ∃ name, places[id]? = some (.block name) := by
  obtain ⟨place, hid⟩ := h.exists_getElem? hroot.1
  have hnone := (h.parentOf_eq hid).symm.trans hroot.2
  cases hparent : place.parent? with
  | none => exact ⟨place.name, hid.trans (congrArg some (Place.eq_block_of_parent?_eq_none hparent))⟩
  | some above =>
    obtain ⟨parent, hfound⟩ := Place.exists_idxOf?_eq_some
      (h.parent_mem place (List.mem_of_getElem? hid) above hparent)
    rw [hparent] at hnone
    exact nomatch hnone.symm.trans hfound

theorem orderly : session.forest.Orderly where
  parent_lt := h.rooted.valid.closed.parent_lt
  root_self id hroot := by
    obtain ⟨name, hid⟩ := h.exists_block_of_isRoot hroot
    exact (h.rootOf_eq hid).trans (h.idxOf?_eq_some_iff.mpr hid)
  root_parent id parent hparent := by
    obtain ⟨place, above, hid, hparent, habove⟩ := h.exists_places_of_parentOf hparent
    rw [h.rootOf_eq hid, h.rootOf_eq hparent, Place.root_of_parent? habove]
  child_iff {name parent child} := by
    constructor
    · exact fun hchild ↦ (h.rooted.child hchild).symm
    · rintro ⟨hparent, hname⟩
      obtain ⟨place, above, hid, hparent, habove⟩ := h.exists_places_of_parentOf hparent
      obtain rfl := Option.some.inj ((h.nameOf_eq hid).symm.trans hname)
      rw [h.child parent above hparent, Place.child?_eq_some_iff.mpr ⟨habove, rfl⟩]
      exact h.idxOf?_eq_some_iff.mpr hid
  roots_iff {name id} := by
    rw [h.roots, h.idxOf?_eq_some_iff]
    constructor
    · intro hid
      refine ⟨h.nameOf_eq hid, h.isRoot hid, fun other hother hsame ↦ ?_⟩
      obtain ⟨otherName, hblock⟩ := h.exists_block_of_isRoot hother
      rw [h.nameOf_eq hid, h.nameOf_eq hblock] at hsame
      -- There is one block of each name, so it is the last of its name.
      obtain rfl : otherName = name := Option.some.inj hsame
      exact Nat.le_of_eq (h.id_unique hid hblock)
    · rintro ⟨hname, hroot, _⟩
      obtain ⟨blockName, hid⟩ := h.exists_block_of_isRoot hroot
      obtain rfl : blockName = name := Option.some.inj ((h.nameOf_eq hid).symm.trans hname)
      exact hid

/-- Only blocks have bases that are known, and these are the blocks that they are said to extend. -/
theorem exists_bases_of_slot_eq {base : NodeId} (hslot : session.memo.slot id = .resolved (some base)) :
    ∃ name baseName, places[id]? = some (.block name) ∧ places[base]? = some (.block baseName) ∧
      bases name = some baseName := by
  have hid : id < session.forest.size := by
    by_contra hid
    simp [Session.slot_of_not_lt (h.rooted.valid.slots_size ▸ hid)] at hslot
  obtain ⟨place, hplace⟩ := h.exists_getElem? hid
  rw [h.slot id place hplace, Place.slot] at hslot
  cases hbase : place.baseName? bases with
  | none => simp [hbase] at hslot
  | some baseName =>
    rw [hbase] at hslot
    cases place with
    | block name => exact ⟨name, baseName, hplace, h.idxOf?_eq_some_iff.mp (Slot.resolved.inj hslot), hbase⟩
    | styleClass | state => simp [Place.baseName?] at hbase

end Style.Represents

/-! ## Layers of blocks -/

namespace Blueprint

/-- The block at one node extends that at another, at once or by way of others. -/
def Built.Inherits (built : Built) (blueprint : Blueprint) (root top : NodeId) : Prop :=
  ∃ name ancestor, built.blocks.find? name = some root ∧ built.blocks.find? ancestor = some top ∧
    TransGen blueprint.Leads name ancestor

section Layers

variable {built : Built} {blueprint : Blueprint}
  (h : Style.Represents built.session blueprint.places.eraseDups blueprint.base?)
  (hids : ∀ name, built.blocks.find? name = blueprint.places.eraseDups.idxOf? (.block name))
include h hids

theorem find?_injective {name other : String} {id : NodeId} (hname : built.blocks.find? name = some id)
    (hother : built.blocks.find? other = some id) : name = other := by
  rw [hids, h.idxOf?_eq_some_iff] at hname hother
  exact Style.Place.block.inj (Option.some.inj (hname.symm.trans hother))

theorem isTrans_inherits : IsTrans NodeId (built.Inherits blueprint) := by
  constructor
  rintro _ _ _ ⟨name, between, hname, hbetween, hleads⟩ ⟨between', ancestor, hbetween', hancestor, hleads'⟩
  obtain rfl := find?_injective h hids hbetween hbetween'
  exact ⟨name, ancestor, hname, hancestor, hleads.trans hleads'⟩

theorem not_inherits_self (hacyclic : ∀ name, ¬ TransGen blueprint.Leads name name) (root : NodeId) :
    ¬ built.Inherits blueprint root root := by
  rintro ⟨name, ancestor, hname, hancestor, hleads⟩
  obtain rfl := find?_injective h hids hname hancestor
  exact hacyclic name hleads

theorem layered_of_represents : built.session.Layered (built.Inherits blueprint) where
  valid := h.rooted.valid
  orderly := h.orderly
  base_over id base hslot := by
    obtain ⟨name, baseName, hid, hbase, hextends⟩ := h.exists_bases_of_slot_eq hslot
    have hroot := h.isRoot hid
    have htop := h.isRoot hbase
    refine ⟨?_, id, base, h.orderly.root_self hroot, h.orderly.root_self htop, name, baseName, ?_, ?_, ?_⟩
    · rw [Forest.depth_of_not_parent hroot.2, Forest.depth_of_not_parent htop.2]
    · exact (hids name).trans (h.idxOf?_eq_some_iff.mpr hid)
    · exact (hids baseName).trans (h.idxOf?_eq_some_iff.mpr hbase)
    · exact .single hextends

end Layers

end Blueprint

/-! ## The journal of building -/

/-- An action that writes no warning. -/
def Action.Quiet (action : Action ε α) : Prop :=
  ∀ session, ∀ event ∈ (action.run session).2.memo.events, event ∈ session.memo.events ∨ event.level ≠ .warn

namespace Action

theorem quiet_pure (value : α) : (pure value : Action ε α).Quiet := fun _ _ ↦ .inl

theorem quiet_liftM (read : Except Error α) : (liftM read : Action ε α).Quiet := by
  cases read <;> exact fun _ _ ↦ .inl

theorem Quiet.bind {action : Action ε α} {next : α → Action ε β} (h : action.Quiet)
    (hnext : ∀ value, (next value).Quiet) : (action >>= next).Quiet := by
  intro session event hevent
  have hfirst := h session
  rw [Lookup.run_bind] at hevent
  rcases hrun : action.run session with ⟨_ | value, between⟩
  all_goals rw [hrun] at hevent hfirst
  · exact hfirst event hevent
  · rcases hnext value between event hevent with hbetween | hlevel
    · exact hfirst event hbetween
    · exact .inr hlevel

theorem quiet_forM {items : List β} {step : β → Action ε Unit} (h : ∀ item, (step item).Quiet) :
    (items.forM step).Quiet := by
  induction items with
  | nil => exact quiet_pure ()
  | cons item items ih => exact (h item).bind fun _ ↦ ih

theorem quiet_foldlM {items : List β} {step : α → β → Action ε α}
    (h : ∀ state item, (step state item).Quiet) (start : α) : (items.foldlM step start).Quiet := by
  induction items generalizing start with
  | nil => exact quiet_pure start
  | cons item items ih =>
    rw [List.foldlM_cons]
    exact (h start item).bind ih

theorem quiet_report {event : Forest ε → Event} (h : ∀ forest, (event forest).level ≠ .warn) :
    (look fun forest ↦ Lookup.report (return event forest) : Action ε Unit).Quiet := by
  intro session other hother
  rw [run_look (run_report_pure (event session.forest) session.memo)] at hother
  refine (Memo.mem_events_of_mem_write hother).imp_right ?_
  rintro rfl
  exact h session.forest

/-- Edits report no more than bases that they replace. -/
theorem quiet_of_changes (set? : Option (NodeId × Option NodeId)) {action : Action ε α}
    (h : ∀ session, Session.Changes set? session (action.run session).2) : action.Quiet := by
  intro session event hevent
  refine ((h session).mem_events hevent).imp_right ?_
  rintro ⟨_, _, _, rfl⟩
  simp [Event.level]

end Action

namespace Blueprint

theorem quiet_add (block : Block) : block.add.Quiet := by
  have hblock : (Style.addBlock block.name).Quiet :=
    Action.quiet_of_changes none fun _ ↦ Session.changes_addRoot ..
  refine hblock.bind fun id ↦ ?_
  refine (Action.quiet_forM fun selector ↦ ?_).bind fun _ ↦ Action.quiet_pure id
  have hselector : (Style.obtainSelector id selector.className selector.state).Quiet :=
    Action.quiet_of_changes none fun _ ↦ Session.changes_obtainSelector ..
  exact hselector.bind fun _ ↦ Action.quiet_pure ()

theorem quiet_wire (ids : NameMap NodeId) (block : Block) : (block.wire ids).Quiet := by
  unfold Block.wire
  cases block.base with
  | none => exact Action.quiet_pure ()
  | some base =>
    refine (Action.quiet_liftM _).bind fun id ↦ (Action.quiet_liftM _).bind fun baseId ↦ ?_
    have hreport : Action.Quiet (ε := Style) (Action.look fun _ ↦
        Lookup.report (return .wiring block.name base)) :=
      Action.quiet_report fun _ ↦ nofun
    have hextend : (Action.extend id baseId : Action Style Unit).Quiet :=
      Action.quiet_of_changes (some (id, some baseId)) fun _ ↦ Session.changes_extend id baseId
    exact hreport.bind fun _ ↦ hextend

theorem quiet_construct (blueprint : Blueprint) : blueprint.construct.Quiet := by
  have hadd : ∀ (ids : NameMap NodeId) (block : Block), Action.Quiet do
      return ids.insert block.name (← block.add) :=
    fun _ block ↦ (quiet_add block).bind fun _ ↦ Action.quiet_pure _
  refine (Action.quiet_foldlM hadd _).bind fun ids ↦ ?_
  refine (Action.quiet_forM (quiet_wire ids)).bind fun _ ↦ ?_
  have hreport : Action.Quiet (ε := Style) (Action.look fun forest ↦
      Lookup.report (return .built ids.size forest.size)) :=
    Action.quiet_report fun _ ↦ nofun
  exact hreport.bind fun _ ↦ Action.quiet_pure ids

/-! ## Runs -/

/-- What holds of a client of a style forest that was built from a blueprint. -/
structure Built.Descends (built : Built) (blueprint : Blueprint) (client : Client Style) : Prop where
  /-- The block of a node extends the block of its base, if that is known, and is not that block. -/
  base : ∀ id base, client.session.memo.slot id = .resolved (some base) →
    ∃ root top name ancestor, client.session.forest.rootOf id = some root ∧
      client.session.forest.rootOf base = some top ∧ built.blocks.find? name = some root ∧
      built.blocks.find? ancestor = some top ∧ TransGen blueprint.Leads name ancestor ∧ ancestor ≠ name
  strict : ∀ id < client.session.forest.size, ∃ line,
    (client.step (.request (.query (.strictInheritance id)))).1 = .ok (.reply (.ids line))
  quiet : ∀ event ∈ client.session.memo.events, event.level ≠ .warn

/-- What is built from accepted declarations is layered by what the blocks extend, and none of them extends
itself; building it writes no warning. -/
theorem exists_build_layered {declarations : NameMap Declaration} {blueprint : Blueprint}
    (h : ofDeclarations declarations = .ok blueprint) (recording : Bool) :
    ∃ built, blueprint.build recording = .ok built ∧ IsTrans NodeId (built.Inherits blueprint) ∧
      (∀ root, ¬ built.Inherits blueprint root root) ∧ built.session.Layered (built.Inherits blueprint) ∧
      ∀ event ∈ built.session.memo.events, event.level ≠ .warn := by
  have hbuildable := buildable_of_ofDeclarations_eq_ok h
  obtain ⟨built, hbuild, hbuilt, hids⟩ := hbuildable.exists_represents recording
  have hirreflexive := not_inherits_self hbuilt hids (acyclic_of_ofDeclarations_eq_ok h)
  refine ⟨built, hbuild, isTrans_inherits hbuilt hids, hirreflexive, layered_of_represents hbuilt hids, ?_⟩
  intro event hevent
  have hquiet := quiet_construct blueprint (.empty Style recording) event
  rw [build_eq_ok_iff.mp hbuild] at hquiet
  apply (hquiet hevent).resolve_left
  cases recording <;> exact nofun

theorem descends_of_layered {built : Built} {blueprint : Blueprint} {client : Client Style}
    [IsTrans NodeId (built.Inherits blueprint)] (h : client.Layered (built.Inherits blueprint))
    (hirreflexive : ∀ root, ¬ built.Inherits blueprint root root)
    (hevents : ∀ event ∈ client.session.memo.events, event.Admitted (built.Inherits blueprint)) :
    built.Descends blueprint client where
  base id base hslot := by
    obtain ⟨root, top, hroot, htop, habove⟩ := (h.session.base_over hslot).roots
    obtain ⟨name, ancestor, hname, hancestor, hleads⟩ := habove
    refine ⟨root, top, name, ancestor, hroot, htop, hname, hancestor, hleads, ?_⟩
    rintro rfl
    exact hirreflexive root ⟨ancestor, ancestor, hname, hname, hleads⟩
  strict _ hid := h.exists_strictInheritance hirreflexive hid
  quiet event hevent := (Event.admitted_iff hirreflexive event).mp (hevents event hevent)

/-- A style forest that is built from an accepted blueprint never comes to a cycle of bases, whatever is
added to it and read of it. -/
theorem descends_after {declarations : NameMap Declaration} {blueprint : Blueprint}
    (h : ofDeclarations declarations = .ok blueprint) (recording : Bool) :
    ∃ built, blueprint.build recording = .ok built ∧ ∀ calls : List (Call Style),
      (∀ call ∈ calls, call.isOrderly = true ∧ call.sets? = none) →
      built.Descends blueprint (Client.after ⟨built.session, []⟩ calls) := by
  obtain ⟨built, hbuild, htrans, hirreflexive, hlayered, hquiet⟩ := exists_build_layered h recording
  refine ⟨built, hbuild, fun calls hcalls ↦ ?_⟩
  have hclient : Client.Layered (built.Inherits blueprint) ⟨built.session, []⟩ := ⟨hlayered, nofun⟩
  have hevents : ∀ event ∈ built.session.memo.events, event.Admitted (built.Inherits blueprint) :=
    fun event hevent ↦ (Event.admitted_iff hirreflexive event).mpr (hquiet event hevent)
  obtain ⟨hafter, hadmitted⟩ := hclient.after_of_sets?_eq_none hevents hcalls
  exact descends_of_layered hafter hirreflexive hadmitted

/-- The title of a note has that of a card as its base.  The state of the one is read before the other has
such a state, and later there is a second block of the name of the first. -/
theorem descends_after_note_of_card :
    let blueprint : Blueprint :=
      ⟨[⟨"card", none, [⟨"title", none⟩]⟩, ⟨"note", some "card", [⟨"title", some "hover"⟩]⟩]⟩
    let calls : List (Call Style) := [.request (.query (.chain 3)), .openWalk 4,
      .style (.obtainSelector 0 "title" (some "hover")), .style (.declare 3 "color: red"),
      .style (.addBlock "card"), .style (.obtainSelector 6 "title" none),
      .request (.edit (.obtainChild 2 "body")), .request (.query (.strictInheritance 7)),
      .style (.visibleDeclarations 4)]
    (∃ declarations, declarationsOfText?
      "[blocks.note]\nextends = 'card'\nclasses = ['title:hover']\n[blocks.card]\nclasses = ['title']\n" =
        some declarations ∧ ofDeclarations declarations = .ok blueprint) ∧
      (∀ call ∈ calls, call.isOrderly = true ∧ call.sets? = none) ∧
      ∃ built, blueprint.build true = .ok built ∧
        (Client.after ⟨built.session, []⟩ calls).session.memo.slot 3 = .resolved (some 1) ∧
        built.Descends blueprint (Client.after ⟨built.session, []⟩ calls) := by
  intro blueprint calls
  have haccepted : ofText
      "[blocks.note]\nextends = 'card'\nclasses = ['title:hover']\n[blocks.card]\nclasses = ['title']\n" =
        .ok blueprint := by decide +kernel
  have hcalls : ∀ call ∈ calls, call.isOrderly = true ∧ call.sets? = none := by decide
  have hslot : (blueprint.build true).map (fun built ↦
      (Client.after ⟨built.session, []⟩ calls).session.memo.slot 3) = .ok (.resolved (some 1)) := by
    decide +kernel
  obtain ⟨declarations, hread, hdeclared⟩ := ofText_eq_ok_iff_ofDeclarations.mp haccepted
  obtain ⟨built, hbuild, hdescends⟩ := descends_after hdeclared true
  rw [hbuild] at hslot
  refine ⟨⟨declarations, hread, hdeclared⟩, hcalls, built, hbuild, Except.ok.inj hslot, ?_⟩
  exact hdescends calls hcalls

end Blueprint

end Lineage
