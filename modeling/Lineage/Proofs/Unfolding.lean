import Lineage.Proofs.Chains
import Mathlib.Data.List.Sort

/-!
# Inheritance unfolds at the base

Let `base` be the base of a node.  The children visible at the node are its own, and beside them those
visible at `base`.  This holds without exception: walks that go round a cycle are cut at different nodes,
according to where they set out, but what one of them leaves out is a node whose children were asked for
before.

Chains do depend on where they are cut.  The line of inheritance of the node is that of `base` with `base`
itself as the nearest, unless `base` inherits from the node.  In that case the two lines are one cycle, cut
at its two ends.  `inheritance_unfolds` collects what holds.
-/

namespace Lineage

open Lookup

variable {ε : Type}

/-- A map is determined by its look-ups. -/
theorem NameMap.ext {α : Type} {left right : NameMap α}
    (h : ∀ name, left.find? name = right.find? name) : left = right := by
  have horder : Std.Asymm fun first second : String × α ↦ first.1 < second.1 := ⟨fun _ _ ↦ String.lt_asymm⟩
  have hentries : left.entries = right.entries := by
    apply List.Pairwise.eq_of_mem_iff left.sorted right.sorted
    rintro ⟨name, value⟩
    rw [← lookup_eq_some_iff_mem left.sorted, ← lookup_eq_some_iff_mem right.sorted]
    exact iff_of_eq (congrArg (· = some value) (h name))
  cases left
  cases right
  exact (NameMap.mk.injEq ..).mpr hentries

namespace Session

/-- What a node answers, in terms of what it says itself and what `base` answers. -/
structure Unfolds (session : Session ε) (id base : NodeId) : Prop where
  visibleChild : ∀ name, ∃ own inherited,
    session.Answers (.view (.child? id name)) (.reply (.id? own)) ∧
    session.Answers (.ask (.query (.visibleChild base name))) (.reply (.id? inherited)) ∧
    session.Answers (.ask (.query (.visibleChild id name))) (.reply (.id? (own.or inherited)))
  visibleChildren : ∃ own inherited : NameMap NodeId,
    session.Answers (.view (.childMap id)) (.reply (.children own)) ∧
    session.Answers (.ask (.query (.visibleChildren base))) (.reply (.children inherited)) ∧
    session.Answers (.ask (.query (.visibleChildren id))) (.reply (.children (inherited.overwrite own)))
  inheritance : base ≠ id → ∀ reads, ¬ session.InheritsAfter reads base id → ∃ line,
    session.Answers (.ask (.query (.inheritance base))) (.reply (.ids line)) ∧
    session.Answers (.ask (.query (.inheritance id))) (.reply (.ids (line ++ [base])))
  /-- Where `base` inherits from the node in turn. -/
  cycle : ∀ reads, session.InheritsAfter reads base id → ∃ line,
    session.Answers (.ask (.query (.inheritance id))) (.reply (.ids (line ++ [base]))) ∧
    session.Answers (.ask (.query (.inheritance base))) (.reply (.ids (id :: line)))

variable {session : Session ε}

/-! ## Answers -/

/-- A view that shows the same in every memo always does. -/
theorem answers_view {view : View} {reply : Reply ε}
    (hview : ∀ memo, ((view.answer session.forest).run memo).1 = .ok reply) :
    session.Answers (.view view) (.reply reply) :=
  fun _ ↦ congrArg (·.map Answer.reply) (hview _)

section Node

variable {id : NodeId} {node : Node ε} (hnode : session.forest.node? id = some node)
include hnode

theorem answers_child? (name : String) : session.Answers (.view (.child? id name))
    (.reply (.id? (session.forest.childNamed name id))) := by
  apply answers_view
  intro memo
  simp only [View.answer, Forest.child?_eq_ok (Forest.lt_of_node?_eq hnode)]
  rfl

theorem answers_childMap :
    session.Answers (.view (.childMap id)) (.reply (.children node.children)) := by
  apply answers_view
  intro memo
  simp only [View.answer, Forest.node_eq_ok hnode]
  rfl

theorem answers_payload : session.Answers (.view (.payload id)) (.reply (.payload node.payload)) := by
  apply answers_view
  intro memo
  simp only [View.answer, Forest.node_eq_ok hnode]
  rfl

end Node

namespace Valid

section Line

variable (h : session.Valid) {id : NodeId} {line : List NodeId} (hid : id < session.forest.size)
  (hline : Trail session.baseOf [id] id line)
include h hid hline

theorem answers_visibleChild (name : String) :
    session.Answers (.ask (.query (.visibleChild id name)))
      (.reply (.id? ((id :: line).findSome? (session.forest.childNamed name)))) := by
  apply h.answers_query
  exact (h.keeps_visibleChild hid hline name).bind (returns_pure _)

theorem exists_answers_visibleChildren : ∃ children : NameMap NodeId,
    session.Answers (.ask (.query (.visibleChildren id))) (.reply (.children children)) ∧
      ∀ name, children.find? name = (id :: line).findSome? (session.forest.childNamed name) := by
  obtain ⟨children, hchildren, hfind⟩ := h.exists_keeps_visibleChildren hid hline
  refine ⟨children, ?_, hfind⟩
  apply h.answers_query
  exact hchildren.bind (returns_pure _)

theorem answers_inheritance :
    session.Answers (.ask (.query (.inheritance id))) (.reply (.ids line.reverse)) := by
  apply h.answers_query
  exact (h.keeps_inheritance hid hline).bind (returns_pure _)

theorem inheritsAfter_iff_mem (reads : List (Read ε)) (ancestor : NodeId) :
    session.InheritsAfter reads id ancestor ↔ ancestor ∈ line := by
  unfold InheritsAfter
  rw [h.answerAfter_inheritsFrom hid hline reads ancestor]
  simp

end Line

theorem answers_declarations {session : Session Style} (h : session.Valid) {id : NodeId}
    {line : List NodeId} (hid : id < session.forest.size) (hline : Trail session.baseOf [id] id line) :
    session.Answers (.ask (.declarations id))
      (.declarations ((id :: line).reverse.flatMap (Style.declarationsOf session.forest))) := by
  intro reads
  have hread : Keeps session.Settled ((Question.declarations id).answer session.forest)
      (.ok (.declarations _)) := (Style.keeps_visibleDeclarations h hid hline).bind (returns_pure _)
  exact hread.run_eq (h.consistent_afterReads reads).settled

/-! ## Unfolding -/

section Base

variable (h : session.Valid) {id base : NodeId} (hbase : session.HasBase id base)
include h hbase

theorem exists_trails : ∃ line tail, id < session.forest.size ∧ base < session.forest.size ∧
    session.baseOf id = some base ∧ Trail session.baseOf [id] id line ∧
    Trail session.baseOf [base] base tail := by
  have hnext := (h.hasBase_iff id base).mp hbase
  have hid : id < session.forest.size := by
    by_contra hnot
    exact nomatch hnext.symm.trans (h.baseOf_of_not_lt hnot)
  obtain ⟨line, hline⟩ := h.exists_trail hid
  obtain ⟨tail, htail⟩ := h.exists_trail (h.baseOf_lt hnext)
  exact ⟨line, tail, hid, h.baseOf_lt hnext, hnext, hline, htail⟩

theorem unfolds : session.Unfolds id base := by
  obtain ⟨line, tail, hid, hlt, hnext, hline, htail⟩ := h.exists_trails hbase
  obtain ⟨node, hnode⟩ := Forest.exists_node?_of_lt hid
  have hunfold := fun name ↦
    hline.findSome?_cons_eq_or hnext htail (session.forest.childNamed name)
  refine ⟨fun name ↦ ?_, ?_, fun hne reads hnot ↦ ?_, fun reads hinherits ↦ ?_⟩
  · refine ⟨_, _, answers_child? hnode name, h.answers_visibleChild hlt htail name, ?_⟩
    exact hunfold name ▸ h.answers_visibleChild hid hline name
  · obtain ⟨children, hchildren, hfind⟩ := h.exists_answers_visibleChildren hid hline
    obtain ⟨inherited, hinherited, hfind'⟩ := h.exists_answers_visibleChildren hlt htail
    refine ⟨_, inherited, answers_childMap hnode, hinherited, ?_⟩
    have hchildrenEq : children = inherited.overwrite node.children := by
      apply NameMap.ext
      intro name
      rw [hfind, hunfold, NameMap.find?_overwrite, hfind', Forest.childNamed_eq hnode]
    exact hchildrenEq ▸ hchildren
  · rw [h.inheritsAfter_iff_mem hlt htail] at hnot
    obtain ⟨rest, rfl, ⟨-, rfl⟩ | ⟨hmem, -⟩⟩ := hline.exists_eq_cons hnext htail hne
    · refine ⟨tail.reverse, h.answers_inheritance hlt htail, ?_⟩
      exact List.reverse_cons ▸ h.answers_inheritance hid hline
    · exact absurd hmem hnot
  · rw [h.inheritsAfter_iff_mem hlt htail] at hinherits
    have hne : base ≠ id := fun heq ↦ htail.not_mem_seen hinherits (List.mem_singleton.mpr heq.symm)
    obtain ⟨rest, rfl, ⟨hnot, -⟩ | ⟨-, rfl⟩⟩ := hline.exists_eq_cons hnext htail hne
    · exact absurd hinherits hnot
    · refine ⟨rest.reverse, List.reverse_cons ▸ h.answers_inheritance hid hline, ?_⟩
      exact List.reverse_concat ▸ h.answers_inheritance hlt htail

end Base

/-- What is declared at a node comes after all that is visible at its base. -/
theorem declarations_unfold {session : Session Style} (h : session.Valid) {id base : NodeId}
    (hbase : session.HasBase id base) (hne : base ≠ id) {reads : List (Read Style)}
    (hnot : ¬ session.InheritsAfter reads base id) : ∃ own inherited,
      session.Answers (.view (.payload id)) (.reply (.payload own)) ∧
      session.Answers (.ask (.declarations base)) (.declarations inherited) ∧
      session.Answers (.ask (.declarations id)) (.declarations (inherited ++ own.declarations)) := by
  obtain ⟨line, tail, hid, hlt, hnext, hline, htail⟩ := h.exists_trails hbase
  obtain ⟨node, hnode⟩ := Forest.exists_node?_of_lt hid
  rw [h.inheritsAfter_iff_mem hlt htail] at hnot
  obtain ⟨rest, rfl, ⟨-, rfl⟩ | ⟨hmem, -⟩⟩ := hline.exists_eq_cons hnext htail hne
  · refine ⟨node.payload, _, answers_payload hnode, h.answers_declarations hlt htail, ?_⟩
    have hown : Style.declarationsOf session.forest id = node.payload.declarations := by
      simp [Style.declarationsOf, hnode]
    have hall := h.answers_declarations hid hline
    rwa [List.reverse_cons, List.flatMap_append, List.flatMap_singleton, hown] at hall
  · exact absurd hmem hnot

end Valid

/-- What a node inherits is what its base shows, whatever is read before.  The declarations are those of a
style session. -/
theorem inheritance_unfolds :
    (∀ {ε : Type} {session : Session ε}, session.Valid →
      ∀ {id base}, session.HasBase id base → session.Unfolds id base) ∧
    ∀ {session : Session Style}, session.Valid → ∀ {id base}, session.HasBase id base → base ≠ id →
      ∀ {reads}, ¬ session.InheritsAfter reads base id → ∃ own inherited,
        session.Answers (.view (.payload id)) (.reply (.payload own)) ∧
        session.Answers (.ask (.declarations base)) (.declarations inherited) ∧
        session.Answers (.ask (.declarations id)) (.declarations (inherited ++ own.declarations)) := by
  constructor
  · intro ε session h id base hbase
    exact h.unfolds hbase
  · intro session h id base hbase hne reads hnot
    exact h.declarations_unfold hbase hne hnot

/-- Two blocks that extend one another, and a third that extends the first of them. -/
def knot : Session Style :=
  let building : Action Style Unit := do
    let card ← Style.addBlock "card"
    let note ← Style.addBlock "note"
    let alert ← Style.addBlock "alert"
    Style.declare card "color: black"
    Style.declare note "margin: 0"
    Style.declare alert "color: red"
    Action.extend card note
    Action.extend note card
    Action.extend alert card
  (building.run (Session.empty Style true)).2

/-- The alert lies outside the cycle of its base, and the card lies on it. -/
theorem knot_inheritance_unfolds :
    knot.Valid ∧ knot.HasBase 2 0 ∧ ¬ knot.InheritsAfter [] 0 2 ∧ knot.Unfolds 2 0 ∧
      knot.HasBase 0 1 ∧ knot.InheritsAfter [] 1 0 ∧ knot.Unfolds 0 1 ∧ ∃ own inherited,
        knot.Answers (.view (.payload 2)) (.reply (.payload own)) ∧
        knot.Answers (.ask (.declarations 0)) (.declarations inherited) ∧
        knot.Answers (.ask (.declarations 2)) (.declarations (inherited ++ own.declarations)) := by
  have hvalid : knot.Valid := by decide
  have halert : knot.HasBase 2 0 := rfl
  have hcard : knot.HasBase 0 1 := rfl
  have hnot : ¬ knot.InheritsAfter [] 0 2 := by
    have hanswer : knot.answerAfter [] (.ask (.query (.inheritsFrom 0 2))) = .ok (.reply (.flag false)) := rfl
    simp [InheritsAfter, hanswer]
  refine ⟨hvalid, halert, hnot, ?_, hcard, rfl, ?_, ?_⟩
  · exact inheritance_unfolds.1 hvalid halert
  · exact inheritance_unfolds.1 hvalid hcard
  · exact inheritance_unfolds.2 hvalid halert (by decide) hnot

end Session

end Lineage
