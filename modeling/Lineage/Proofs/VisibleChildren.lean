import Lineage.Proofs.Reading

/-!
# Children, all at once and by name

A node shows the children of its bases beside its own.  Listing them all goes through the bases from
the farthest to the node itself, each laying its children over those of the farther ones.  Asking for
one name goes the other way and stops at the first child found.

Both come to the same (`visibleChildren_agree`): laying a nearer map over a farther one is what makes
the nearer one win.  The keys need not be the names of the children, and a child may be registered at
several nodes.
-/

namespace Lineage

open Lookup

namespace Session

variable {ε : Type} {session : Session ε}

namespace Valid

variable (h : session.Valid) {id : NodeId} (hid : id < session.forest.size)
include h hid

theorem exists_answerAfter_visibleChildren : ∃ children : NameMap NodeId,
    (∀ reads, session.answerAfter reads (.ask (.query (.visibleChildren id))) =
      .ok (.reply (.children children))) ∧
    ∀ reads name, session.answerAfter reads (.ask (.query (.visibleChild id name))) =
      .ok (.reply (.id? (children.find? name))) := by
  obtain ⟨line, hline⟩ := h.exists_trail hid
  obtain ⟨children, hchildren, hfind⟩ := h.exists_keeps_visibleChildren hid hline
  refine ⟨children, fun reads ↦ ?_, fun reads name ↦ ?_⟩
  · have hquery : Keeps session.Settled ((Query.visibleChildren id).answer session.forest)
        (.ok (.children children)) := hchildren.bind (returns_pure _)
    exact h.answerAfter_query hquery reads
  · have hquery : Keeps session.Settled ((Query.visibleChild id name).answer session.forest)
        (.ok (.id? (children.find? name))) :=
      hfind name ▸ (h.keeps_visibleChild hid hline name).bind (returns_pure _)
    exact h.answerAfter_query hquery reads

/-- A name is listed with a child just where asking for that name comes to this child, in whichever
order the two are asked and whatever else is read. -/
theorem visibleChildren_agree : ∃ children : NameMap NodeId,
    (∀ reads, session.answerAfter reads (.ask (.query (.visibleChildren id))) =
      .ok (.reply (.children children))) ∧
    children.names.Pairwise (· < ·) ∧
    ∀ reads name, ∃ found, session.answerAfter reads (.ask (.query (.visibleChild id name))) =
        .ok (.reply (.id? found)) ∧
      ∀ child, (name, child) ∈ children.toList ↔ found = some child := by
  obtain ⟨children, hbulk, hsingle⟩ := h.exists_answerAfter_visibleChildren hid
  refine ⟨children, hbulk, children.names_pairwise_lt, fun reads name ↦ ?_⟩
  refine ⟨children.find? name, hsingle reads name, fun child ↦ ?_⟩
  exact (children.find?_eq_some_iff name child).symm

end Valid

/-- Two roots with each other as bases.  They have a child in common, which neither calls by its name, and
the second has itself as a child. -/
def carousel : Session Unit :=
  [.addRoot "left" (), .addRoot "right" (), .insert "seat" () (some 0) (some 0), .register 0 "horse" 2,
    .register 1 "swan" 2, .register 1 "horse" 1, .extend 0 1, .extend 1 0].foldl
    (fun session (edit : Edit Unit) ↦ (session.step edit.perform).2) (Session.empty Unit true)

/-- The first root has a horse of its own, and the swan of its base. -/
theorem carousel_visibleChildren_agree :
    carousel.Valid ∧ 0 < carousel.forest.size ∧
      carousel.answerAfter [.openWalk 1] (.ask (.query (.visibleChild 0 "horse"))) =
        .ok (.reply (.id? (some 2))) ∧
      ∃ children : NameMap NodeId, children.toList = [("horse", 2), ("swan", 2)] ∧
        (∀ reads, carousel.answerAfter reads (.ask (.query (.visibleChildren 0))) =
          .ok (.reply (.children children))) ∧
        children.names.Pairwise (· < ·) ∧
        ∀ reads name, ∃ found,
          carousel.answerAfter reads (.ask (.query (.visibleChild 0 name))) = .ok (.reply (.id? found)) ∧
          ∀ child, (name, child) ∈ children.toList ↔ found = some child := by
  have hvalid : carousel.Valid := by decide
  have hsize : 0 < carousel.forest.size := by decide
  obtain ⟨children, hbulk, hagree⟩ := Valid.visibleChildren_agree hvalid hsize
  have hrun : ∃ listed : NameMap NodeId, listed.toList = [("horse", 2), ("swan", 2)] ∧
      carousel.answerAfter [] (.ask (.query (.visibleChildren 0))) = .ok (.reply (.children listed)) :=
    ⟨_, rfl, rfl⟩
  obtain ⟨listed, hlisted, hanswer⟩ := hrun
  obtain rfl : children = listed := by
    rw [hbulk [], Except.ok.injEq, Answer.reply.injEq, Reply.children.injEq] at hanswer
    exact hanswer
  exact ⟨hvalid, hsize, rfl, children, hlisted, hbulk, hagree⟩

end Session

end Lineage
