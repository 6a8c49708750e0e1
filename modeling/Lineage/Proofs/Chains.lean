import Lineage.Proofs.FullWalks
import Lineage.Proofs.Reading

/-!
# Chains enumerate what is inherited from

The chain of a node lists the nodes to which following bases leads from it, the node itself apart: each
of them once, in the order of following, and up to where that ends or comes back (`chain_enumerates`).
So a node inherits from what its bases lead to, and inheriting is transitive, except that a node on a
cycle does not inherit from itself.

A walk that has come to its end stays there, whatever else is read, and asking it again reads no base
(`Reading.ended_step`, `Reading.step_advance_of_ended`).
-/

namespace Lineage

open Lookup Relation

variable {ε : Type}

/-! ## Walks that have ended -/

/-- A walk that gives no node has ended. -/
theorem Walk.position_of_run_next {forest : Forest ε} {readBase : NodeId → Lookup (Option NodeId)}
    {walk after : Walk} {memo memo' : Memo}
    (hrun : (walk.next forest readBase).run memo = (.ok (none, after), memo')) :
    after.position = .ended := by
  obtain ⟨position, seen⟩ := walk
  cases position with
  | before first => exact nomatch hrun
  | ended =>
    obtain rfl : ⟨.ended, seen⟩ = after := by injections
    rfl
  | standing node =>
    obtain ⟨base, between, _, hrest⟩ := exists_of_run_bind_eq_ok hrun
    cases base with
    | none =>
      obtain rfl : ⟨.ended, seen⟩ = after := by injections
      rfl
    | some base =>
      dsimp only at hrest
      split at hrest
      next hmem =>
        obtain ⟨_, _, _, hended⟩ := exists_of_run_bind_eq_ok hrest
        obtain rfl : ⟨.ended, seen⟩ = after := by injections
        rfl
      next hnot => exact nomatch hrest

namespace Reading

/-- The walk opened as number `index` has come to its end. -/
def Ended (reading : Reading) (index : Nat) : Prop :=
  ∃ cursor, reading.cursors[index]? = some cursor ∧ cursor.walk.position = .ended

variable {forest : Forest ε} {reading : Reading} {index : Nat}

theorem ended_of_step {cursor : Cursor} (hcursor : reading.cursors[index]? = some cursor)
    (hnone : (reading.step forest (.advance index)).1 = .ok (.item none)) :
    (reading.step forest (.advance index)).2.Ended index := by
  have hindex : index < reading.cursors.length := (List.getElem?_eq_some_iff.mp hcursor).1
  rcases hrun : (cursor.walk.next forest forest.base).run reading.memo with ⟨_ | ⟨item, walk⟩, memo⟩
  · rw [step_advance_some hcursor hrun] at hnone
    exact nomatch hnone
  · rw [step_advance_some hcursor hrun] at hnone ⊢
    obtain rfl : item = none := by
      simpa [Except.map] using hnone
    exact ⟨_, List.getElem?_set_self hindex, Walk.position_of_run_next hrun⟩

/-- Asking a walk that has ended gives nothing and reads no base. -/
theorem step_advance_of_ended (forest : Forest ε) (h : reading.Ended index) : ∃ after,
    reading.step forest (.advance index) = (.ok (.item none), after) ∧ after.memo = reading.memo ∧
      after.Ended index := by
  obtain ⟨cursor, hcursor, hended⟩ := h
  have hindex : index < reading.cursors.length := (List.getElem?_eq_some_iff.mp hcursor).1
  have hrun : (cursor.walk.next forest forest.base).run reading.memo =
      (.ok (none, cursor.walk), reading.memo) := by
    unfold Walk.next
    rw [hended]
    rfl
  exact ⟨_, step_advance_some hcursor hrun, rfl, _, List.getElem?_set_self hindex, hended⟩

theorem ended_step (h : reading.Ended index) (read : Read ε) :
    (reading.step forest read).2.Ended index := by
  obtain ⟨cursor, hcursor, hended⟩ := h
  have hindex : index < reading.cursors.length := (List.getElem?_eq_some_iff.mp hcursor).1
  cases read with
  | ask question => exact ⟨cursor, hcursor, hended⟩
  | view view => exact ⟨cursor, hcursor, hended⟩
  | openWalk origin =>
    rcases hrun : (forest.baseWalk origin).run reading.memo with ⟨_ | walk, memo⟩
    · rw [step_openWalk_error hrun]
      exact ⟨cursor, hcursor, hended⟩
    · rw [step_openWalk_ok hrun]
      exact ⟨cursor, (List.getElem?_append_left hindex).trans hcursor, hended⟩
  | advance other =>
    by_cases heq : other = index
    · obtain ⟨after, hstep, _, hafter⟩ := step_advance_of_ended forest ⟨cursor, hcursor, hended⟩
      rw [heq, hstep]
      exact hafter
    · cases hother : reading.cursors[other]? with
      | none =>
        rw [step_advance_none hother]
        exact ⟨cursor, hcursor, hended⟩
      | some walked =>
        rw [step_advance_some hother rfl]
        exact ⟨cursor, (List.getElem?_set_ne heq).trans hcursor, hended⟩

end Reading

namespace Session

variable {session : Session ε}

theorem ended_afterReads {reads : List (Read ε)} {index : Nat}
    (h : (session.afterReads reads).Ended index) (more : List (Read ε)) :
    (session.afterReads (reads ++ more)).Ended index := by
  unfold afterReads at h ⊢
  rw [List.foldl_append]
  generalize List.foldl _ _ reads = reading at h
  induction more generalizing reading with
  | nil => exact h
  | cons read more ih => exact ih _ (Reading.ended_step h read)

/-- Once a walk has given no node it gives none for ever, and asking it reads no base. -/
theorem ended_for_ever {reads : List (Read ε)} {index : Nat} {cursor : Cursor}
    (hcursor : (session.afterReads reads).cursors[index]? = some cursor)
    (hnone : session.answerAfter reads (.advance index) = .ok (.item none)) (more : List (Read ε)) :
    ∃ after, (session.afterReads (reads ++ .advance index :: more)).step session.forest (.advance index) =
        (.ok (.item none), after) ∧
      after.memo = (session.afterReads (reads ++ .advance index :: more)).memo := by
  -- The walk has ended where it gave no node, and later reads leave it so.
  have hended : (session.afterReads (reads ++ [.advance index])).Ended index := by
    unfold afterReads
    rw [List.foldl_append]
    exact Reading.ended_of_step hcursor hnone
  have hmore := ended_afterReads hended more
  rw [List.append_assoc] at hmore
  obtain ⟨after, hstep, hmemo, _⟩ := Reading.step_advance_of_ended session.forest hmore
  exact ⟨after, hstep, hmemo⟩

/-! ## What a chain lists -/

/-- What a reader is told when it asks whether a node inherits from another, after some reads. -/
def InheritsAfter (session : Session ε) (reads : List (Read ε)) (id ancestor : NodeId) : Prop :=
  session.answerAfter reads (.ask (.query (.inheritsFrom id ancestor))) = .ok (.reply (.flag true))

/-- The chain of a node lists the nodes to which following bases leads from it, and these are the nodes
that it inherits from. -/
structure Enumerates (session : Session ε) (id : NodeId) (bases : List NodeId) : Prop where
  nodup : (id :: bases).Nodup
  length_lt : bases.length < session.forest.size
  isChain : (id :: bases).IsChain session.HasBase
  /-- The last node, or `id` where the chain is empty, has no base or one that was met before. -/
  closes : ∃ base, ((session.forest.base (bases.getLastD id)).run session.memo).1 = .ok base ∧
    ∀ again ∈ base, again ∈ id :: bases
  /-- The full walk resolves the bases of the nodes that it meets. -/
  chain : ∃ after, (session.forest.chain id).run session.memo = (.ok bases, after) ∧
    ∀ met ∈ id :: bases, ∃ base, ((session.forest.base met).run session.memo).1 = .ok base ∧
      after.slot met = .resolved base
  opened : ∀ reads, session.answerAfter reads (.openWalk id) = .ok .opened
  item : ∀ reads index cursor, (session.afterReads reads).cursors[index]? = some cursor →
    cursor.origin = id →
    session.answerAfter reads (.advance index) = .ok (.item bases[cursor.advances]?)
  inheritsFrom : ∀ reads ancestor, ∃ flag,
    session.answerAfter reads (.ask (.query (.inheritsFrom id ancestor))) = .ok (.reply (.flag flag)) ∧
      (flag = true ↔ ancestor ≠ id ∧ TransGen session.HasBase id ancestor)

namespace Valid

variable (h : session.Valid) {id : NodeId} {line : List NodeId}
include h

theorem answerAfter_inheritsFrom (hid : id < session.forest.size)
    (hline : Trail session.baseOf [id] id line) (reads : List (Read ε)) (ancestor : NodeId) :
    session.answerAfter reads (.ask (.query (.inheritsFrom id ancestor))) =
      .ok (.reply (.flag (decide (ancestor ∈ line)))) := by
  have hquery : Keeps session.Settled ((Query.inheritsFrom id ancestor).answer session.forest)
      (.ok (.flag _)) := (h.keeps_inheritsFrom hid hline ancestor).bind (returns_pure _)
  exact h.answerAfter_query hquery reads

theorem answerAfter_openWalk (hid : id < session.forest.size) (reads : List (Read ε)) :
    session.answerAfter reads (.openWalk id) = .ok .opened := by
  obtain ⟨line, hline⟩ := h.exists_trail hid
  obtain ⟨walk, hwalk, _⟩ := h.keeps_baseWalk hid hline
  unfold answerAfter
  rw [Reading.step_openWalk_fst, hwalk.run_eq (h.consistent_afterReads reads).settled]
  rfl

/-- A chain fills the slots of the nodes that it meets. -/
theorem exists_run_chain (hid : id < session.forest.size) (hline : Trail session.baseOf [id] id line) :
    ∃ after, (session.forest.chain id).run session.memo = (.ok line, after) ∧
      ∀ met ∈ id :: line, after.slot met = .resolved (session.baseOf met) := by
  obtain ⟨after, hchain, hends⟩ := h.run_chain hid hline h.reflects
  refine ⟨after, hchain, fun met hmet ↦ ?_⟩
  rw [Memo.slot_eq_of_slots_eq hends.slots_eq]
  exact h.slot_afterBases h.reflects (h.cons_trail_lt hid hline) hmet

theorem enumerates (hid : id < session.forest.size) (hline : Trail session.baseOf [id] id line) :
    session.Enumerates id line where
  nodup := hline.nodup_cons
  length_lt := by
    have hlength := hline.length_add_length_le h.baseOf_lt (List.nodup_singleton id) (by simpa)
    rw [List.length_singleton] at hlength
    omega
  isChain := h.hasBase_eq ▸ hline.isChain
  closes := by
    have hlast := h.cons_trail_lt hid hline _ List.getLastD_mem_cons
    refine ⟨_, (h.keeps_base _ hlast).run_eq h.reflects, fun again hagain ↦ ?_⟩
    exact hline.mem_cons_of_next_getLastD hagain
  chain := by
    obtain ⟨after, hchain, hslots⟩ := h.exists_run_chain hid hline
    refine ⟨after, hchain, fun met hmet ↦ ⟨session.baseOf met, ?_, hslots met hmet⟩⟩
    exact (h.keeps_base met (h.cons_trail_lt hid hline met hmet)).run_eq h.reflects
  opened := h.answerAfter_openWalk hid
  item reads index cursor hcursor horigin :=
    h.advance_answer (h.consistent_afterReads reads) hcursor (horigin ▸ hline)
  inheritsFrom reads ancestor := by
    refine ⟨_, h.answerAfter_inheritsFrom hid hline reads ancestor, ?_⟩
    rw [decide_eq_true_iff, h.hasBase_eq]
    exact hline.mem_iff_transGen ancestor

theorem inheritsAfter_iff (hid : id < session.forest.size) (reads : List (Read ε)) (ancestor : NodeId) :
    session.InheritsAfter reads id ancestor ↔ ancestor ≠ id ∧ TransGen session.HasBase id ancestor := by
  obtain ⟨line, hline⟩ := h.exists_trail hid
  obtain ⟨flag, hanswer, hflag⟩ := (h.enumerates hid hline).inheritsFrom reads ancestor
  unfold InheritsAfter
  rw [hanswer]
  simpa using hflag

/-- Each chain lists what following bases leads to, up to where that ends or comes back.  A walk that
has given no node has ended for ever.  Inheriting is transitive but for a node that would come back to
itself. -/
theorem chain_enumerates (hid : id < session.forest.size) :
    (∃ line, session.Enumerates id line) ∧
    (∀ reads index cursor, (session.afterReads reads).cursors[index]? = some cursor →
      session.answerAfter reads (.advance index) = .ok (.item none) →
      ∀ more, ∃ after,
        (session.afterReads (reads ++ .advance index :: more)).step session.forest (.advance index) =
          (.ok (.item none), after) ∧
        after.memo = (session.afterReads (reads ++ .advance index :: more)).memo) ∧
    ∀ reads reads' reads'' between ancestor, session.InheritsAfter reads id between →
      session.InheritsAfter reads' between ancestor → ancestor ≠ id →
      session.InheritsAfter reads'' id ancestor := by
  obtain ⟨line, hline⟩ := h.exists_trail hid
  refine ⟨⟨line, h.enumerates hid hline⟩, fun _ _ _ hcursor hnone ↦ ended_for_ever hcursor hnone, ?_⟩
  intro reads reads' reads'' between ancestor hbetween hancestor hne
  have hbetween := (h.inheritsAfter_iff hid reads between).mp hbetween
  have hlt : between < session.forest.size := by
    obtain ⟨near, _, hstep⟩ := TransGen.tail'_iff.mp hbetween.2
    exact h.baseOf_lt ((h.hasBase_iff near between).mp hstep)
  have hancestor := (h.inheritsAfter_iff hlt reads' ancestor).mp hancestor
  exact (h.inheritsAfter_iff hid reads'' ancestor).mpr ⟨hne, hbetween.2.trans hancestor.2⟩

omit h in
/-- The two nodes of the ring inherit from each other, and the tail from both. -/
theorem lasso_chain_enumerates :
    lasso.Valid ∧ 0 < lasso.forest.size ∧ lasso.Enumerates 0 [1, 2] ∧
      (lasso.afterReads [.openWalk 0, .advance 0, .advance 0]).cursors.map (·.advances) = [2] ∧
      lasso.answerAfter [.openWalk 0, .advance 0, .advance 0] (.advance 0) = .ok (.item none) ∧
      lasso.InheritsAfter [] 0 1 ∧ lasso.InheritsAfter [] 1 2 ∧ lasso.InheritsAfter [] 0 2 := by
  have hvalid : lasso.Valid := by decide
  have hsize : 0 < lasso.forest.size := by decide
  obtain ⟨⟨line, hline⟩, _, htrans⟩ := chain_enumerates hvalid hsize
  have hone : lasso.InheritsAfter [] 0 1 := rfl
  have htwo : lasso.InheritsAfter [] 1 2 := rfl
  obtain ⟨_, hchain, _⟩ := hline.chain
  obtain rfl : line = [1, 2] := by
    have hrun : ((lasso.forest.chain 0).run lasso.memo).1 = .ok [1, 2] := rfl
    rw [hchain] at hrun
    exact Except.ok.inj hrun
  exact ⟨hvalid, hsize, hline, rfl, rfl, hone, htwo, htrans [] [] [] 1 2 hone htwo (by decide)⟩

end Valid

end Session

end Lineage
