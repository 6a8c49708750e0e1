import Lineage.Proofs.Meaning
import Lineage.Proofs.Walk

/-!
# Reading a base

Reading the base of a node comes to the base that is derived for it, and fills no slot with anything
else.  `Reflects pending memo` says what memos there are between reads of `pending`: a slot holds what
it held before all reads, or the base that is derived for its node, or the mark of a read under way.

A read that comes back to a node of `pending` answers that it has no base.  That is right, because
every node of `pending` asks for the base now read (`baseOf_eq_none_of_transGen`), so what is filled
in meanwhile is right for good.
-/

namespace Lineage.Session

open Lookup

variable {ε : Type} {session : Session ε}

/-- What a memo holds after reads of the session, while those of `pending` are under way. -/
structure Reflects (session : Session ε) (pending : List NodeId) (memo : Memo) : Prop where
  slots_size : memo.slots.size = session.forest.size
  slot_pending : ∀ id ∈ pending, memo.slot id = .resolving
  slot_other : ∀ id, id ∉ pending → memo.slot id = session.memo.slot id ∨
    session.memo.slot id = .unresolved ∧ memo.slot id = .resolved (session.baseOf id)

/-- What a memo holds right after the base of `id` was read. -/
structure ReflectsRead (session : Session ε) (pending : List NodeId) (id : NodeId) (memo : Memo) :
    Prop extends session.Reflects pending memo where
  slot_read : id ∉ pending → memo.slot id = .resolved (session.baseOf id)

theorem Valid.reflects (h : session.Valid) : session.Reflects [] session.memo where
  slots_size := h.slots_size
  slot_pending := by simp
  slot_other _ _ := .inl rfl

namespace Reflects

variable {pending : List NodeId} {memo : Memo} {id : NodeId}

theorem write (h : session.Reflects pending memo) (event : Event) :
    session.Reflects pending (memo.write event) :=
  ⟨h.slots_size, h.slot_pending, h.slot_other⟩

theorem restart (h : session.Reflects pending memo) : session.Reflects pending memo.restart :=
  ⟨h.slots_size, h.slot_pending, h.slot_other⟩

theorem slot_fill_self (h : session.Reflects pending memo) (hid : id < session.forest.size)
    (state : Slot) : (memo.fill id state).slot id = state :=
  Memo.slot_fill_self (h.slots_size ▸ hid) state

theorem size_fill (h : session.Reflects pending memo) (state : Slot) :
    (memo.fill id state).slots.size = session.forest.size :=
  (Memo.size_fill ..).trans h.slots_size

theorem begin (h : session.Reflects pending memo) (hid : id < session.forest.size) :
    session.Reflects (id :: pending) (memo.fill id .resolving) where
  slots_size := h.size_fill .resolving
  slot_pending other hother := by
    by_cases heq : other = id
    · rw [heq]
      exact h.slot_fill_self hid .resolving
    · rw [Memo.slot_fill_of_ne heq]
      exact h.slot_pending other ((List.mem_cons.mp hother).resolve_left heq)
  slot_other other hother := by
    obtain ⟨hne, hother⟩ := not_or.mp (List.mem_cons.not.mp hother)
    rw [Memo.slot_fill_of_ne hne]
    exact h.slot_other other hother

/-- A slot that was open before all reads may be filled with the base of its node. -/
theorem finish {pending' : List NodeId} (h : session.Reflects pending' memo)
    (hpending : ∀ other, other ≠ id → (other ∈ pending' ↔ other ∈ pending)) (hnot : id ∉ pending)
    (hid : id < session.forest.size) (hslot : session.memo.slot id = .unresolved) :
    session.Reflects pending (memo.fill id (.resolved (session.baseOf id))) where
  slots_size := h.size_fill _
  slot_pending other hother := by
    have hne : other ≠ id := fun heq ↦ hnot (heq ▸ hother)
    rw [Memo.slot_fill_of_ne hne]
    exact h.slot_pending other ((hpending other hne).mpr hother)
  slot_other other hother := by
    by_cases heq : other = id
    · rw [heq, h.slot_fill_self hid]
      exact .inr ⟨hslot, rfl⟩
    · rw [Memo.slot_fill_of_ne heq]
      exact h.slot_other other fun hmem ↦ hother ((hpending other heq).mp hmem)

theorem eq_baseOf_of_resolved (h : session.Reflects pending memo) {base : Option NodeId}
    (hslot : memo.slot id = .resolved base) : session.baseOf id = base := by
  have hnot : id ∉ pending := fun hmem ↦ by simp [h.slot_pending id hmem] at hslot
  rcases h.slot_other id hnot with hsame | ⟨_, hfilled⟩
  · exact baseOf_of_resolved (hsame.symm.trans hslot)
  · simpa [hfilled] using hslot

theorem mem_pending_of_resolving (h : session.Reflects pending memo) (hvalid : session.Valid)
    (hslot : memo.slot id = .resolving) : id ∈ pending := by
  by_contra hnot
  rcases h.slot_other id hnot with hsame | ⟨_, hfilled⟩
  · exact hvalid.settled id (hsame.symm.trans hslot)
  · simp [hfilled] at hslot

theorem unresolved_before (h : session.Reflects pending memo)
    (hslot : memo.slot id = .unresolved) :
    id ∉ pending ∧ session.memo.slot id = .unresolved := by
  have hnot : id ∉ pending := fun hmem ↦ by simp [h.slot_pending id hmem] at hslot
  rcases h.slot_other id hnot with hsame | ⟨_, hfilled⟩
  · exact ⟨hnot, hsame.symm.trans hslot⟩
  · simp [hfilled] at hslot

end Reflects

theorem Valid.asks_lt (h : session.Valid) {id other : NodeId} (hid : id < session.forest.size)
    (hasks : session.Asks id other) : other < session.forest.size := by
  obtain ⟨_, parent, hparent, hreach⟩ := hasks
  cases hreach with
  | refl => exact Nat.lt_trans (h.closed.parent_lt hparent) hid
  | tail _ hstep => exact h.baseOf_lt hstep.1

/-- The walk that seeks the base of an open node with a parent, where reading finds the bases it asks
for. -/
theorem Valid.search_returns (h : session.Valid) {id parent : NodeId} {node : Node ε}
    {kept : Memo → Prop} {readBase : NodeId → Lookup (Option NodeId)}
    (hnode : session.forest.node? id = some node) (hslot : session.memo.slot id = .unresolved)
    (hparent : node.parent = some parent)
    (hwrite : ∀ memo event, kept memo → kept (memo.write event))
    (hread : ∀ other, session.Asks id other → Keeps kept (readBase other) (.ok (session.baseOf other))) :
    ∃ walk, Keeps kept (Walk.start session.forest parent (session.baseOf parent)) (.ok walk) ∧
      Keeps kept (walk.findSome? session.forest readBase
        (fun candidate ↦ session.forest.namesake? id node.name candidate) session.forest.walkLimit)
        (.ok (session.baseOf id)) := by
  have hid := Forest.lt_of_node?_eq hnode
  have hparentOf := (Forest.parentOf_eq hnode).trans hparent
  have hparentLt := Nat.lt_trans (h.closed.parent_lt hparentOf) hid
  obtain ⟨line, hline⟩ := Trail.exists_trail h.baseOf_lt hparentLt
  obtain ⟨walk, hstart, hremaining, hposition⟩ := Walk.start_returns h.closed h.baseOf_lt hwrite hline
  refine ⟨walk, hstart, ?_⟩
  rw [baseOf_eq_findSome? hslot hparentOf hline]
  have hreadAsked : ∀ other, session.Asks id other → other < session.forest.size ∧
      Keeps kept (readBase other) (.ok (session.baseOf other)) :=
    fun other hasks ↦ ⟨h.asks_lt hid hasks, hread other hasks⟩
  refine Walk.findSome?_returns h.closed h.baseOf_lt hwrite ?_ hreadAsked hremaining ?_ ?_ ?_
  · intro met hmet
    obtain ⟨_, hmet⟩ := hline.exists_next_eq hmet
    rw [← Forest.namesake?_eq_ok hnode (h.baseOf_lt hmet)]
    exact returns_liftM _
  · exact fun other hother ↦ absurd hother (hposition other)
  · intro passed other rest heq hpassed hother
    exact asks_of_passed hslot hparentOf (heq ▸ hline) hpassed hother
  · have hlength := hline.length_add_length_le h.baseOf_lt (List.nodup_singleton parent) (by simpa)
    simp only [List.length_singleton] at hlength
    unfold Forest.walkLimit
    omega

theorem Valid.keeps_report_resolved (h : session.Valid) {kept : Memo → Prop} {id : NodeId}
    (hid : id < session.forest.size) (hwrite : ∀ memo event, kept memo → kept (memo.write event)) :
    Keeps kept (report do
      let nodePath ← session.forest.path id
      return .resolved id nodePath (← (session.baseOf id).mapM (session.forest.path ·))) (.ok ()) := by
  cases hbase : session.baseOf id with
  | none =>
    simpa using Walk.keeps_report_path h.closed hwrite hid fun path ↦ .resolved id path none
  | some base =>
    simpa using Walk.keeps_report_paths h.closed hwrite hid (h.baseOf_lt hbase)
      fun path basePath ↦ .resolved id path (some basePath)

/-- The read of an open slot, where reading finds the bases that its search asks for. -/
theorem Valid.findBase_returns (h : session.Valid) {id : NodeId} {node : Node ε} {pending : List NodeId}
    {readBase : NodeId → Lookup (Option NodeId)} (hnode : session.forest.node? id = some node)
    (hslot : session.memo.slot id = .unresolved) (hnot : id ∉ pending)
    (hread : ∀ other, session.Asks id other →
      Keeps (session.Reflects (id :: pending)) (readBase other) (.ok (session.baseOf other))) :
    Returns (session.Reflects pending) (session.forest.findBase readBase id node)
      (.ok (session.baseOf id)) (session.ReflectsRead pending id) := by
  have hid := Forest.lt_of_node?_eq hnode
  unfold Forest.findBase
  cases hparent : node.parent with
  | none =>
    have hbase := baseOf_of_parentless hslot ((Forest.parentOf_eq hnode).trans hparent)
    rw [hbase]
    refine Returns.bind (returns_fill fun memo hmemo ↦ ?_) (returns_pure none)
    have hfilled := hmemo.finish (fun _ _ ↦ Iff.rfl) hnot hid hslot
    rw [hbase] at hfilled
    exact ⟨hfilled, fun _ ↦ hbase ▸ hmemo.slot_fill_self hid (.resolved none)⟩
  | some parent =>
    have hparentOf := (Forest.parentOf_eq hnode).trans hparent
    have hreadParent := hread parent ⟨hslot, parent, hparentOf, .refl⟩
    obtain ⟨walk, hstart, hsearch⟩ := h.search_returns hnode hslot hparent
      (fun memo event (hmemo : session.Reflects _ memo) ↦ hmemo.write event) hread
    refine Returns.bind (returns_fill fun memo hmemo ↦ hmemo.begin hid) ?_
    refine hreadParent.bind (hstart.bind (hsearch.bind ?_))
    have hpending : ∀ other, other ≠ id → (other ∈ id :: pending ↔ other ∈ pending) := by
      intro other hne
      rw [List.mem_cons, or_iff_right hne]
    have hfill : Returns (session.Reflects (id :: pending)) (fill id (.resolved (session.baseOf id)))
        (.ok ()) (session.ReflectsRead pending id) :=
      returns_fill fun memo hmemo ↦
        ⟨hmemo.finish hpending hnot hid hslot, fun _ ↦ hmemo.slot_fill_self hid _⟩
    refine hfill.bind ((h.keeps_report_resolved hid ?_).bind (returns_pure _))
    exact fun memo event hmemo ↦ ⟨hmemo.write event, hmemo.slot_read⟩

/-- The read of a base, at most `depth` deep below the reads of `pending`, all of which ask for that
base. -/
theorem Valid.baseWithin_returns (h : session.Valid) {depth : Nat} {id : NodeId}
    {pending : List NodeId} (hid : id < session.forest.size) (hnodup : pending.Nodup)
    (hlt : ∀ other ∈ pending, other < session.forest.size)
    (hasks : ∀ other ∈ pending, Relation.TransGen (fun other id ↦ session.Asks id other) id other)
    (hdepth : session.forest.size < depth + pending.length) :
    Returns (session.Reflects pending) (session.forest.baseWithin depth id)
      (.ok (session.baseOf id)) (session.ReflectsRead pending id) := by
  induction depth generalizing id pending with
  | zero =>
    have hlength := Trail.length_le_of_nodup_of_lt hnodup hlt
    omega
  | succ depth ih =>
    obtain ⟨node, hnode⟩ := Forest.exists_node?_of_lt hid
    rw [Forest.baseWithin, Forest.node_eq_ok hnode]
    refine (returns_liftM (.ok node)).bind (Returns.bind_slot fun state memo ⟨hmemo, hslot⟩ ↦ ?_)
    cases state with
    | resolved base =>
      have hbase := hmemo.eq_baseOf_of_resolved hslot
      exact ⟨memo, by rw [hbase]; rfl, hmemo, fun _ ↦ by rw [hslot, hbase]⟩
    | resolving =>
      -- The read came back to a node that asks for its own base.
      have hmem := hmemo.mem_pending_of_resolving h hslot
      have hreport := Walk.keeps_report_path h.closed
        (fun memo event (hmemo : session.Reflects pending memo) ↦ hmemo.write event)
        hid (Event.reentered id)
      rw [baseOf_eq_none_of_transGen (hasks id hmem)]
      refine Returns.bind hreport ?_ memo hmemo
      exact (returns_pure none).weaken fun _ hpost ↦ ⟨hpost, absurd hmem⟩
    | unresolved =>
      obtain ⟨hnot, hbefore⟩ := hmemo.unresolved_before hslot
      have hlt' : ∀ other ∈ id :: pending, other < session.forest.size :=
        List.forall_mem_cons.mpr ⟨hid, hlt⟩
      have hdepth' : session.forest.size < depth + (id :: pending).length := by
        rw [List.length_cons]
        omega
      -- What the search asks for is asked for by `id` and by all that ask for `id`.
      have hread : ∀ other, session.Asks id other → Keeps (session.Reflects (id :: pending))
          (session.forest.baseWithin depth other) (.ok (session.baseOf other)) := by
        intro other hother
        have hasks' : ∀ above ∈ id :: pending,
            Relation.TransGen (fun other id ↦ session.Asks id other) other above :=
          List.forall_mem_cons.mpr ⟨.single hother, fun above habove ↦ .head hother (hasks above habove)⟩
        have hreturns := ih (h.asks_lt hid hother) (List.nodup_cons.mpr ⟨hnot, hnodup⟩) hlt' hasks' hdepth'
        exact hreturns.weaken fun _ hpost ↦ hpost.toReflects
      exact h.findBase_returns hnode hbefore hnot hread memo hmemo

/-- Between two queries no read is under way. -/
abbrev Settled (session : Session ε) (memo : Memo) : Prop := session.Reflects [] memo

/-- Reading the base of a node comes to the base derived for it, and fills its slot with it. -/
theorem Valid.base_returns (h : session.Valid) {id : NodeId} (hid : id < session.forest.size) :
    Returns session.Settled (session.forest.base id) (.ok (session.baseOf id)) fun memo ↦
      session.Settled memo ∧ memo.slot id = .resolved (session.baseOf id) := by
  unfold Forest.base
  refine (h.baseWithin_returns hid List.nodup_nil ?_ ?_ ?_).weaken fun _ hpost ↦ ?_
  · simp
  · simp
  · exact Nat.lt_succ_self _
  · exact ⟨hpost.toReflects, hpost.slot_read List.not_mem_nil⟩

theorem Valid.keeps_base (h : session.Valid) (id : NodeId) (hid : id < session.forest.size) :
    Keeps session.Settled (session.forest.base id) (.ok (session.baseOf id)) :=
  (h.base_returns hid).weaken fun _ hpost ↦ hpost.1

/-- Where there is no node there is no base to read. -/
theorem returns_base_of_not_lt {id : NodeId} {pre : Memo → Prop} (hid : ¬ id < session.forest.size) :
    Returns pre (session.forest.base id) (.error (.outOfRange id session.forest.size)) pre := by
  unfold Forest.base Forest.baseWithin
  rw [Forest.node_eq_error hid]
  exact (returns_liftM _).bind_error _

end Lineage.Session
