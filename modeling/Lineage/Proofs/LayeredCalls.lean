import Lineage.Proofs.LayeredReads

/-!
# Calls in layers

Whatever is asked of a layered session, it stays layered: what is read fills slots with bases that are
over their nodes, and so are the bases that are set.  The walks that are open climb from base to base.

Where no root is above itself, following bases comes to no node twice (`Layered.not_revisits`), so the
strict walk never fails.

`Client.Layered` says so of a client, and `Client.Layered.step` that a call keeps it.
`Client.Layered.reads` and `Client.Layered.admitted` say what slots a read fills, and what events a call
may write.
-/

namespace Lineage

open Lookup

variable {ε α β : Type} {above : NodeId → NodeId → Prop}

namespace Session

/-! ## What reads leave -/

/-- What reads of a session may leave of its memo. -/
structure Filled (above : NodeId → NodeId → Prop) (session : Session ε) (memo : Memo) : Prop where
  settled : session.Settled memo
  fills : Memo.Fills session.forest above (fun _ ↦ True) session.memo memo

/-- How reads of a session may fail: at an id that leads nowhere, or at a cycle of bases. -/
structure Stopped (above : NodeId → NodeId → Prop) (session : Session ε) (error : Error) (memo : Memo) :
    Prop where
  filled : session.Filled above memo
  reason : error.Interrupts ∨ ∃ root, above root root

/-- A look-up that leaves of the memo what reads may leave. -/
abbrev Sustains (above : NodeId → NodeId → Prop) (session : Session ε) (look : Lookup α) (good : α → Prop) :
    Prop :=
  Lookup.Sustains (session.Filled above) (session.Stopped above) look good

variable {session : Session ε} {memo : Memo}

theorem Filled.write (h : session.Filled above memo) {event : Event} (hevent : event.Admitted above) :
    session.Filled above (memo.write event) :=
  ⟨h.settled.write event, h.fills.write hevent⟩

namespace Layered

variable (h : session.Layered above)
include h

theorem filled : session.Filled above session.memo := ⟨h.valid.reflects, .refl _⟩

theorem of_filled (hmemo : session.Filled above memo) : Layered above ⟨session.forest, memo⟩ where
  valid := h.valid.of_settled hmemo.settled
  orderly := h.orderly
  base_over _ _ hslot := hmemo.fills.base_over (fun hbefore ↦ h.base_over hbefore) hslot

/-- Between two reads, no read of any base is under way. -/
theorem ready (hmemo : session.Filled above memo) (level : Nat) :
    memo.Ready session.forest above level where
  slots_size := hmemo.settled.slots_size
  base_over _ _ hslot := hmemo.fills.base_over (fun hbefore ↦ h.base_over hbefore) hslot
  resolving _ hslot := nomatch hmemo.settled.mem_pending_of_resolving h.valid hslot

variable [IsTrans NodeId above]

/-- The read of a base fills its slot and slots that are less deep.  It fails only where there is no
node, and does nothing there. -/
theorem comesTo_base (hmemo : session.Filled above memo) (id : NodeId) :
    ComesTo memo (session.forest.base id)
      (fun base after ↦ session.Filled above after ∧
        Memo.Fills session.forest above (session.forest.Below id) memo after ∧
        ∀ found ∈ base, session.forest.Over above id found)
      (fun error after ↦ after = memo ∧ error.Interrupts) := by
  by_cases hid : id < session.forest.size
  · obtain ⟨after, hrun, hsettled⟩ := h.valid.keeps_base id hid memo hmemo.settled
    have hread : ComesTo memo (session.forest.base id) _ _ :=
      h.orderly.comesTo_baseWithin (h.ready hmemo (session.forest.depth id))
    obtain ⟨hfills, hover⟩ := hread.post_of_run hrun
    have hfilled := hmemo.fills.trans (hfills.mono fun _ _ ↦ trivial)
    exact .of_run hrun ⟨⟨hsettled, hfilled⟩, hfills, hover⟩
  · have hmissing : Returns (· = memo) (session.forest.base id) _ (· = memo) := returns_base_of_not_lt hid
    obtain ⟨_, hrun, rfl⟩ := hmissing memo rfl
    exact .of_run_error hrun ⟨rfl, trivial⟩

theorem sustains_base (id : NodeId) :
    session.Sustains above (session.forest.base id) fun base ↦
      ∀ found ∈ base, session.forest.Over above id found := by
  intro memo hmemo
  refine (h.comesTo_base hmemo id).mono (fun base after hafter ↦ ⟨hafter.1, hafter.2.2⟩) ?_
  rintro error _ ⟨rfl, herror⟩
  exact ⟨hmemo, .inl herror⟩

/-- The base of a node is over it. -/
theorem over_of_hasBase {id base : NodeId} (hbase : session.HasBase id base) :
    session.forest.Over above id base := by
  have hrun : (session.forest.base id).run session.memo = (.ok (some base), _) := Prod.ext hbase rfl
  exact ((h.comesTo_base h.filled id).post_of_run hrun).2.2 base rfl

/-- Where no root is above itself, following bases comes to no node twice. -/
theorem not_revisits (hirreflexive : ∀ root, ¬ above root root) (id : NodeId) :
    ¬ session.Revisits id := by
  rintro ⟨met, _, hcycle⟩
  have hover : ∀ other, Relation.TransGen session.HasBase met other →
      session.forest.Over above met other := by
    intro other hreach
    induction hreach with
    | single hbase => exact h.over_of_hasBase hbase
    | tail _ hbase ih => exact ih.trans (h.over_of_hasBase hbase)
  obtain ⟨root, hself⟩ := (hover met hcycle).exists_above_self
  exact hirreflexive root hself

theorem exists_keeps_line (hirreflexive : ∀ root, ¬ above root root) {id : NodeId}
    (hid : id < session.forest.size) :
    ∃ line, Keeps session.Settled (session.forest.strictInheritance id) (.ok line) := by
  obtain ⟨line, hline⟩ := h.valid.exists_trail hid
  have hends : session.baseOf (line.getLastD id) = none := by
    apply Option.eq_none_iff_forall_ne_some.mpr
    intro again hagain
    exact h.not_revisits hirreflexive id ((h.valid.revisits_iff hline).mpr ⟨again, hagain⟩)
  have hstrict := h.valid.keeps_strictInheritance hid hline
  rw [hends, Forest.strictly_none] at hstrict
  exact ⟨line.reverse, hstrict⟩

omit h [IsTrans NodeId above] in
theorem stopped (error : Error) (memo : Memo) (hmemo : session.Filled above memo)
    (herror : error.Interrupts) :
    session.Stopped above error memo :=
  ⟨hmemo, .inl herror⟩

omit h [IsTrans NodeId above] in
theorem filled_write (memo : Memo) (event : Event) (hmemo : session.Filled above memo)
    (hevent : event.Admitted above) : session.Filled above (memo.write event) :=
  hmemo.write hevent

/-! ### Queries -/

theorem sustains_baseWalk (id : NodeId) :
    session.Sustains above (session.forest.baseWalk id)
      (Walk.Climbs session.forest above id) :=
  (h.sustains_base id).bind fun _ hfirst ↦
    (sustains_start stopped filled_write hfirst).mono fun _ hwalk ↦ hwalk.1

theorem sustains_chain (id : NodeId) :
    session.Sustains above (session.forest.chain id) fun _ ↦ True :=
  (h.sustains_baseWalk id).bind fun _ hwalk ↦
    sustains_toList stopped filled_write (fun node _ ↦ h.sustains_base node) hwalk

theorem sustains_inheritance (id : NodeId) :
    session.Sustains above (session.forest.inheritance id) fun _ ↦ True :=
  (h.sustains_chain id).bind fun _ _ ↦ sustains_pure trivial

theorem sustains_search {origin : NodeId} {walk : Walk} (hwalk : walk.Climbs session.forest above origin)
    {test : NodeId → Lookup (Option β)}
    (htest : ∀ node, session.Sustains above (test node) fun _ ↦ True) :
    session.Sustains above (walk.findSome? session.forest session.forest.base test session.forest.walkLimit)
      fun _ ↦ True := by
  have hfind : session.Sustains above
      (walk.findSome? session.forest session.forest.base test session.forest.walkLimit)
      fun result ↦ ∀ found ∈ result, True :=
    sustains_findSome? stopped filled_write (fun node _ ↦ h.sustains_base node)
      (fun node _ ↦ (htest node).mono fun _ _ _ _ ↦ trivial) hwalk
  exact hfind.mono fun _ _ ↦ trivial

theorem sustains_inheritsFrom (id ancestor : NodeId) :
    session.Sustains above (session.forest.inheritsFrom id ancestor) fun _ ↦ True := by
  refine (h.sustains_baseWalk id).bind fun walk hwalk ↦ ?_
  exact (h.sustains_search hwalk fun _ ↦ sustains_pure trivial).bind fun _ _ ↦ sustains_pure trivial

omit h [IsTrans NodeId above] in
theorem sustains_read {read : Except Error α} (hread : Interruptible read) :
    session.Sustains above (liftM read : Lookup α) fun _ ↦ True :=
  sustains_liftM stopped hread fun _ _ ↦ trivial

/-- Following bases strictly comes back to a node only if some root is above itself. -/
theorem sustains_strictInheritanceWithin {limit : Nat} {node : NodeId} {met : List NodeId}
    (hmet : ∀ other ∈ met, other = node ∨ session.forest.Over above other node) :
    session.Sustains above (session.forest.strictInheritanceWithin limit node met) fun _ ↦ True := by
  induction limit generalizing node met with
  | zero => exact sustains_throw fun memo hmemo ↦ stopped _ memo hmemo trivial
  | succ limit ih =>
    refine (h.sustains_base node).bind fun base hbase ↦ ?_
    cases base with
    | none => exact sustains_pure trivial
    | some base =>
      have hover := hbase base rfl
      by_cases hmem : base ∈ met
      · simp only [if_pos hmem]
        -- The base was met before, so it is under `node`, and over it.
        have hself : session.forest.Over above node node := by
          rcases hmet base hmem with rfl | hback
          · exact hover
          · exact hover.trans hback
        have hpaths : ∀ id ∈ (base :: met).reverse,
            session.Sustains above (session.forest.path id : Lookup String) fun _ ↦ True :=
          fun id _ ↦ sustains_read (session.forest.interruptible_path id)
        exact (sustains_mapM hpaths).bind fun _ _ ↦
          sustains_throw fun _ hmemo ↦ ⟨hmemo, .inr hself.exists_above_self⟩
      · simp only [if_neg hmem]
        refine ih (List.forall_mem_cons.mpr ⟨.inl rfl, fun other hother ↦ .inr ?_⟩)
        rcases hmet other hother with rfl | hunder
        · exact hover
        · exact hunder.trans hover

theorem sustains_strictInheritance (id : NodeId) :
    session.Sustains above (session.forest.strictInheritance id) fun _ ↦ True :=
  h.sustains_strictInheritanceWithin fun _ hother ↦ .inl (List.mem_singleton.mp hother)

theorem sustains_visibleChild (id : NodeId) (name : String) :
    session.Sustains above (session.forest.visibleChild id name) fun _ ↦ True := by
  refine (sustains_read (session.forest.interruptible_child? id name)).bind fun child _ ↦ ?_
  cases child with
  | some child => exact sustains_pure trivial
  | none =>
    refine (h.sustains_baseWalk id).bind fun walk hwalk ↦ h.sustains_search hwalk fun base ↦ ?_
    exact sustains_read (session.forest.interruptible_child? base name)

theorem sustains_visibleChildren (id : NodeId) :
    session.Sustains above (session.forest.visibleChildren id) fun _ ↦ True := by
  refine (h.sustains_inheritance id).bind fun line _ ↦ sustains_foldlM (fun merged ancestor ↦ ?_) trivial
  exact (sustains_read (session.forest.interruptible_node ancestor)).bind fun _ _ ↦ sustains_pure trivial

/-- A step of a walk reads the base of the node at which the walk stands. -/
theorem comesTo_nextNode {origin : NodeId} {walk : Walk} (hwalk : walk.Climbs session.forest above origin)
    (hmemo : session.Filled above memo) :
    ComesTo memo (walk.next session.forest session.forest.base)
      (fun (item, next) after ↦
        (session.Filled above after ∧ Memo.Fills session.forest above (fun other ↦
          session.forest.depth other < session.forest.depth origin ∨ walk.standing? = some other) memo after) ∧
        next.Climbs session.forest above origin ∧ next.standing? = item)
      (session.Stopped above) := by
  let kept := fun after ↦ session.Filled above after ∧ Memo.Fills session.forest above (fun other ↦
    session.forest.depth other < session.forest.depth origin ∨ walk.standing? = some other) memo after
  have hread : ∀ node, walk.standing? = some node → session.forest.Over above origin node →
      ComesTo memo (session.forest.base node)
        (fun base after ↦ kept after ∧ ∀ found ∈ base, session.forest.Over above node found)
        (session.Stopped above) := by
    intro node hstanding hnode
    refine (h.comesTo_base hmemo node).mono (fun base after hafter ↦ ?_) ?_
    · obtain ⟨hfilled, hfills, hover⟩ := hafter
      refine ⟨⟨hfilled, hfills.mono ?_⟩, hover⟩
      rintro other (rfl | hless)
      · exact .inr hstanding
      · exact .inl (hnode.same_depth ▸ hless)
    · rintro error _ ⟨rfl, herror⟩
      exact ⟨hmemo, .inl herror⟩
  have hnext := comesTo_next (fun error memo (hmemo : kept memo) ↦ stopped error memo hmemo.1)
    (fun memo event hmemo hevent ↦ ⟨hmemo.1.write hevent, hmemo.2.write hevent⟩)
    hwalk ⟨hmemo, .refl memo⟩ hread
  exact hnext.mono (fun _ _ ⟨hafter, hwalk', _, hstanding⟩ ↦ ⟨hafter, hwalk', hstanding⟩)
    fun _ _ herror ↦ herror

/-- The steps of a walk read the bases of the nodes that it meets, but of the last only if it goes on. -/
theorem comesTo_take {origin : NodeId} {walk : Walk} (hwalk : walk.Climbs session.forest above origin)
    (count : Nat) (hmemo : session.Filled above memo) :
    ComesTo memo (walk.take session.forest session.forest.base count)
      (fun steps after ↦ session.Filled above after ∧
        Memo.Fills session.forest above (fun other ↦
          session.forest.depth other < session.forest.depth origin ∨
            0 < count ∧ walk.standing? = some other ∨ some other ∈ steps.take (count - 1)) memo after)
      (session.Stopped above) := by
  induction count generalizing walk memo with
  | zero => exact .of_run rfl ⟨hmemo, .refl memo⟩
  | succ count ih =>
    refine (h.comesTo_nextNode hwalk hmemo).bind ?_
    rintro ⟨item, walk'⟩ between ⟨⟨hbetween, hfills⟩, hwalk', hstanding⟩
    refine (ih hwalk' hbetween).bind fun steps after ⟨hafter, hfills'⟩ ↦ .of_run rfl ⟨hafter, ?_⟩
    have htake : ∀ step, 0 < count ∧ step = item ∨ step ∈ steps.take (count - 1) →
        step ∈ (item :: steps).take count := by
      cases count <;> simp
    -- The next step starts where this one ended.
    refine (hfills.mono ?_).trans (hfills'.mono ?_)
    · rintro other (hless | hhere)
      · exact .inl hless
      · exact .inr (.inl ⟨Nat.succ_pos count, hhere⟩)
    · rintro other (hless | ⟨hpos, hhere⟩ | hmem)
      · exact .inl hless
      · exact .inr (.inr (htake _ (.inl ⟨hpos, hhere.symm.trans hstanding⟩)))
      · exact .inr (.inr (htake _ (.inr hmem)))

/-- The first steps from a node read its base, and those of the nodes that they meet but the last. -/
theorem comesTo_chainPrefix (id : NodeId) (count : Nat) (hmemo : session.Filled above memo) :
    ComesTo memo (session.forest.chainPrefix id count)
      (fun steps after ↦ session.Filled above after ∧ Memo.Fills session.forest above
        (fun other ↦ session.forest.Below id other ∨ some other ∈ steps.take (count - 1)) memo after)
      (session.Stopped above) := by
  let kept := fun after ↦
    session.Filled above after ∧ Memo.Fills session.forest above (session.forest.Below id) memo after
  have hstart : ComesTo memo (session.forest.baseWalk id)
      (fun walk after ↦ kept after ∧ walk.Climbs session.forest above id ∧ walk.standing? = none)
      (session.Stopped above) := by
    have hbase := (h.comesTo_base hmemo id).mono
      (fun base after hafter ↦ (⟨⟨hafter.1, hafter.2.1⟩, hafter.2.2⟩ : kept after ∧ _))
      (fun error _ ⟨heq, herror⟩ ↦ (⟨heq ▸ hmemo, .inl herror⟩ : session.Stopped above error _))
    refine hbase.bind fun base after hafter ↦ ?_
    refine sustains_start ?_ ?_ hafter.2 after hafter.1
    · exact fun error memo hmemo herror ↦ ⟨hmemo.1, .inl herror⟩
    · exact fun memo event hmemo hevent ↦ ⟨hmemo.1.write hevent, hmemo.2.write hevent⟩
  refine hstart.bind fun walk between ⟨hbetween, hwalk, hstanding⟩ ↦ ?_
  refine (h.comesTo_take hwalk count hbetween.1).mono (fun steps after hafter ↦ ⟨hafter.1, ?_⟩)
    fun _ _ herror ↦ herror
  refine (hbetween.2.mono fun _ ↦ .inl).trans (hafter.2.mono ?_)
  rintro other (hless | ⟨_, hhere⟩ | hmem)
  · exact .inl (.inr hless)
  · exact nomatch hstanding.symm.trans hhere
  · exact .inr hmem

theorem sustains_query (query : Query) :
    session.Sustains above (query.answer session.forest) fun _ ↦ True := by
  have hreply : ∀ {α : Type} {good : α → Prop} {look : Lookup α} {reply : α → Reply ε},
      session.Sustains above look good →
      session.Sustains above (look >>= fun value ↦ pure (reply value)) fun _ ↦ True :=
    fun hlook ↦ hlook.bind fun _ _ ↦ sustains_pure trivial
  cases query with
  | base id => exact hreply (h.sustains_base id)
  | chain id => exact hreply (h.sustains_chain id)
  | chainPrefix id count =>
    have hprefix : session.Sustains above (session.forest.chainPrefix id count) fun _ ↦ True := by
      intro memo hmemo
      exact (h.comesTo_chainPrefix id count hmemo).mono (fun _ _ hafter ↦ ⟨hafter.1, trivial⟩)
        fun _ _ herror ↦ herror
    exact hreply hprefix
  | inheritsFrom id ancestor => exact hreply (h.sustains_inheritsFrom id ancestor)
  | inheritance id => exact hreply (h.sustains_inheritance id)
  | strictInheritance id => exact hreply (h.sustains_strictInheritance id)
  | visibleChild id name => exact hreply (h.sustains_visibleChild id name)
  | visibleChildren id => exact hreply (h.sustains_visibleChildren id)

end Layered

/-! ## Actions that only read -/

/-- An action that fills slots as reads do; if it does not fail it comes to a value of `good`. -/
structure Reads (above : NodeId → NodeId → Prop) (session : Session ε) (action : Action ε α)
    (good : α → Prop) : Prop where
  filled : session.Filled above (action.run session).2.memo
  good : ∀ value, (action.run session).1 = .ok value → good value

theorem Reads.map {action : Action ε α} {good : α → Prop} {good' : β → Prop}
    (h : session.Reads above action good) {f : α → β} (himp : ∀ value, good value → good' (f value)) :
    session.Reads above (action >>= fun value ↦ pure (f value)) good' := by
  constructor <;> rw [run_map]
  · exact h.filled
  · intro value hvalue
    obtain ⟨found, hfound, rfl⟩ := exists_of_map_eq_ok hvalue
    exact himp found (h.good found hfound)

theorem Layered.reads_look (h : session.Layered above) (read : Forest ε → Lookup α) {good : α → Prop}
    (hread : session.Sustains above (read session.forest) good) :
    session.Reads above (Action.look read) good := by
  have hcomes := hread session.memo h.filled
  rcases hrun : (read session.forest).run session.memo with ⟨_ | value, memo⟩
  all_goals
    unfold ComesTo at hcomes
    rw [hrun] at hcomes
    constructor <;> rw [Action.run_look hrun]
  · exact hcomes.filled
  · exact nofun
  · exact hcomes.1
  · exact fun value' hvalue ↦ Except.ok.inj hvalue ▸ hcomes.2

/-- What only shows the forest fills no slot. -/
theorem Layered.reads_of_run_memo (h : session.Layered above) (read : Forest ε → Lookup α)
    (hmemo : ((read session.forest).run session.memo).2 = session.memo) :
    session.Reads above (Action.look read) fun _ ↦ True := by
  refine ⟨?_, fun _ _ ↦ trivial⟩
  change session.Filled above ((read session.forest).run session.memo).2
  rw [hmemo]
  exact h.filled

section Calls

variable [IsTrans NodeId above]

theorem Layered.reads_request [Family ε] (h : session.Layered above) {request : Request ε}
    (hread : request.isEdit = false) : session.Reads above request.answer fun _ ↦ True := by
  cases request with
  | view shown => exact h.reads_of_run_memo (shown.answer ·) (view_run_memo ..)
  | query asked => exact h.reads_look (asked.answer ·) (h.sustains_query asked)
  | edit change => exact nomatch hread

theorem Layered.sustains_visibleDeclarations {session : Session Style} (h : session.Layered above)
    (id : NodeId) :
    session.Sustains above (Style.visibleDeclarations session.forest id) fun _ ↦ True := by
  have hnode : ∀ ancestor, session.Sustains above (do
      return (← session.forest.node ancestor).payload.declarations : Lookup (List String)) fun _ ↦ True := by
    intro ancestor
    apply (sustains_read (session.forest.interruptible_node ancestor)).bind
    exact fun _ _ ↦ sustains_pure trivial
  refine (h.sustains_inheritance id).bind fun line _ ↦ ?_
  exact (sustains_mapM fun ancestor _ ↦ hnode ancestor).bind fun _ _ ↦ sustains_pure trivial

theorem Layered.reads_styleRequest {session : Session Style} (h : session.Layered above)
    {request : Style.Request} (hread : request.isEdit = false) :
    session.Reads above request.answer fun _ ↦ True := by
  cases request with
  | general request => exact (h.reads_request hread).map fun _ _ ↦ trivial
  | kind id =>
    exact h.reads_of_run_memo (fun forest ↦ do return Style.Reply.kind (← Style.kindOf forest id))
      (run_liftM_bind_memo _ _ session.memo fun _ ↦ rfl)
  | visibleDeclarations id =>
    exact h.reads_look
      (fun forest ↦ do return Style.Reply.declarations (← Style.visibleDeclarations forest id))
      ((h.sustains_visibleDeclarations id).bind fun _ _ ↦ sustains_pure trivial)
  | addBlock | obtainSelector | declare => exact nomatch hread

/-- Walks each of which climbs from some origin. -/
def Climbing (above : NodeId → NodeId → Prop) (session : Session ε) (walks : List Walk) : Prop :=
  ∀ walk ∈ walks, ∃ origin, walk.Climbs session.forest above origin

theorem Layered.reads_call [Family ε] (h : session.Layered above) {walks : List Walk}
    (hwalks : session.Climbing above walks) {call : Call ε} (hread : call.isEdit = false) :
    session.Reads above (call.perform walks) fun left ↦ session.Climbing above left.2 := by
  have hkept : session.Climbing above (if call.isEdit then [] else walks) := by
    rw [hread]
    exact hwalks
  cases call with
  | request asked => exact (h.reads_request hread).map fun _ _ ↦ hkept
  | style asked => exact (h.reads_styleRequest hread).map fun _ _ ↦ hkept
  | openWalk origin =>
    refine (h.reads_look (·.baseWalk origin) (h.sustains_baseWalk origin)).map ?_
    intro walk hwalk other hother
    rcases List.mem_append.mp hother with hother | hother
    · exact hwalks other hother
    · exact List.mem_singleton.mp hother ▸ ⟨origin, hwalk⟩
  | advance index =>
    obtain ⟨origin, hwalk⟩ : ∃ origin, (Call.walkAt walks index).Climbs session.forest above origin := by
      unfold Call.walkAt
      cases hwalk : walks[index]? with
      | none => exact ⟨0, nofun⟩
      | some walk => exact hwalks walk (List.mem_of_getElem? hwalk)
    have hnext : session.Sustains above _ _ :=
      sustains_next stopped filled_write (fun node _ ↦ h.sustains_base node) hwalk
    refine (h.reads_look (fun forest ↦ Walk.next forest forest.base _) hnext).map ?_
    rintro ⟨item, walk⟩ ⟨hwalk, _⟩ other hother
    rcases List.mem_or_eq_of_mem_set hother with hother | rfl
    · exact hwalks other hother
    · exact ⟨origin, hwalk⟩

end Calls

end Session

/-! ## Events -/

theorem Memo.events_restart (memo : Memo) : memo.restart.events = [] := by
  obtain ⟨slots, _ | journal⟩ := memo <;> rfl

theorem Memo.mem_events_noteOverwrite {memo : Memo} {id : NodeId} {name baseName : String} {event : Event}
    (h : event ∈ (memo.noteOverwrite id name baseName).events) :
    event ∈ memo.events ∨ ∃ previous, event = .overwritten name previous baseName := by
  unfold noteOverwrite at h
  split at h
  next previous _ => exact (mem_events_of_mem_write h).imp_right fun heq ↦ ⟨previous, heq⟩
  next => exact .inl h

/-- An edit reports bases that it replaces, and nothing else. -/
theorem Session.Changes.mem_events {set? : Option (NodeId × Option NodeId)} {session after : Session ε}
    (h : Session.Changes set? session after) {event : Event} (hevent : event ∈ after.memo.events) :
    event ∈ session.memo.events ∨
      ∃ name previous baseName, event = .overwritten name previous baseName := by
  induction h with
  | refl => exact .inl hevent
  | tail _ hlast ih =>
    cases hlast with
    | addRoot | addChild | setPayload => exact ih hevent
    | @setBase id node _ baseName =>
      have hnoted : event ∈ (Memo.noteOverwrite _ id node.name baseName).events := hevent
      rcases Memo.mem_events_noteOverwrite hnoted with hbefore | ⟨previous, heq⟩
      · exact ih hbefore
      · exact .inr ⟨node.name, previous, baseName, heq⟩

/-! ## Clients -/

/-- A client of a layered session whose walks climb. -/
structure Client.Layered (above : NodeId → NodeId → Prop) (client : Client ε) : Prop where
  session : client.session.Layered above
  walks : client.session.Climbing above client.walks

/-- A call that fails leaves the walks that were open, or ends them. -/
theorem Call.mem_of_mem_walksLeft {walks : List Walk} {call : Call ε} {walk : Walk}
    (h : walk ∈ call.walksLeft walks) : walk ∈ walks ∨ walk.position = .ended := by
  cases call with
  | request asked =>
    change walk ∈ if asked.isEdit then [] else walks at h
    split at h
    next => exact nomatch h
    next => exact .inl h
  | style asked =>
    change walk ∈ if asked.isEdit then [] else walks at h
    split at h
    next => exact nomatch h
    next => exact .inl h
  | openWalk => exact .inl h
  | advance index =>
    rcases List.mem_or_eq_of_mem_set h with hkept | rfl
    · exact .inl hkept
    · exact .inr rfl

namespace Client

variable [Family ε] {client : Client ε} {call : Call ε}

/-- The walks after a step are those that the call leaves, or comes to. -/
theorem walks_step (client : Client ε) (call : Call ε) :
    (∃ outcome walks, (client.session.step (call.perform client.walks)).1 = .ok (outcome, walks) ∧
      (client.step call).2.walks = walks) ∨
    (client.step call).2.walks = call.walksLeft client.walks := by
  unfold step
  rcases client.session.step (call.perform client.walks) with ⟨_ | ⟨outcome, walks⟩, session⟩
  · exact .inr rfl
  · exact .inl ⟨outcome, walks, rfl, rfl⟩

/-- An edit ends all walks. -/
theorem walks_step_of_edit (client : Client ε) {call : Call ε} (hedit : call.isEdit = true) :
    (client.step call).2.walks = [] := by
  rcases walks_step client call with ⟨outcome, walks, hresult, hwalks⟩ | hleft
  · unfold Session.step at hresult
    rw [hwalks]
    cases call with
    | request | style =>
      unfold Call.perform at hresult
      rw [run_map] at hresult
      obtain ⟨_, _, heq⟩ := exists_of_map_eq_ok hresult
      exact (congrArg Prod.snd heq).symm.trans (if_pos hedit)
    | openWalk | advance => exact nomatch hedit
  · rw [hleft]
    cases call with
    | request | style => exact if_pos hedit
    | openWalk | advance => exact nomatch hedit

/-- The answer to a query, and the memo that it leaves. -/
theorem step_query {α : Type} (client : Client ε) (asked : Query) (look : Lookup α) (reply : α → Reply ε)
    (hasked : asked.answer client.session.forest = do return reply (← look)) :
    (client.step (.request (.query asked))).1 =
      (look.run client.session.memo.restart).1.map (fun value ↦ .reply (reply value)) ∧
    (client.step (.request (.query asked))).2.session.memo = (look.run client.session.memo.restart).2 := by
  have hrun := run_map look reply client.session.memo.restart
  rw [← hasked] at hrun
  rw [step_fst, step_session]
  unfold Session.step Call.perform
  rw [run_map]
  constructor
  · change (((asked.answer client.session.forest).run client.session.memo.restart).1.map _).map _ = _
    rw [hrun]
    cases (look.run client.session.memo.restart).1 <;> rfl
  · change ((asked.answer client.session.forest).run client.session.memo.restart).2 = _
    rw [hrun]

omit [Family ε] in
theorem layered_start (recording : Bool) : (start ε recording).Layered above :=
  ⟨Session.layered_empty recording, nofun⟩

namespace Layered

variable [IsTrans NodeId above] (h : client.Layered above)
include h

omit [Family ε] [IsTrans NodeId above] in
theorem restart : Session.Layered above ⟨client.session.forest, client.session.memo.restart⟩ :=
  h.session.of_slots_eq rfl

/-- What a read does to slots, and what it writes. -/
theorem reads (hread : call.isEdit = false) :
    Session.Filled above ⟨client.session.forest, client.session.memo.restart⟩
      (client.step call).2.session.memo := by
  rw [step_session]
  exact (h.restart.reads_call h.walks hread).filled

theorem step_of_read (hread : call.isEdit = false) : (client.step call).2.Layered above := by
  have hforest := forest_step_of_read client hread
  have hsession : (client.step call).2.session =
      ⟨client.session.forest, (client.step call).2.session.memo⟩ := by
    rw [← hforest]
  constructor
  · rw [hsession]
    exact h.restart.of_filled (h.reads hread)
  · intro walk hwalk
    rw [hforest]
    rcases walks_step client call with ⟨outcome, walks, hresult, hwalks⟩ | hleft
    · exact (h.restart.reads_call h.walks hread).good _ hresult walk (hwalks ▸ hwalk)
    · rcases Call.mem_of_mem_walksLeft (hleft ▸ hwalk) with hkept | hended
      · exact h.walks walk hkept
      · exact ⟨0, by simp [Walk.Climbs, Walk.idsHeld, hended]⟩

theorem step (horderly : call.isOrderly = true)
    (hset : ∀ id base, call.sets? = some (id, some base) → client.session.forest.Over above id base) :
    (client.step call).2.Layered above := by
  cases hedit : call.isEdit with
  | false => exact h.step_of_read hedit
  | true =>
    refine ⟨(h.restart.changes (changes_step client hedit horderly) hset).1, ?_⟩
    rw [walks_step_of_edit client hedit]
    exact nofun

/-- What a call may write to the journal. -/
theorem admitted (horderly : call.isOrderly = true) :
    ∀ event ∈ (client.step call).2.session.memo.events, event.Admitted above := by
  intro event hevent
  have hnone : event ∉ client.session.memo.restart.events := by simp [Memo.events_restart]
  cases hedit : call.isEdit with
  | false => exact ((h.reads hedit).fills.events event hevent).resolve_left hnone
  | true =>
    obtain ⟨_, _, _, rfl⟩ := ((changes_step client hedit horderly).mem_events hevent).resolve_left hnone
    trivial

/-- Calls that set no base keep the layers, and write only what is admitted. -/
theorem after_of_sets?_eq_none {calls : List (Call ε)}
    (hevents : ∀ event ∈ client.session.memo.events, event.Admitted above)
    (hcalls : ∀ call ∈ calls, call.isOrderly = true ∧ call.sets? = none) :
    (client.after calls).Layered above ∧
      ∀ event ∈ (client.after calls).session.memo.events, event.Admitted above := by
  induction calls generalizing client with
  | nil => exact ⟨h, hevents⟩
  | cons call calls ih =>
    obtain ⟨⟨horderly, hsets⟩, hcalls⟩ := List.forall_mem_cons.mp hcalls
    have hstep := h.step horderly fun _ _ hset ↦ nomatch hsets.symm.trans hset
    exact ih hstep (h.admitted horderly) hcalls

/-- Where no root is above itself, bases can be followed strictly from every node. -/
theorem exists_strictInheritance (hirreflexive : ∀ root, ¬ above root root) {id : NodeId}
    (hid : id < client.session.forest.size) :
    ∃ line, (client.step (.request (.query (.strictInheritance id)))).1 = .ok (.reply (.ids line)) := by
  obtain ⟨line, hline⟩ := h.restart.exists_keeps_line hirreflexive hid
  have hanswer :=
    (client.step_query (.strictInheritance id) (client.session.forest.strictInheritance id) .ids rfl).1
  rw [hline.run_eq h.restart.filled.settled] at hanswer
  exact ⟨line, hanswer⟩

end Layered

end Client

end Lineage
