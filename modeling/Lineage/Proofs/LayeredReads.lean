import Lineage.Proofs.Depth
import Lineage.Proofs.Service

/-!
# Reads in layers

Where every base that is known is over its node, the base of a node is sought among nodes of one depth
less.  So the read of a base only ever asks for bases that are less deep, and never comes back to a node
whose base is being sought.  What it finds is over the node again, and it leaves alone all other slots
of that depth and more (`comesTo_baseWithin`).

`Fills` says what a read does to a memo: the slots that it may fill, with which bases, and the events
that it may write.  `Sustains` is the rule by which this is followed along walks.
-/

namespace Lineage

variable {ε α β : Type}

/-! ## Step by step -/

namespace Lookup

theorem exists_of_map_eq_ok {result : Except Error α} {f : α → β} {value : β}
    (h : result.map f = .ok value) :
    ∃ found, result = .ok found ∧ f found = value := by
  cases result with
  | error error => exact nomatch h
  | ok found => exact ⟨found, rfl, Except.ok.inj h⟩

/-- From `memo`, a look-up comes to a value and a memo of `post`, or to an error and a memo of `failed`. -/
def ComesTo (memo : Memo) (look : Lookup α) (post : α → Memo → Prop) (failed : Error → Memo → Prop) :
    Prop :=
  match look.run memo with
  | (.ok value, after) => post value after
  | (.error error, after) => failed error after

variable {memo : Memo} {look : Lookup α} {post post' : α → Memo → Prop}
  {failed failed' : Error → Memo → Prop}

theorem ComesTo.of_run {after : Memo} {value : α} (hrun : look.run memo = (.ok value, after))
    (h : post value after) : ComesTo memo look post failed := by
  unfold ComesTo
  rw [hrun]
  exact h

theorem ComesTo.of_run_error {after : Memo} {error : Error} (hrun : look.run memo = (.error error, after))
    (h : failed error after) : ComesTo memo look post failed := by
  unfold ComesTo
  rw [hrun]
  exact h

theorem ComesTo.of_run_eq {memo' : Memo} {look' : Lookup α} (hrun : look.run memo = look'.run memo')
    (h : ComesTo memo' look' post failed) : ComesTo memo look post failed := by
  unfold ComesTo
  rw [hrun]
  exact h

theorem ComesTo.post_of_run (h : ComesTo memo look post failed) {after : Memo} {value : α}
    (hrun : look.run memo = (.ok value, after)) : post value after := by
  unfold ComesTo at h
  rwa [hrun] at h

theorem ComesTo.mono (h : ComesTo memo look post failed)
    (hpost : ∀ value after, post value after → post' value after)
    (hfailed : ∀ error after, failed error after → failed' error after) :
    ComesTo memo look post' failed' := by
  unfold ComesTo at *
  split at h
  next => exact hpost _ _ h
  next => exact hfailed _ _ h

theorem ComesTo.bind {mid : α → Memo → Prop} {next : α → Lookup β} {post : β → Memo → Prop}
    (h : ComesTo memo look mid failed)
    (hnext : ∀ value after, mid value after → ComesTo after (next value) post failed) :
    ComesTo memo (look >>= next) post failed := by
  unfold ComesTo at h ⊢
  rw [run_bind]
  split at h
  next value after hrun =>
    rw [hrun]
    exact hnext value after h
  next error after hrun =>
    rw [hrun]
    exact h

theorem comesTo_liftM {read : Except Error α} (hok : ∀ value, read = .ok value → post value memo)
    (herror : ∀ error, read = .error error → failed error memo) :
    ComesTo memo (liftM read : Lookup α) post failed := by
  cases read with
  | ok value => exact .of_run rfl (hok value rfl)
  | error error => exact .of_run_error rfl (herror error rfl)

/-- From every memo of `kept`, a look-up comes to a value of `good` and another memo of `kept`, or fails
as `failed` allows. -/
def Sustains (kept : Memo → Prop) (failed : Error → Memo → Prop) (look : Lookup α) (good : α → Prop) :
    Prop :=
  ∀ memo, kept memo → ComesTo memo look (fun value after ↦ kept after ∧ good value) failed

variable {kept : Memo → Prop} {good : α → Prop}

theorem sustains_pure {value : α} (h : good value) : Sustains kept failed (pure value) good :=
  fun _ hmemo ↦ .of_run rfl ⟨hmemo, h⟩

theorem Sustains.bind {next : α → Lookup β} {good' : β → Prop} (h : Sustains kept failed look good)
    (hnext : ∀ value, good value → Sustains kept failed (next value) good') :
    Sustains kept failed (look >>= next) good' :=
  fun memo hmemo ↦ (h memo hmemo).bind fun value after hafter ↦ hnext value hafter.2 after hafter.1

theorem Sustains.mono {good' : α → Prop} (h : Sustains kept failed look good)
    (himp : ∀ value, good value → good' value) : Sustains kept failed look good' :=
  fun memo hmemo ↦ (h memo hmemo).mono (fun value _ hafter ↦ ⟨hafter.1, himp value hafter.2⟩)
    fun _ _ herror ↦ herror

theorem sustains_throw {error : Error} (h : ∀ memo, kept memo → failed error memo) :
    Sustains kept failed (throw error : Lookup α) good :=
  fun memo hmemo ↦ .of_run_error rfl (h memo hmemo)

theorem sustains_mapM {look : α → Lookup β} {items : List α} {good : β → Prop}
    (h : ∀ item ∈ items, Sustains kept failed (look item) good) :
    Sustains kept failed (items.mapM look) fun values ↦ ∀ value ∈ values, good value := by
  induction items with
  | nil => exact sustains_pure nofun
  | cons item items ih =>
    obtain ⟨hitem, hitems⟩ := List.forall_mem_cons.mp h
    rw [List.mapM_cons]
    exact hitem.bind fun value hvalue ↦ (ih hitems).bind fun values hvalues ↦
      sustains_pure (List.forall_mem_cons.mpr ⟨hvalue, hvalues⟩)

theorem sustains_foldlM {look : β → α → Lookup β} {good : β → Prop} {items : List α}
    (h : ∀ merged item, Sustains kept failed (look merged item) good) {start : β} (hstart : good start) :
    Sustains kept failed (items.foldlM look start) good := by
  induction items generalizing start with
  | nil => exact sustains_pure hstart
  | cons item items ih =>
    rw [List.foldlM_cons]
    exact (h start item).bind fun _ hmerged ↦ ih hmerged

section Interruptible

variable (hfail : ∀ error memo, kept memo → error.Interrupts → failed error memo)
include hfail

theorem sustains_liftM {read : Except Error α} (hread : Interruptible read)
    (h : ∀ value, read = .ok value → good value) : Sustains kept failed (liftM read : Lookup α) good := by
  intro memo hmemo
  apply comesTo_liftM
  · exact fun value hvalue ↦ ⟨hmemo, h value hvalue⟩
  · exact fun error herror ↦ hfail error memo hmemo (hread error herror)

theorem sustains_report {told : Event → Prop} {event : Lookup Event} (h : Tells told event)
    (hwrite : ∀ memo event, kept memo → told event → kept (memo.write event)) :
    Sustains kept failed (report event) fun _ ↦ True := by
  intro memo hmemo
  obtain ⟨read, hevent, hinterruptible, htold⟩ := h
  cases hrecording : memo.journal.isSome with
  | false => exact .of_run (run_report_of_silent hrecording event) ⟨hmemo, trivial⟩
  | true =>
    have hrun := run_report_of_recording hrecording (hevent memo)
    cases read with
    | error error => exact .of_run_error hrun (hfail error memo hmemo (hinterruptible error rfl))
    | ok written => exact .of_run hrun ⟨hwrite memo written hmemo (htold written rfl), trivial⟩

end Interruptible

end Lookup

/-! ## What a read fills -/

namespace Memo

/-- The events of the journal, if one is kept. -/
def events (memo : Memo) : List Event := (memo.journal.getD #[]).toList

theorem fill_fill (memo : Memo) (id : NodeId) (first second : Slot) :
    (memo.fill id first).fill id second = memo.fill id second := by
  unfold fill
  rw [Array.setIfInBounds_setIfInBounds]

theorem mem_events_of_mem_write {memo : Memo} {event written : Event}
    (h : event ∈ (memo.write written).events) :
    event ∈ memo.events ∨ event = written := by
  obtain ⟨slots, _ | journal⟩ := memo
  · exact .inl h
  · simpa [events, write] using h

end Memo

/-- No read comes back to a node whose base is being sought, and no walk comes back unless some root is
above itself. -/
def Event.Admitted (above : NodeId → NodeId → Prop) : Event → Prop
  | reentered .. => False
  | startRefused _ | stepRefused .. => ∃ root, above root root
  | resolved .. | overwritten .. | wiring .. | built .. => True

/-- Where no root is above itself, what is admitted is what is no warning. -/
theorem Event.admitted_iff {above : NodeId → NodeId → Prop} (hirreflexive : ∀ root, ¬ above root root)
    (event : Event) : event.Admitted above ↔ event.level ≠ .warn := by
  cases event <;> simp [Admitted, level, hirreflexive]

/-- What a read may find to be the base of a node. -/
structure Forest.Suits (forest : Forest ε) (above : NodeId → NodeId → Prop) (id base : NodeId) : Prop where
  is_over : forest.Over above id base
  same_name : forest.nameOf base = forest.nameOf id
  ne : base ≠ id

/-- Between two memos, open slots of `may` were filled with bases that suit. -/
structure Memo.Fills (forest : Forest ε) (above : NodeId → NodeId → Prop) (may : NodeId → Prop)
    (before after : Memo) : Prop where
  slots_size : after.slots.size = before.slots.size
  slot : ∀ id, after.slot id = before.slot id ∨ may id ∧ before.slot id = .unresolved ∧
    ∃ base, after.slot id = .resolved base ∧ ∀ found ∈ base, forest.Suits above id found
  events : ∀ event ∈ after.events, event ∈ before.events ∨ event.Admitted above

namespace Memo.Fills

variable {forest : Forest ε} {above : NodeId → NodeId → Prop} {may may' : NodeId → Prop}
  {before between after : Memo} {id : NodeId}

theorem refl (memo : Memo) : Fills forest above may memo memo :=
  ⟨rfl, fun _ ↦ .inl rfl, fun _ ↦ .inl⟩

theorem trans (h : Fills forest above may before between) (h' : Fills forest above may between after) :
    Fills forest above may before after where
  slots_size := h'.slots_size.trans h.slots_size
  slot id := by
    rcases h.slot id with hsame | ⟨hmay, hopen, base, hfilled, hsuits⟩
    · exact hsame ▸ h'.slot id
    · have hsame := (h'.slot id).resolve_right fun hagain ↦ nomatch hfilled.symm.trans hagain.2.1
      exact .inr ⟨hmay, hopen, base, hsame.trans hfilled, hsuits⟩
  events event hevent := (h'.events event hevent).elim (h.events event) .inr

theorem mono (h : Fills forest above may before after) (himp : ∀ id, may id → may' id) :
    Fills forest above may' before after :=
  ⟨h.slots_size, fun id ↦ (h.slot id).imp_right fun ⟨hmay, hrest⟩ ↦ ⟨himp id hmay, hrest⟩, h.events⟩

theorem write (h : Fills forest above may before after) {event : Event} (hevent : event.Admitted above) :
    Fills forest above may before (after.write event) where
  slots_size := h.slots_size
  slot := h.slot
  events other hother := by
    rcases mem_events_of_mem_write hother with hold | rfl
    · exact h.events other hold
    · exact .inr hevent

theorem slot_eq (h : Fills forest above may before after) (hmay : ¬ may id) :
    after.slot id = before.slot id :=
  (h.slot id).resolve_right fun hfilled ↦ hmay hfilled.1

theorem eq_resolving (h : Fills forest above may before after) (hslot : after.slot id = .resolving) :
    before.slot id = .resolving := by
  rcases h.slot id with hsame | ⟨_, _, base, hfilled, _⟩
  · exact hsame.symm.trans hslot
  · exact nomatch hslot.symm.trans hfilled

theorem base_over (h : Fills forest above may before after) {base : NodeId}
    (hbefore : before.slot id = .resolved (some base) → forest.Over above id base)
    (hslot : after.slot id = .resolved (some base)) : forest.Over above id base := by
  rcases h.slot id with hsame | ⟨_, _, base', hfilled, hsuits⟩
  · exact hbefore (hsame.symm.trans hslot)
  · obtain rfl := Slot.resolved.inj (hfilled.symm.trans hslot)
    exact (hsuits base rfl).is_over

/-- A search marks a slot, fills others and resolves the slot at last. -/
theorem close (hid : id < before.slots.size) (hopen : before.slot id = .unresolved)
    (h : Fills forest above may (before.fill id .resolving) between) {base : Option NodeId}
    (hbase : ∀ found ∈ base, forest.Suits above id found) :
    Fills forest above (fun other ↦ other = id ∨ may other) before (between.fill id (.resolved base)) where
  slots_size := by rw [size_fill, h.slots_size, size_fill]
  slot other := by
    by_cases hother : other = id
    · subst hother
      rw [slot_fill_self (by rwa [h.slots_size, size_fill])]
      exact .inr ⟨.inl rfl, hopen, base, rfl, hbase⟩
    · rw [slot_fill_of_ne hother]
      have hslot := h.slot other
      rw [slot_fill_of_ne hother] at hslot
      exact hslot.imp_right fun ⟨hmay, hrest⟩ ↦ ⟨.inr hmay, hrest⟩
  events := h.events

end Memo.Fills

/-! ## Walks -/

/-- The node whose base is read when a walk goes on. -/
def Walk.standing? (walk : Walk) : Option NodeId :=
  match walk.position with
  | .standing node => some node
  | .before _ | .ended => none

/-- A walk that is over its origin, and over each node that it has seen before. -/
def Walk.Climbs (forest : Forest ε) (above : NodeId → NodeId → Prop) (origin : NodeId) (walk : Walk) :
    Prop :=
  ∀ node ∈ walk.idsHeld, forest.Over above origin node ∧
    ∀ met ∈ walk.seen, met = node ∨ forest.Over above met node

namespace Lookup

section Walks

variable {forest : Forest ε} {above : NodeId → NodeId → Prop} {origin : NodeId} {kept : Memo → Prop}
  {failed : Error → Memo → Prop} {readBase : NodeId → Lookup (Option NodeId)}
  (hfail : ∀ error memo, kept memo → error.Interrupts → failed error memo)
  (hwrite : ∀ memo event, kept memo → event.Admitted above → kept (memo.write event))
include hfail hwrite

theorem sustains_start {first : Option NodeId} (hfirst : ∀ node ∈ first, forest.Over above origin node) :
    Sustains kept failed (Walk.start forest origin first) fun walk ↦
      walk.Climbs forest above origin ∧ walk.standing? = none := by
  cases first with
  | none => exact sustains_pure ⟨nofun, rfl⟩
  | some first =>
    have hover := hfirst first rfl
    unfold Walk.start
    by_cases heq : first = origin
    · simp only [if_pos heq]
      subst heq
      have htells : Tells (Event.Admitted above) (do return .startRefused (← forest.path first)) := by
        refine tells_path (fun _ ↦ ?_) first
        exact tells_pure hover.exists_above_self
      exact (sustains_report hfail htells hwrite).bind fun _ _ ↦ sustains_pure ⟨nofun, rfl⟩
    · simp only [if_neg heq]
      refine sustains_pure ⟨?_, rfl⟩
      intro node hnode
      obtain rfl := List.mem_singleton.mp hnode
      refine ⟨hover, fun met hmet ↦ ?_⟩
      rcases List.mem_cons.mp hmet with rfl | hmet
      · exact .inl rfl
      · exact .inr (List.mem_singleton.mp hmet ▸ hover)

variable [IsTrans NodeId above]

/-- A step reads the base of the node where the walk stands, and of no other. -/
theorem comesTo_next {walk : Walk} {memo : Memo} (hwalk : walk.Climbs forest above origin)
    (hmemo : kept memo)
    (hread : ∀ node, walk.standing? = some node → forest.Over above origin node →
      ComesTo memo (readBase node)
        (fun base after ↦ kept after ∧ ∀ found ∈ base, forest.Over above node found)
        failed) :
    ComesTo memo (walk.next forest readBase) (fun (item, after) between ↦ kept between ∧
      after.Climbs forest above origin ∧ (∀ node ∈ item, forest.Over above origin node) ∧
      after.standing? = item) failed := by
  obtain ⟨position, seen⟩ := walk
  cases position with
  | before first =>
    exact .of_run rfl ⟨hmemo, hwalk, fun node hnode ↦ (hwalk node (Option.mem_toList.mpr hnode)).1, rfl⟩
  | ended => exact .of_run rfl ⟨hmemo, nofun, nofun, rfl⟩
  | standing node =>
    obtain ⟨horigin, hmet⟩ := hwalk node List.mem_cons_self
    refine (hread node rfl horigin).bind fun base between ⟨hbetween, hbase⟩ ↦ ?_
    cases base with
    | none => exact .of_run rfl ⟨hbetween, nofun, nofun, rfl⟩
    | some base =>
      have hover := hbase base rfl
      by_cases hseen : base ∈ seen
      · simp only [if_pos hseen]
        have hself : forest.Over above node node := by
          rcases hmet base hseen with rfl | hback
          · exact hover
          · exact hover.trans hback
        have htells : Tells (Event.Admitted above)
            (do return .stepRefused (← forest.path node) (← forest.path base)) := by
          refine tells_path (fun _ ↦ tells_path (fun _ ↦ ?_) base) node
          exact tells_pure hself.exists_above_self
        refine (sustains_report hfail htells hwrite between hbetween).bind fun _ after hafter ↦ ?_
        exact .of_run rfl ⟨hafter.1, nofun, nofun, rfl⟩
      · simp only [if_neg hseen]
        refine .of_run rfl ⟨hbetween, fun held hheld ↦ ?_, fun item hitem ↦ ?_, rfl⟩
        · obtain rfl := List.mem_singleton.mp hheld
          refine ⟨horigin.trans hover, List.forall_mem_cons.mpr ⟨.inl rfl, fun met hmem ↦ .inr ?_⟩⟩
          rcases hmet met hmem with rfl | hunder
          · exact hover
          · exact hunder.trans hover
        · exact Option.some.inj hitem ▸ horigin.trans hover

variable (hread : ∀ node, forest.Over above origin node →
    Sustains kept failed (readBase node) fun base ↦ ∀ found ∈ base, forest.Over above node found)
include hread

theorem sustains_next {walk : Walk} (hwalk : walk.Climbs forest above origin) :
    Sustains kept failed (walk.next forest readBase) fun (item, after) ↦
      after.Climbs forest above origin ∧ ∀ node ∈ item, forest.Over above origin node := by
  intro memo hmemo
  have hnext := comesTo_next hfail hwrite hwalk hmemo fun node _ hnode ↦ hread node hnode memo hmemo
  exact hnext.mono (fun _ _ ⟨hkept, hclimbs, hitem, _⟩ ↦ ⟨hkept, hclimbs, hitem⟩) fun _ _ herror ↦ herror

theorem sustains_findSome? {test : NodeId → Lookup (Option β)} {good : β → Prop}
    (htest : ∀ node, forest.Over above origin node →
      Sustains kept failed (test node) fun result ↦ ∀ found ∈ result, good found)
    {limit : Nat} {walk : Walk} (hwalk : walk.Climbs forest above origin) :
    Sustains kept failed (walk.findSome? forest readBase test limit) fun result ↦
      ∀ found ∈ result, good found := by
  induction limit generalizing walk with
  | zero => exact sustains_throw fun memo hmemo ↦ hfail _ memo hmemo trivial
  | succ limit ih =>
    refine (sustains_next hfail hwrite hread hwalk).bind fun (item, walk) ⟨hwalk, hitem⟩ ↦ ?_
    cases item with
    | none => exact sustains_pure nofun
    | some node =>
      refine (htest node (hitem node rfl)).bind fun result hresult ↦ ?_
      cases result with
      | some found => exact sustains_pure hresult
      | none => exact ih hwalk

theorem sustains_toList {limit : Nat} {walk : Walk} (hwalk : walk.Climbs forest above origin) :
    Sustains kept failed (walk.toList forest readBase limit) fun _ ↦ True := by
  induction limit generalizing walk with
  | zero => exact sustains_throw fun memo hmemo ↦ hfail _ memo hmemo trivial
  | succ limit ih =>
    refine (sustains_next hfail hwrite hread hwalk).bind fun (item, walk) ⟨hwalk, _⟩ ↦ ?_
    cases item with
    | none => exact sustains_pure trivial
    | some node => exact (ih hwalk).bind fun _ _ ↦ sustains_pure trivial

end Walks

end Lookup

/-! ## The base of a node -/

/-- A memo in which no read of a base of depth `level` or less is under way. -/
structure Memo.Ready (forest : Forest ε) (above : NodeId → NodeId → Prop) (level : Nat) (memo : Memo) :
    Prop where
  slots_size : memo.slots.size = forest.size
  base_over : ∀ ⦃id base⦄, memo.slot id = .resolved (some base) → forest.Over above id base
  resolving : ∀ ⦃id⦄, memo.slot id = .resolving → level < forest.depth id

namespace Memo.Ready

variable {forest : Forest ε} {above : NodeId → NodeId → Prop} {level : Nat} {memo after : Memo}

theorem of_fills {may : NodeId → Prop} (h : memo.Ready forest above level)
    (hfills : Fills forest above may memo after) : after.Ready forest above level where
  slots_size := hfills.slots_size.trans h.slots_size
  base_over _ _ hslot := hfills.base_over (fun hbefore ↦ h.base_over hbefore) hslot
  resolving _ hslot := h.resolving (hfills.eq_resolving hslot)

/-- While the base of a node is sought, bases that are less deep can be read. -/
theorem mark {id : NodeId} (h : memo.Ready forest above (forest.depth id))
    (hlevel : level < forest.depth id) :
    (memo.fill id .resolving).Ready forest above level where
  slots_size := (size_fill ..).trans h.slots_size
  base_over other base hslot := by
    rw [slot_fill] at hslot
    split at hslot
    next => exact nomatch hslot
    next => exact h.base_over hslot
  resolving other hslot := by
    by_cases hother : other = id
    · exact hother ▸ hlevel
    · rw [slot_fill_of_ne hother] at hslot
      exact Nat.lt_trans hlevel (h.resolving hslot)

end Memo.Ready

namespace Forest

open Lookup

variable {forest : Forest ε} {above : NodeId → NodeId → Prop} {id parent : NodeId} {node : Node ε}

/-- A child of the name of `id`, and of a node over the parent of `id`, suits `id`. -/
theorem Orderly.suits_of_namesake (h : forest.Orderly) (hnode : forest.node? id = some node)
    (hparent : forest.parentOf id = some parent) {candidate found : NodeId}
    (hcandidate : forest.Over above parent candidate)
    (hfound : forest.namesake? id node.name candidate = .ok (some found)) :
    forest.Suits above id found := by
  rw [namesake?_eq_ok hnode hcandidate.lt_size.2, Except.ok.injEq] at hfound
  obtain ⟨name, hname, hfilter⟩ := Option.bind_eq_some_iff.mp hfound
  obtain ⟨hchild, hne⟩ := Option.filter_eq_some_iff.mp hfilter
  obtain ⟨hfoundParent, hfoundName⟩ := h.child_iff.mp hchild
  exact ⟨hcandidate.child h hparent hfoundParent, hfoundName.trans hname.symm, by simpa using hne⟩

/-- What a search may do, while reads of less deep bases may fill slots that are less deep. -/
theorem Orderly.sustains_searchBase [IsTrans NodeId above] (h : forest.Orderly)
    (hnode : forest.node? id = some node) (hparent : forest.parentOf id = some parent)
    {kept : Memo → Prop} {failed : Error → Memo → Prop} {readBase : NodeId → Lookup (Option NodeId)}
    (hfail : ∀ error memo, kept memo → error.Interrupts → failed error memo)
    (hwrite : ∀ memo event, kept memo → event.Admitted above → kept (memo.write event))
    (hread : ∀ node, forest.depth node = forest.depth parent →
      Sustains kept failed (readBase node) fun base ↦ ∀ found ∈ base, forest.Over above node found) :
    Sustains kept failed (forest.searchBase readBase id node.name parent) fun base ↦
      ∀ found ∈ base, forest.Suits above id found := by
  refine (hread parent rfl).bind fun first hfirst ↦ ?_
  refine (sustains_start hfail hwrite hfirst).bind fun walk ⟨hwalk, _⟩ ↦ ?_
  refine sustains_findSome? hfail hwrite (fun other hother ↦ hread other hother.same_depth) ?_ hwalk
  intro candidate hcandidate
  apply sustains_liftM hfail (forest.interruptible_namesake? id node.name candidate)
  rintro result hresult found rfl
  exact h.suits_of_namesake hnode hparent hcandidate hresult

/-- The slots that the read of a base may fill: its own, and those that are less deep. -/
def Below (forest : Forest ε) (id other : NodeId) : Prop :=
  other = id ∨ forest.depth other < forest.depth id

/-- What is kept of a base that was found. -/
theorem comesTo_keepBase {may : NodeId → Prop} {before between : Memo} (hid : id < before.slots.size)
    (hopen : before.slot id = .unresolved)
    (hfills : Memo.Fills forest above may (before.fill id .resolving) between) {base : Option NodeId}
    (hbase : ∀ found ∈ base, forest.Suits above id found) :
    ComesTo between (forest.keepBase id base)
      (fun base after ↦ Memo.Fills forest above (fun other ↦ other = id ∨ may other) before after ∧
        ∀ found ∈ base, forest.Over above id found) fun _ _ ↦ True := by
  let kept := Memo.Fills forest above (fun other ↦ other = id ∨ may other) before
  have hfilled : kept (between.fill id (.resolved base)) := hfills.close hid hopen hbase
  have htells : Tells (Event.Admitted above) _ := tells_resolved forest id (fun _ _ ↦ trivial) base
  have hreport : Sustains kept (fun _ _ ↦ True) (report _) fun _ ↦ True :=
    sustains_report (fun _ _ _ _ ↦ trivial) htells fun _ _ hmemo hevent ↦ hmemo.write hevent
  refine (hreport _ hfilled).bind ?_
  exact fun _ after hafter ↦ .of_run rfl ⟨hafter.1, fun found hfound ↦ (hbase found hfound).is_over⟩

theorem comesTo_findBase_of_parentless {readBase : NodeId → Lookup (Option NodeId)} {memo : Memo}
    (hparent : node.parent = none) (hid : id < memo.slots.size) (hopen : memo.slot id = .unresolved) :
    ComesTo memo (forest.findBase readBase id node)
      (fun base after ↦ Memo.Fills forest above (forest.Below id) memo after ∧
        ∀ found ∈ base, forest.Over above id found) fun _ _ ↦ True := by
  unfold findBase
  rw [hparent]
  have hnothing : Memo.Fills forest above (fun other ↦ forest.depth other < forest.depth id)
      (memo.fill id .resolving) (memo.fill id .resolving) := .refl _
  have hfilled : Memo.Fills forest above (forest.Below id) memo
      ((memo.fill id .resolving).fill id (.resolved none)) := hnothing.close hid hopen nofun
  rw [Memo.fill_fill] at hfilled
  exact .of_run rfl ⟨hfilled, nofun⟩

/-- The search for a base that is open, where less deep bases can be read. -/
theorem Orderly.comesTo_findBase [IsTrans NodeId above] (h : forest.Orderly)
    {readBase : NodeId → Lookup (Option NodeId)} (hnode : forest.node? id = some node) {memo : Memo}
    (hready : memo.Ready forest above (forest.depth id)) (hopen : memo.slot id = .unresolved)
    (hread : ∀ other memo, memo.Ready forest above (forest.depth other) → ComesTo memo (readBase other)
      (fun base after ↦ Memo.Fills forest above (forest.Below other) memo after ∧
        ∀ found ∈ base, forest.Over above other found) fun _ _ ↦ True) :
    ComesTo memo (forest.findBase readBase id node)
      (fun base after ↦ Memo.Fills forest above (forest.Below id) memo after ∧
        ∀ found ∈ base, forest.Over above id found) fun _ _ ↦ True := by
  have hid : id < memo.slots.size := hready.slots_size ▸ lt_of_node?_eq hnode
  cases hparent : node.parent with
  | none => exact comesTo_findBase_of_parentless hparent hid hopen
  | some parent =>
    have hparentOf := (parentOf_eq hnode).trans hparent
    have hdepth := h.closed.depth_of_parent hparentOf
    have hlevel : forest.depth parent < forest.depth id := hdepth ▸ Nat.lt_succ_self _
    -- While the base is sought, slots that are less deep than `id` may be filled.
    let kept := Memo.Fills forest above (fun other ↦ forest.depth other < forest.depth id)
      (memo.fill id .resolving)
    have hreadLess : ∀ other, forest.depth other = forest.depth parent →
        Sustains kept (fun _ _ ↦ True) (readBase other) fun base ↦
          ∀ found ∈ base, forest.Over above other found := by
      intro other hother between hbetween
      have hready' := (hready.mark (hother ▸ hlevel)).of_fills hbetween
      refine (hread other between hready').mono (fun base after hafter ↦ ⟨?_, hafter.2⟩) fun _ _ _ ↦ trivial
      refine hbetween.trans (hafter.1.mono ?_)
      rintro third (rfl | hlt)
      · exact hother ▸ hlevel
      · exact Nat.lt_trans hlt (hother ▸ hlevel)
    have hsearch : Sustains kept _ (forest.searchBase readBase id node.name parent) _ :=
      h.sustains_searchBase hnode hparentOf (fun _ _ _ _ ↦ trivial)
        (fun _ _ hmemo hevent ↦ hmemo.write hevent) hreadLess
    rw [findBase_eq_of_parent forest hparent]
    refine .of_run_eq (run_fill_bind ..) ?_
    refine (hsearch _ (.refl _)).bind fun base between hbetween ↦ ?_
    exact comesTo_keepBase hid hopen hbetween.1 hbetween.2

/-- A read of a base, while only reads of deeper bases are under way. -/
theorem Orderly.comesTo_baseWithin [IsTrans NodeId above] (h : forest.Orderly) {limit : Nat} {memo : Memo}
    (hready : memo.Ready forest above (forest.depth id)) :
    ComesTo memo (forest.baseWithin limit id)
      (fun base after ↦ Memo.Fills forest above (forest.Below id) memo after ∧
        ∀ found ∈ base, forest.Over above id found) fun _ _ ↦ True := by
  -- A read marks its node and reads less deep bases only, so `hready` passes on to them.
  induction limit generalizing id memo with
  | zero => exact .of_run_error rfl trivial
  | succ limit ih =>
    by_cases hid : id < forest.size
    · obtain ⟨node, hnode⟩ := exists_node?_of_lt hid
      refine .of_run_eq (run_baseWithin hnode limit) ?_
      cases hslot : memo.slot id with
      | resolved base =>
        exact .of_run rfl ⟨.refl memo, fun found hfound ↦ hready.base_over (hfound ▸ hslot)⟩
      | resolving => exact absurd (hready.resolving hslot) (Nat.lt_irrefl _)
      | unresolved => exact h.comesTo_findBase hnode hready hslot fun other memo hmemo ↦ ih hmemo
    · unfold baseWithin
      rw [node_eq_error hid]
      exact .of_run_error rfl trivial

end Forest

end Lineage
