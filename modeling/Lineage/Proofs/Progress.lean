import Lineage.Request
import Lineage.Proofs.Forest
import Lineage.Proofs.Lookup
import Mathlib.Data.List.Nodup

/-!
# What reads do to slots

Nothing is assumed here of the forest: ids may lead nowhere, and a read may be cut off midway.  Even
so a read resolves unresolved slots and changes no other slot.  Only a read that is cut off leaves
slots marked as resolving, namely those of the bases that it was about to find.

`Progress` says this of the memos before and after a read, and of what the journal reports between
them.  Progress composes (`Progress.trans`), so most reads make progress because their steps do; the
exception is the search for one base, which marks a slot first and resolves it last
(`Progress.close`).
-/

namespace Lineage

variable {ε α β : Type}

/-! ## Interruptions -/

/-- The errors that cut an operation off midway: an id that leads nowhere, or a walk without end. -/
def Error.Interrupts : Error → Prop
  | outOfRange _ _ | unending => True
  | childOfLeaf _ _ | cycle _ | unknownBlock _ => False

def Interrupted (result : Except Error α) : Prop :=
  ∃ error, result = .error error ∧ error.Interrupts

/-- What can fail by an interruption only. -/
def Interruptible (read : Except Error α) : Prop :=
  ∀ error, read = .error error → error.Interrupts

@[simp]
theorem interrupted_ok (value : α) : Interrupted (.ok value : Except Error α) ↔ False := by
  simp [Interrupted]

@[simp]
theorem interrupted_error (error : Error) :
    Interrupted (.error error : Except Error α) ↔ error.Interrupts := by
  simp [Interrupted]

theorem interrupted_map (result : Except Error α) (f : α → β) :
    Interrupted (result.map f) ↔ Interrupted result := by
  cases result <;> simp [Except.map]

theorem interruptible_pure (value : α) : Interruptible (pure value) := nofun

theorem Interruptible.bind {read : Except Error α} {next : α → Except Error β}
    (hread : Interruptible read) (hnext : ∀ value, Interruptible (next value)) :
    Interruptible (read >>= next) := by
  cases read with
  | ok value => exact hnext value
  | error error => exact fun other hother ↦ hread other (congrArg Except.error (Except.error.inj hother))

namespace Forest

variable (forest : Forest ε)

theorem node?_eq_of_node_eq_ok {id : NodeId} {node : Node ε} (h : forest.node id = .ok node) :
    forest.node? id = some node := by
  unfold Forest.node at h
  split at h
  next hfound => exact hfound.trans (congrArg some (Except.ok.inj h))
  next => exact nomatch h

theorem interruptible_node (id : NodeId) : Interruptible (forest.node id) := by
  intro error herror
  unfold node at herror
  split at herror
  next => exact nomatch herror
  next => exact Except.error.inj herror ▸ trivial

theorem interruptible_lineWithin (limit : Nat) (id : NodeId) :
    Interruptible (forest.lineWithin limit id) := by
  induction limit generalizing id with
  | zero => exact fun error herror ↦ Except.error.inj herror ▸ trivial
  | succ limit ih =>
    refine (forest.interruptible_node id).bind fun node ↦ ?_
    cases node.parent with
    | none => exact interruptible_pure _
    | some parent => exact (ih parent).bind fun _ ↦ interruptible_pure _

theorem interruptible_path (id : NodeId) : Interruptible (forest.path id) :=
  (forest.interruptible_lineWithin _ id).bind fun _ ↦ interruptible_pure _

theorem interruptible_child? (id : NodeId) (name : String) : Interruptible (forest.child? id name) :=
  (forest.interruptible_node id).bind fun _ ↦ interruptible_pure _

theorem interruptible_namesake? (id : NodeId) (name : String) (candidate : NodeId) :
    Interruptible (forest.namesake? id name candidate) :=
  (forest.interruptible_child? candidate name).bind fun _ ↦ interruptible_pure _

end Forest

/-! ## What the journal reports -/

/-- The node whose base an event says was found. -/
def Event.resolvedId? : Event → Option NodeId
  | resolved id _ _ => some id
  | reentered .. | startRefused _ | stepRefused .. | overwritten .. | wiring .. | built .. => none

namespace Memo

/-- The nodes whose bases were found, as the journal has it. -/
def reported (memo : Memo) : List NodeId :=
  (memo.journal.getD #[]).toList.filterMap Event.resolvedId?

theorem reported_write (memo : Memo) (event : Event) : (memo.write event).reported =
    memo.reported ++ if memo.journal.isSome then event.resolvedId?.toList else [] := by
  unfold reported write
  cases memo.journal with
  | none => rfl
  | some events =>
    simp only [Option.map_some, Option.getD_some, Array.toList_push, List.filterMap_append]
    cases event <;> rfl

theorem isSome_journal_write (memo : Memo) (event : Event) :
    (memo.write event).journal.isSome = memo.journal.isSome := by
  simp [write]

end Memo

/-! ## Progress -/

/-- How a read may change one slot. -/
inductive Slot.Advances (interrupted : Prop) : Slot → Slot → Prop
  | stay (slot : Slot) : Advances interrupted slot slot
  | found (base : Option NodeId) : Advances interrupted unresolved (resolved base)
  | left : interrupted → Advances interrupted unresolved resolving

namespace Slot.Advances

variable {interrupted : Prop} {before between after : Slot}

theorem eq_of_isResolved (h : Advances interrupted before after) (hbefore : before.isResolved) :
    after = before := by
  cases h with
  | stay => rfl
  | found | left => exact nomatch hbefore

theorem eq_unresolved (h : Advances interrupted before unresolved) : before = unresolved := by
  cases h
  rfl

theorem eq_resolving (h : Advances interrupted resolving after) : after = resolving := by
  cases h
  rfl

theorem eq_unresolved_or_isResolved (h : Advances False unresolved after) :
    after = unresolved ∨ after.isResolved := by
  cases h with
  | stay => exact .inl rfl
  | found base => exact .inr rfl
  | left hfalse => exact hfalse.elim

theorem trans (h : Advances False before between) (h' : Advances interrupted between after) :
    Advances interrupted before after := by
  cases h with
  | stay => exact h'
  | found base => exact h'.eq_of_isResolved rfl ▸ .found base
  | left hfalse => exact hfalse.elim

end Slot.Advances

/-- The node `id` has a parent, and its base was found between two memos. -/
def Found (forest : Forest ε) (before after : Memo) (id : NodeId) : Prop :=
  (forest.parentOf id).isSome ∧ before.slot id = .unresolved ∧ (after.slot id).isResolved

/-- What a read may have done between two memos.  The journal reports nodes whose bases were found,
each once, and all of them if the read was not interrupted. -/
structure Progress (forest : Forest ε) (interrupted : Prop) (before after : Memo) : Prop where
  slots_size : after.slots.size = before.slots.size
  recording : after.journal.isSome = before.journal.isSome
  slot : ∀ id, Slot.Advances interrupted (before.slot id) (after.slot id)
  reports : ∃ ids, after.reported = before.reported ++ ids ∧ ids.Nodup ∧
    (∀ id ∈ ids, Found forest before after id) ∧
    (before.journal.isSome → ¬ interrupted → ∀ id, Found forest before after id → id ∈ ids)

namespace Progress

variable {forest : Forest ε} {interrupted : Prop} {before between after : Memo}

theorem not_found_of_slot_eq {id : NodeId} (h : after.slot id = before.slot id) :
    ¬ Found forest before after id := by
  rintro ⟨_, hopen, hresolved⟩
  rw [h, hopen] at hresolved
  exact nomatch hresolved

theorem of_slots_eq (hslots : after.slots = before.slots)
    (hrecording : after.journal.isSome = before.journal.isSome) (hreported : after.reported = before.reported) :
    Progress forest interrupted before after := by
  have hslot : ∀ id, after.slot id = before.slot id := Memo.slot_eq_of_slots_eq hslots
  refine ⟨by rw [hslots], hrecording, fun id ↦ hslot id ▸ .stay _, [], by simp [hreported], ?_, ?_, ?_⟩
  · exact List.nodup_nil
  · simp
  · exact fun _ _ id hfound ↦ absurd hfound (not_found_of_slot_eq (hslot id))

theorem refl (forest : Forest ε) (interrupted : Prop) (memo : Memo) :
    Progress forest interrupted memo memo :=
  of_slots_eq rfl rfl rfl

theorem trans (h : Progress forest False before between)
    (h' : Progress forest interrupted between after) : Progress forest interrupted before after where
  slots_size := h'.slots_size.trans h.slots_size
  recording := h'.recording.trans h.recording
  slot id := (h.slot id).trans (h'.slot id)
  reports := by
    obtain ⟨ids, heq, hnodup, hfound, hall⟩ := h.reports
    obtain ⟨ids', heq', hnodup', hfound', hall'⟩ := h'.reports
    refine ⟨ids ++ ids', by rw [heq', heq, List.append_assoc], ?_, ?_, ?_⟩
    · refine List.nodup_append.mpr ⟨hnodup, hnodup', ?_⟩
      rintro id hid _ hid' rfl
      have hresolved := (hfound id hid).2.2
      rw [(hfound' id hid').2.1] at hresolved
      exact nomatch hresolved
    · intro id hid
      rcases List.mem_append.mp hid with hid | hid
      · obtain ⟨hparent, hopen, hresolved⟩ := hfound id hid
        exact ⟨hparent, hopen, (h'.slot id).eq_of_isResolved hresolved ▸ hresolved⟩
      · obtain ⟨hparent, hopen, hresolved⟩ := hfound' id hid
        exact ⟨hparent, (hopen ▸ h.slot id).eq_unresolved, hresolved⟩
    · intro hrecording hnot id ⟨hparent, hopen, hresolved⟩
      rcases (hopen ▸ h.slot id).eq_unresolved_or_isResolved with hstill | hfilled
      · exact List.mem_append_right _ (hall' (h.recording ▸ hrecording) hnot id ⟨hparent, hstill, hresolved⟩)
      · exact List.mem_append_left _ (hall hrecording not_false id ⟨hparent, hopen, hfilled⟩)

/-! ### One search -/

section Marked

variable {id : NodeId} (hid : id < before.slots.size) (hopen : before.slot id = .unresolved)
include hid

theorem found_fill_iff {other : NodeId} : Found forest (before.fill id .resolving) after other ↔
    other ≠ id ∧ Found forest before after other := by
  unfold Found
  by_cases hne : other = id
  · simp [hne, Memo.slot_fill_self hid]
  · simp [hne, Memo.slot_fill_of_ne hne]

include hopen

/-- A search that is interrupted leaves its mark behind. -/
theorem of_interrupted (h : Progress forest interrupted (before.fill id .resolving) after)
    (hinterrupted : interrupted) : Progress forest interrupted before after where
  slots_size := h.slots_size.trans (Memo.size_fill ..)
  recording := h.recording
  slot other := by
    have hslot := h.slot other
    by_cases hother : other = id
    · rw [hother, Memo.slot_fill_self hid] at hslot
      rw [hother, hslot.eq_resolving, hopen]
      exact .left hinterrupted
    · rwa [Memo.slot_fill_of_ne hother] at hslot
  reports := by
    obtain ⟨ids, heq, hnodup, hfound, _⟩ := h.reports
    exact ⟨ids, heq, hnodup, fun other hother ↦ ((found_fill_iff hid).mp (hfound other hother)).2,
      fun _ hnot ↦ absurd hinterrupted hnot⟩

section Close

variable {base : Option NodeId} (h : Progress forest False (before.fill id .resolving) between)
  (hslots : after.slots = (between.fill id (.resolved base)).slots)
include h hslots

omit hopen in
theorem slot_close (other : NodeId) :
    after.slot other = if other = id then .resolved base else between.slot other := by
  have hbetween : id < between.slots.size := by rwa [h.slots_size, Memo.size_fill]
  rw [Memo.slot_eq_of_slots_eq hslots, Memo.slot_fill]
  simp [hbetween]

/-- What a search finds is the base it seeks, and what the searches within it find. -/
theorem found_close_iff (hparent : (forest.parentOf id).isSome) {other : NodeId} :
    Found forest before after other ↔
      other = id ∨ Found forest (before.fill id .resolving) between other := by
  have hslot := slot_close hid h hslots other
  rw [found_fill_iff hid]
  by_cases hother : other = id
  · rw [if_pos hother] at hslot
    subst hother
    exact iff_of_true ⟨hparent, hopen, hslot ▸ rfl⟩ (.inl rfl)
  · rw [if_neg hother] at hslot
    simp [Found, hslot, hother]

theorem advances_close (other : NodeId) :
    Slot.Advances interrupted (before.slot other) (after.slot other) := by
  have hadvance := h.slot other
  rw [slot_close hid h hslots]
  split
  next hother =>
    rw [hother, hopen]
    exact .found base
  next hother =>
    rw [Memo.slot_fill_of_ne hother] at hadvance
    exact hadvance.trans (.stay _)

/-- A search that comes to an end resolves the slot that it marked, and may report it. -/
theorem close {last : List NodeId} (hparent : (forest.parentOf id).isSome)
    (hrecording : after.journal.isSome = between.journal.isSome)
    (hreported : after.reported = between.reported ++ last)
    (hlast : last = [id] ∨ last = [] ∧ (before.journal.isSome → interrupted)) :
    Progress forest interrupted before after := by
  obtain ⟨ids, heq, hnodup, hfound, hall⟩ := h.reports
  have hiff : ∀ other, Found forest before after other ↔ _ :=
    fun other ↦ found_close_iff hid hopen h hslots hparent
  have hnot : id ∉ ids := fun hmem ↦ ((found_fill_iff hid).mp (hfound id hmem)).1 rfl
  refine ⟨?_, hrecording.trans h.recording, advances_close hid hopen h hslots, ids ++ last, ?_, ?_⟩
  · rw [hslots, Memo.size_fill, h.slots_size, Memo.size_fill]
  · rw [hreported, heq, List.append_assoc]
    rfl
  have hkept : ∀ other ∈ ids, Found forest before after other :=
    fun other hmem ↦ (hiff other).mpr (.inr (hfound other hmem))
  rcases hlast with rfl | ⟨rfl, hinterrupted⟩
  · refine ⟨List.nodup_append.mpr ⟨hnodup, List.nodup_singleton id, ?_⟩, ?_, ?_⟩
    · rintro other hmem _ hlast rfl
      exact hnot (List.mem_singleton.mp hlast ▸ hmem)
    · intro other hmem
      rcases List.mem_append.mp hmem with hmem | hmem
      · exact hkept other hmem
      · exact (hiff other).mpr (.inl (List.mem_singleton.mp hmem))
    · intro hrec _ other hother
      rcases (hiff other).mp hother with rfl | hother
      · exact List.mem_append_right _ List.mem_cons_self
      · exact List.mem_append_left _ (hall hrec not_false other hother)
  · rw [List.append_nil]
    exact ⟨hnodup, hkept, fun hrec hgone ↦ absurd (hinterrupted hrec) hgone⟩

end Close

end Marked

end Progress

/-! ## Look-ups that make progress -/

namespace Lookup

/-- From `memo`, `look` makes progress, and fails only as `fails` allows. -/
structure ProgressesFrom (forest : Forest ε) (fails : Error → Prop) (memo : Memo) (look : Lookup α) :
    Prop where
  progress : Progress forest (Interrupted (look.run memo).1) memo (look.run memo).2
  allowed : ∀ error, (look.run memo).1 = .error error → fails error

/-- From every memo with a slot for each node, `look` makes progress. -/
def Progresses (forest : Forest ε) (fails : Error → Prop) (look : Lookup α) : Prop :=
  ∀ memo, memo.slots.size = forest.size → ProgressesFrom forest fails memo look

variable {forest : Forest ε} {fails : Error → Prop} {memo : Memo} {look : Lookup α}

theorem ProgressesFrom.of_run {result : Except Error α} {after : Memo} (hrun : look.run memo = (result, after))
    (hprogress : Progress forest (Interrupted result) memo after)
    (hallowed : ∀ error, result = .error error → fails error) :
    ProgressesFrom forest fails memo look := by
  constructor <;> rw [hrun]
  · exact hprogress
  · exact hallowed

theorem ProgressesFrom.bind {next : α → Lookup β} (h : ProgressesFrom forest fails memo look)
    (hnext : ∀ value after, look.run memo = (.ok value, after) →
      ProgressesFrom forest fails after (next value)) :
    ProgressesFrom forest fails memo (look >>= next) := by
  obtain ⟨hprogress, hallowed⟩ := h
  rcases hrun : look.run memo with ⟨result, after⟩
  rw [hrun] at hprogress hallowed
  have hwhole := run_bind look next memo
  rw [hrun] at hwhole
  cases result with
  | error error =>
    refine .of_run hwhole ?_ fun other hother ↦ hallowed other (Except.error.inj hother ▸ rfl)
    simpa using hprogress
  | ok value =>
    obtain ⟨hrest, hfails⟩ := hnext value after hrun
    exact .of_run hwhole (Progress.trans (by simpa using hprogress) hrest) hfails

theorem Progresses.bind {next : α → Lookup β} (h : Progresses forest fails look)
    (hnext : ∀ value, Progresses forest fails (next value)) :
    Progresses forest fails (look >>= next) := by
  intro memo hmemo
  refine (h memo hmemo).bind fun value after hrun ↦ hnext value after ?_
  have hsize := (h memo hmemo).progress.slots_size
  rw [hrun] at hsize
  exact hsize.trans hmemo

theorem Progresses.weaken {fails' : Error → Prop} (h : Progresses forest fails look)
    (himp : ∀ error, fails error → fails' error) : Progresses forest fails' look :=
  fun memo hmemo ↦ ⟨(h memo hmemo).progress, fun error herror ↦ himp error ((h memo hmemo).allowed error herror)⟩

theorem progresses_pure (value : α) : Progresses forest fails (pure value) :=
  fun memo _ ↦ .of_run rfl (.refl forest _ memo) nofun

theorem progresses_throw {error : Error} (herror : fails error) :
    Progresses forest fails (throw error : Lookup α) :=
  fun memo _ ↦ .of_run rfl (.refl forest _ memo) fun _ hother ↦ Except.error.inj hother ▸ herror

theorem progresses_liftM {read : Except Error α} (hread : ∀ error, read = .error error → fails error) :
    Progresses forest fails (liftM read : Lookup α) :=
  fun memo _ ↦ .of_run rfl (.refl forest _ memo) hread

theorem progresses_mapM {look : α → Lookup β} (h : ∀ item, Progresses forest fails (look item))
    (items : List α) : Progresses forest fails (items.mapM look) := by
  induction items with
  | nil => exact progresses_pure []
  | cons item items ih =>
    rw [List.mapM_cons]
    exact (h item).bind fun _ ↦ ih.bind fun _ ↦ progresses_pure _

theorem progresses_foldlM {look : β → α → Lookup β} (h : ∀ merged item, Progresses forest fails (look merged item))
    (items : List α) (start : β) : Progresses forest fails (items.foldlM look start) := by
  induction items generalizing start with
  | nil => exact progresses_pure start
  | cons item items ih =>
    rw [List.foldlM_cons]
    exact (h start item).bind ih

/-! ### Reports -/

/-- `event` comes to an event of `told`, unless it is interrupted; either way it leaves the memo alone. -/
def Tells (told : Event → Prop) (event : Lookup Event) : Prop :=
  ∃ read : Except Error Event, (∀ memo, event.run memo = (read, memo)) ∧ Interruptible read ∧
    ∀ written, read = .ok written → told written

theorem tells_pure {told : Event → Prop} {event : Event} (h : told event) : Tells told (pure event) :=
  ⟨.ok event, fun _ ↦ rfl, nofun, fun _ hwritten ↦ Except.ok.inj hwritten ▸ h⟩

theorem tells_path {told : Event → Prop} {next : String → Lookup Event}
    (hnext : ∀ path, Tells told (next path)) (id : NodeId) :
    Tells told (liftM (forest.path id) >>= next) := by
  have hinterruptible := forest.interruptible_path id
  cases hpath : forest.path id with
  | ok path => exact hnext path
  | error error =>
    refine ⟨.error error, fun _ ↦ rfl, fun other hother ↦ ?_, nofun⟩
    exact hinterruptible other (Except.error.inj hother ▸ hpath)

theorem run_report_of_silent {memo : Memo} (h : memo.journal.isSome = false) (event : Lookup Event) :
    (report event).run memo = (.ok (), memo) := by
  change (if memo.journal.isSome then _ else _ : Lookup Unit).run memo = _
  rw [h]
  rfl

theorem run_report_of_recording {memo : Memo} (h : memo.journal.isSome = true) {event : Lookup Event}
    {read : Except Error Event} (hevent : event.run memo = (read, memo)) : (report event).run memo =
      (read.map fun _ ↦ (), read.toOption.elim memo memo.write) := by
  change (if memo.journal.isSome then _ else _ : Lookup Unit).run memo = _
  rw [h, if_pos rfl, run_bind, hevent]
  cases read <;> rfl

theorem progresses_report {event : Lookup Event} (h : Tells (·.resolvedId? = none) event) :
    Progresses forest Error.Interrupts (report event) := by
  intro memo _
  obtain ⟨read, hevent, hinterruptible, hother⟩ := h
  cases hrecording : memo.journal.isSome with
  | false => exact .of_run (run_report_of_silent hrecording event) (.refl forest _ memo) nofun
  | true =>
    have hrun := run_report_of_recording hrecording (hevent memo)
    cases read with
    | error error =>
      refine .of_run hrun (.refl forest _ memo) fun other hother ↦ ?_
      exact hinterruptible other (Except.error.inj hother ▸ rfl)
    | ok written =>
      refine .of_run hrun (.of_slots_eq rfl (Memo.isSome_journal_write ..) ?_) nofun
      change (memo.write written).reported = memo.reported
      simp [Memo.reported_write, hother written rfl]

theorem run_fill_bind (id : NodeId) (slot : Slot) (next : Unit → Lookup β) (memo : Memo) :
    (fill id slot >>= next).run memo = (next ()).run (memo.fill id slot) := rfl

/-! ### Walks -/

section Walks

variable {readBase : NodeId → Lookup (Option NodeId)}
  (hread : ∀ id, Progresses forest Error.Interrupts (readBase id))

theorem progresses_start (origin : NodeId) (first : Option NodeId) :
    Progresses forest Error.Interrupts (Walk.start forest origin first) := by
  cases first with
  | none => exact progresses_pure _
  | some first =>
    unfold Walk.start
    by_cases heq : first = origin
    · simp only [if_pos heq]
      refine (progresses_report ?_).bind fun _ ↦ progresses_pure _
      refine tells_path (fun _ ↦ ?_) first
      exact tells_pure rfl
    · simp only [if_neg heq]
      exact progresses_pure _

include hread

theorem progresses_next (walk : Walk) :
    Progresses forest Error.Interrupts (walk.next forest readBase) := by
  obtain ⟨position, seen⟩ := walk
  cases position with
  | before first => exact progresses_pure _
  | ended => exact progresses_pure _
  | standing node =>
    refine (hread node).bind fun base ↦ ?_
    cases base with
    | none => exact progresses_pure _
    | some base =>
      by_cases hseen : base ∈ seen
      · simp only [if_pos hseen]
        refine (progresses_report ?_).bind fun _ ↦ progresses_pure _
        refine tells_path (fun _ ↦ tells_path (fun _ ↦ ?_) base) node
        exact tells_pure rfl
      · simp only [if_neg hseen]
        exact progresses_pure _

theorem progresses_findSome? {test : NodeId → Lookup (Option β)}
    (htest : ∀ id, Progresses forest Error.Interrupts (test id)) (limit : Nat) (walk : Walk) :
    Progresses forest Error.Interrupts (walk.findSome? forest readBase test limit) := by
  induction limit generalizing walk with
  | zero => exact progresses_throw trivial
  | succ limit ih =>
    refine (progresses_next hread walk).bind fun (item, walk) ↦ ?_
    cases item with
    | none => exact progresses_pure _
    | some node =>
      refine (htest node).bind fun found ↦ ?_
      cases found with
      | some found => exact progresses_pure _
      | none => exact ih walk

theorem progresses_toList (limit : Nat) (walk : Walk) :
    Progresses forest Error.Interrupts (walk.toList forest readBase limit) := by
  induction limit generalizing walk with
  | zero => exact progresses_throw trivial
  | succ limit ih =>
    refine (progresses_next hread walk).bind fun (item, walk) ↦ ?_
    cases item with
    | none => exact progresses_pure _
    | some node => exact (ih walk).bind fun _ ↦ progresses_pure _

theorem progresses_take (count : Nat) (walk : Walk) :
    Progresses forest Error.Interrupts (walk.take forest readBase count) := by
  induction count generalizing walk with
  | zero => exact progresses_pure _
  | succ count ih =>
    exact (progresses_next hread walk).bind fun (_, walk) ↦ (ih walk).bind fun _ ↦ progresses_pure _

end Walks

end Lookup

/-! ## Reading bases -/

namespace Forest

open Lookup

variable (forest : Forest ε)

/-- The search for the base of the node `id` of a given name, along the walk from its parent. -/
def searchBase (readBase : NodeId → Lookup (Option NodeId)) (id : NodeId) (name : String)
    (parent : NodeId) : Lookup (Option NodeId) := do
  let walk ← Walk.start forest parent (← readBase parent)
  walk.findSome? forest readBase (fun candidate ↦ forest.namesake? id name candidate) forest.walkLimit

/-- Keep the base that was found for a node, and report it. -/
def keepBase (id : NodeId) (base : Option NodeId) : Lookup (Option NodeId) := do
  Lookup.fill id (.resolved base)
  Lookup.report do
    let nodePath ← forest.path id
    return .resolved id nodePath (← base.mapM (forest.path ·))
  return base

theorem findBase_eq_of_parent {readBase : NodeId → Lookup (Option NodeId)} {id parent : NodeId}
    {node : Node ε} (hparent : node.parent = some parent) : forest.findBase readBase id node =
      fill id .resolving >>= fun _ ↦
        forest.searchBase readBase id node.name parent >>= forest.keepBase id := by
  unfold findBase searchBase keepBase
  rw [hparent]
  simp only [bind_assoc]

theorem progresses_searchBase {readBase : NodeId → Lookup (Option NodeId)}
    (hread : ∀ id, Progresses forest Error.Interrupts (readBase id)) (id : NodeId) (name : String)
    (parent : NodeId) : Progresses forest Error.Interrupts (forest.searchBase readBase id name parent) := by
  refine (hread parent).bind fun first ↦ (progresses_start parent first).bind fun walk ↦ ?_
  refine progresses_findSome? hread (fun candidate ↦ ?_) _ walk
  exact progresses_liftM (forest.interruptible_namesake? id name candidate)

theorem tells_resolved {told : Event → Prop} (id : NodeId)
    (htold : ∀ nodePath basePath, told (.resolved id nodePath basePath)) (base : Option NodeId) : Tells told (do
    let nodePath ← forest.path id
    return .resolved id nodePath (← base.mapM (forest.path ·)) : Lookup Event) := by
  refine tells_path (fun nodePath ↦ ?_) id
  cases base with
  | none => exact tells_pure (htold nodePath none)
  | some base =>
    simp only [Option.mapM_some, bind_map_left]
    refine tells_path (fun basePath ↦ ?_) base
    exact tells_pure (htold nodePath (some basePath))

/-- Keeping a base resolves its slot.  If the journal does not report it, the report was interrupted. -/
theorem run_keepBase (id : NodeId) (base : Option NodeId) (memo : Memo) : ∃ result after last,
    (forest.keepBase id base).run memo = (result, after) ∧ Interruptible result ∧
    after.slots = (memo.fill id (.resolved base)).slots ∧
    after.journal.isSome = memo.journal.isSome ∧ after.reported = memo.reported ++ last ∧
    (last = [id] ∨ last = [] ∧ (memo.journal.isSome → Interrupted result)) := by
  have htells : Tells (·.resolvedId? = some id) _ := tells_resolved forest id (fun _ _ ↦ rfl) base
  obtain ⟨read, hevent, hinterruptible, hwritten⟩ := htells
  unfold keepBase
  rw [run_fill_bind, run_bind]
  have hfilled : (memo.fill id (.resolved base)).journal.isSome = memo.journal.isSome := rfl
  cases hrecording : memo.journal.isSome with
  | false =>
    rw [run_report_of_silent (hfilled.trans hrecording)]
    exact ⟨_, _, [], rfl, nofun, rfl, hrecording, (List.append_nil _).symm, .inr ⟨rfl, nofun⟩⟩
  | true =>
    rw [run_report_of_recording (hfilled.trans hrecording) (hevent _)]
    cases read with
    | error error =>
      have herror := hinterruptible error rfl
      refine ⟨_, _, [], rfl, ?_, rfl, hrecording, (List.append_nil _).symm, .inr ⟨rfl, fun _ ↦ ?_⟩⟩
      · exact fun other hother ↦ Except.error.inj hother ▸ herror
      · exact (interrupted_error error).mpr herror
    | ok written =>
      refine ⟨_, _, [id], rfl, nofun, rfl, ?_, ?_, .inl rfl⟩
      · exact (Memo.isSome_journal_write ..).trans hrecording
      · change ((memo.fill id (.resolved base)).write written).reported = _
        rw [Memo.reported_write, hwritten written rfl, hfilled, hrecording]
        rfl

variable {forest}

/-- A node without parent has its slot resolved, and no more. -/
theorem progress_fill_parentless {memo : Memo} {id : NodeId} (hid : id < memo.slots.size)
    (hopen : memo.slot id = .unresolved) (hparent : ¬ (forest.parentOf id).isSome)
    (interrupted : Prop) (base : Option NodeId) :
    Progress forest interrupted memo (memo.fill id (.resolved base)) := by
  refine ⟨Memo.size_fill .., rfl, fun other ↦ ?_, [], (List.append_nil _).symm, List.nodup_nil, nofun, ?_⟩
  · by_cases hother : other = id
    · rw [hother, Memo.slot_fill_self hid, hopen]
      exact .found base
    · rw [Memo.slot_fill_of_ne hother]
      exact .stay _
  · intro _ _ other hfound
    by_cases hother : other = id
    · exact absurd (hother ▸ hfound.1) hparent
    · exact absurd hfound (Progress.not_found_of_slot_eq (Memo.slot_fill_of_ne hother ..))

/-- The search for the base of a node whose slot is unresolved. -/
theorem progressesFrom_findBase {readBase : NodeId → Lookup (Option NodeId)}
    (hread : ∀ id, Progresses forest Error.Interrupts (readBase id)) {id : NodeId} {node : Node ε}
    (hnode : forest.node? id = some node) {memo : Memo} (hsize : memo.slots.size = forest.size)
    (hopen : memo.slot id = .unresolved) :
    ProgressesFrom forest Error.Interrupts memo (forest.findBase readBase id node) := by
  have hid : id < memo.slots.size := hsize ▸ Forest.lt_of_node?_eq hnode
  have hparentOf := Forest.parentOf_eq hnode
  cases hparent : node.parent with
  | none =>
    have hrun : (forest.findBase readBase id node).run memo = (.ok none, memo.fill id (.resolved none)) := by
      unfold findBase
      rw [hparent]
      rfl
    exact .of_run hrun (progress_fill_parentless hid hopen (by simp [hparentOf, hparent]) _ _) nofun
  | some parent =>
    rw [findBase_eq_of_parent forest hparent]
    have hmarked : (memo.fill id .resolving).slots.size = forest.size := (Memo.size_fill ..).trans hsize
    obtain ⟨hsearch, hfails⟩ :=
      progresses_searchBase forest hread id node.name parent (memo.fill id .resolving) hmarked
    have hrun := run_bind (forest.searchBase readBase id node.name parent) (forest.keepBase id)
      (memo.fill id .resolving)
    rw [← run_fill_bind id .resolving
      (fun _ ↦ forest.searchBase readBase id node.name parent >>= forest.keepBase id)] at hrun
    rcases hfound : (forest.searchBase readBase id node.name parent).run (memo.fill id .resolving)
      with ⟨⟨error⟩ | ⟨base⟩, between⟩
    all_goals rw [hfound] at hsearch hfails hrun
    · have herror := hfails error rfl
      refine .of_run hrun (.of_interrupted hid hopen (by simpa using hsearch) ?_) fun other hother ↦ ?_
      · exact (interrupted_error error).mpr herror
      · exact Except.error.inj hother ▸ herror
    · obtain ⟨result, after, last, hkeep, hinterruptible, hslots, hrecording, hreported, hlast⟩ :=
        run_keepBase forest id base between
      refine .of_run (hrun.trans hkeep) ?_ hinterruptible
      have hsearch : Progress forest False (memo.fill id .resolving) between := by simpa using hsearch
      refine .close hid hopen hsearch hslots (by simp [hparentOf, hparent]) hrecording hreported ?_
      exact hlast.imp_right fun ⟨hnil, hgone⟩ ↦ ⟨hnil, fun hrec ↦ hgone (hsearch.recording ▸ hrec)⟩

theorem progresses_baseWithin (depth : Nat) (id : NodeId) :
    Progresses forest Error.Interrupts (forest.baseWithin depth id) := by
  induction depth generalizing id with
  | zero => exact progresses_throw trivial
  | succ depth ih =>
    intro memo hsize
    refine (progresses_liftM (forest.interruptible_node id) memo hsize).bind fun node after hrun ↦ ?_
    obtain ⟨hnode, rfl⟩ := Prod.mk.inj hrun
    refine ProgressesFrom.bind (.of_run rfl (.refl forest _ memo) nofun) fun slot after hrun ↦ ?_
    obtain ⟨hslot, rfl⟩ := Prod.mk.inj hrun
    obtain rfl := Except.ok.inj hslot
    cases hslot : memo.slot id with
    | resolved base => exact progresses_pure base memo hsize
    | resolving =>
      have hreport : Tells (·.resolvedId? = none) (do return .reentered id (← forest.path id)) := by
        refine tells_path (fun _ ↦ ?_) id
        exact tells_pure rfl
      exact (progresses_report hreport).bind (fun _ ↦ progresses_pure none) memo hsize
    | unresolved => exact progressesFrom_findBase ih (forest.node?_eq_of_node_eq_ok hnode) hsize hslot

theorem progresses_base (id : NodeId) : Progresses forest Error.Interrupts (forest.base id) :=
  progresses_baseWithin _ id

/-! ## Queries -/

theorem progresses_baseWalk (id : NodeId) : Progresses forest Error.Interrupts (forest.baseWalk id) :=
  (progresses_base id).bind fun first ↦ progresses_start id first

theorem progresses_chain (id : NodeId) : Progresses forest Error.Interrupts (forest.chain id) :=
  (progresses_baseWalk id).bind fun walk ↦ progresses_toList progresses_base _ walk

theorem progresses_chainPrefix (id : NodeId) (count : Nat) :
    Progresses forest Error.Interrupts (forest.chainPrefix id count) :=
  (progresses_baseWalk id).bind fun walk ↦ progresses_take progresses_base count walk

theorem progresses_inheritsFrom (id ancestor : NodeId) :
    Progresses forest Error.Interrupts (forest.inheritsFrom id ancestor) := by
  refine (progresses_baseWalk id).bind fun walk ↦ ?_
  exact (progresses_findSome? progresses_base (fun _ ↦ progresses_pure _) _ walk).bind
    fun _ ↦ progresses_pure _

theorem progresses_inheritance (id : NodeId) :
    Progresses forest Error.Interrupts (forest.inheritance id) :=
  (progresses_chain id).bind fun _ ↦ progresses_pure _

theorem progresses_visibleChild (id : NodeId) (name : String) :
    Progresses forest Error.Interrupts (forest.visibleChild id name) := by
  refine (progresses_liftM (forest.interruptible_child? id name)).bind fun child ↦ ?_
  cases child with
  | some child => exact progresses_pure _
  | none =>
    refine (progresses_baseWalk id).bind fun walk ↦ ?_
    refine progresses_findSome? progresses_base (fun base ↦ ?_) _ walk
    exact progresses_liftM (forest.interruptible_child? base name)

theorem progresses_visibleChildren (id : NodeId) :
    Progresses forest Error.Interrupts (forest.visibleChildren id) := by
  refine (progresses_inheritance id).bind fun line ↦ progresses_foldlM (fun merged ancestor ↦ ?_) _ _
  exact (progresses_liftM (forest.interruptible_node ancestor)).bind fun _ ↦ progresses_pure _

/-- A strict chain may be refused as well.  That is no interruption. -/
theorem progresses_strictInheritance (id : NodeId) :
    Progresses forest (fun _ ↦ True) (forest.strictInheritance id) := by
  have hwithin : ∀ limit node met,
      Progresses forest (fun _ ↦ True) (forest.strictInheritanceWithin limit node met) := by
    intro limit
    induction limit with
    | zero => exact fun _ _ ↦ progresses_throw trivial
    | succ limit ih =>
      intro node met
      refine ((progresses_base node).weaken fun _ _ ↦ trivial).bind fun base ↦ ?_
      cases base with
      | none => exact progresses_pure _
      | some base =>
        by_cases hmem : base ∈ met
        · simp only [if_pos hmem]
          exact (progresses_mapM (fun _ ↦ progresses_liftM fun _ _ ↦ trivial) _).bind
            fun _ ↦ progresses_throw trivial
        · simp only [if_neg hmem]
          exact ih base (base :: met)
  exact hwithin _ _ _

theorem progresses_query (query : Query) :
    Progresses forest (fun _ ↦ True) (query.answer forest) := by
  have hweaken : ∀ {α : Type} {look : Lookup α} {f : α → Reply ε},
      Progresses forest Error.Interrupts look →
      Progresses forest (fun _ ↦ True) (look >>= fun value ↦ pure (f value)) :=
    fun h ↦ (h.weaken fun _ _ ↦ trivial).bind fun _ ↦ progresses_pure _
  cases query with
  | base id => exact hweaken (progresses_base id)
  | chain id => exact hweaken (progresses_chain id)
  | chainPrefix id count => exact hweaken (progresses_chainPrefix id count)
  | inheritsFrom id ancestor => exact hweaken (progresses_inheritsFrom id ancestor)
  | inheritance id => exact hweaken (progresses_inheritance id)
  | strictInheritance id => exact (progresses_strictInheritance id).bind fun _ ↦ progresses_pure _
  | visibleChild id name => exact hweaken (progresses_visibleChild id name)
  | visibleChildren id => exact hweaken (progresses_visibleChildren id)

end Forest

theorem Style.progresses_visibleDeclarations (forest : Forest Style) (id : NodeId) :
    Lookup.Progresses forest Error.Interrupts (visibleDeclarations forest id) := by
  refine (Forest.progresses_inheritance id).bind fun line ↦ ?_
  refine (Lookup.progresses_mapM (fun ancestor ↦ ?_) _).bind fun _ ↦ Lookup.progresses_pure _
  exact (Lookup.progresses_liftM (forest.interruptible_node ancestor)).bind fun _ ↦ Lookup.progresses_pure _

end Lineage
