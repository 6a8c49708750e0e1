import Lineage.Proofs.SlotMoves

/-!
# The laws of slots

A slot moves in few ways, whatever calls a client makes and whatever ids it names, calls that are cut
off midway included: `Move` lists them.  So a base that was found or set stays until it is set again,
and so does the mark that a read leaves behind when it is cut off.  Each base that is found is reported
once.  `Client.slots_after` collects what holds after any calls.
-/

namespace Lineage

open Lookup

variable {ε : Type}

/-! ## Moves -/

/-- How the slot of the node `id` may move in a call that comes to `result`. -/
inductive Move (call : Call ε) (result : Except Error (Outcome ε)) (id : NodeId) : Slot → Slot → Prop
  | stay (slot : Slot) : Move call result id slot slot
  | set {slot : Slot} {base : Option NodeId} : call.sets? = some (id, base) →
      Move call result id slot (.resolved base)
  | found {base : Option NodeId} : call.isEdit = false → Move call result id .unresolved (.resolved base)
  | interrupted : call.isEdit = false → Interrupted result → Move call result id .unresolved .resolving

namespace Move

variable {call : Call ε} {result : Except Error (Outcome ε)} {id : NodeId} {before after : Slot}

theorem of_advances (hread : call.isEdit = false) (h : Slot.Advances (Interrupted result) before after) :
    Move call result id before after := by
  cases h with
  | stay => exact .stay _
  | found base => exact .found hread
  | left hinterrupted => exact .interrupted hread hinterrupted

/-- No slot becomes unresolved. -/
theorem eq_unresolved (h : Move call result id before .unresolved) : before = .unresolved := by
  cases h
  rfl

/-- A slot that is not unresolved moves only when the base of its node is set. -/
theorem eq_of_ne_unresolved (h : Move call result id before after) (hbefore : before ≠ .unresolved)
    (hset : ∀ base, call.sets? ≠ some (id, base)) : after = before := by
  cases h with
  | stay => rfl
  | set hsets => exact absurd hsets (hset _)
  | found | interrupted => exact absurd rfl hbefore

end Move

namespace Client

variable [Family ε] {client : Client ε}

/-- A read changes nothing but slots. -/
theorem forest_step_of_read (client : Client ε) {call : Call ε} (hread : call.isEdit = false) :
    (client.step call).2.session.forest = client.session.forest :=
  (looked_step client hread).1

/-- There is a slot for each node. -/
def Synced (client : Client ε) : Prop :=
  client.session.memo.slots.size = client.session.forest.size

namespace Synced

variable (h : client.Synced)
include h

theorem progress_step {call : Call ε} (hread : call.isEdit = false) :
    Progress client.session.forest (Interrupted (client.step call).1) client.session.memo.restart
      (client.step call).2.session.memo :=
  (looked_step client hread).2 h

theorem step (call : Call ε) : (client.step call).2.Synced := by
  cases hedit : call.isEdit with
  | true => exact (edited_step client hedit).slots_size h
  | false =>
    unfold Synced
    rw [forest_step_of_read client hedit, (h.progress_step hedit).slots_size]
    exact h

theorem move (call : Call ε) (id : NodeId) : Move call (client.step call).1 id
    (client.session.memo.slot id) ((client.step call).2.session.memo.slot id) := by
  cases hedit : call.isEdit with
  | true =>
    rcases (edited_step client hedit).slot id with hsame | ⟨base, hset, hslot⟩
    · exact hsame ▸ .stay _
    · exact hslot ▸ .set hset
  | false =>
    exact .of_advances hedit ((h.progress_step hedit).slot id)

theorem after (calls : List (Call ε)) : (client.after calls).Synced :=
  after_induction Synced (fun call _ _ h ↦ h.step call) h

/-- A slot that is not unresolved stays as it is until the base of its node is set. -/
theorem slot_after {id : NodeId} {slot : Slot} (hslot : client.session.memo.slot id = slot)
    (hne : slot ≠ .unresolved) {calls : List (Call ε)}
    (hset : ∀ call ∈ calls, ∀ base, call.sets? ≠ some (id, base)) :
    (client.after calls).session.memo.slot id = slot := by
  induction calls generalizing client with
  | nil => exact hslot
  | cons call calls ih =>
    obtain ⟨hcall, hcalls⟩ := List.forall_mem_cons.mp hset
    have hstep := (hslot ▸ h.move call id).eq_of_ne_unresolved hne hcall
    exact ih (h.step call) hstep hcalls

end Synced

omit [Family ε] in
theorem synced_start (recording : Bool) : (start ε recording).Synced := rfl

omit [Family ε] in
theorem Synced.lt_of_slot_eq (h : client.Synced) {id : NodeId} {slot : Slot}
    (hslot : client.session.memo.slot id = slot) (hne : slot ≠ .unresolved) :
    id < client.session.forest.size := by
  by_contra hnot
  exact hne (hslot.symm.trans (Session.slot_of_not_lt fun hlt ↦ hnot (h ▸ hlt)))

theorem isSome_journal_after (h : client.Synced) (calls : List (Call ε)) :
    (client.after calls).session.memo.journal.isSome = client.session.memo.journal.isSome := by
  induction calls generalizing client with
  | nil => rfl
  | cons call calls ih =>
    refine (ih (h.step call)).trans ?_
    have hrestart : client.session.memo.restart.journal.isSome = client.session.memo.journal.isSome := by
      simp [Memo.restart]
    cases hedit : call.isEdit with
    | true => exact (edited_step client hedit).recording.trans hrestart
    | false => exact (h.progress_step hedit).recording.trans hrestart

end Client

/-! ## Reading a slot that is not unresolved -/

namespace Forest

variable {forest : Forest ε} {memo : Memo} {id : NodeId}

theorem run_baseWithin {node : Node ε} (hnode : forest.node? id = some node) (limit : Nat) :
    (forest.baseWithin (limit + 1) id).run memo = (match memo.slot id with
      | .resolved base => return base
      | .resolving => do
        Lookup.report do return .reentered id (← forest.path id)
        return none
      | .unresolved => forest.findBase (forest.baseWithin limit) id node : Lookup _).run memo := by
  unfold baseWithin
  rw [node_eq_ok hnode]
  rfl

theorem run_base_of_resolved {base : Option NodeId} (hid : id < forest.size)
    (hslot : memo.slot id = .resolved base) : (forest.base id).run memo = (.ok base, memo) := by
  obtain ⟨node, hnode⟩ := exists_node?_of_lt hid
  unfold Forest.base
  rw [run_baseWithin hnode, hslot]
  rfl

/-- At the mark of a read that was cut off, a read finds no base and leaves the mark. -/
theorem run_base_of_resolving (hid : id < forest.size) (hslot : memo.slot id = .resolving)
    (hsilent : memo.journal.isSome = false) : (forest.base id).run memo = (.ok none, memo) := by
  obtain ⟨node, hnode⟩ := exists_node?_of_lt hid
  unfold Forest.base
  rw [run_baseWithin hnode, hslot, run_bind, run_report_of_silent hsilent]
  rfl

end Forest

namespace Client

variable [Family ε] {client : Client ε} {id : NodeId}

theorem step_request (asked : Request ε) {reply : Reply ε} {after : Session ε}
    (hrun : asked.answer.run ⟨client.session.forest, client.session.memo.restart⟩ = (.ok reply, after)) :
    client.step (.request asked) =
      (.ok (.reply reply), ⟨after, if asked.isEdit then [] else client.walks⟩) := by
  have hperform := run_map asked.answer
    (fun reply ↦ (Outcome.reply reply, if asked.isEdit then [] else client.walks))
    ⟨client.session.forest, client.session.memo.restart⟩
  rw [hrun] at hperform
  unfold step Session.step Call.perform
  rw [hperform]
  rfl

theorem step_base {base : Option NodeId} {memo : Memo}
    (hrun : (client.session.forest.base id).run client.session.memo.restart = (.ok base, memo)) :
    client.step (.request (.query (.base id))) =
      (.ok (.reply (.id? base)), ⟨⟨client.session.forest, memo⟩, client.walks⟩) := by
  have hanswer := run_map (client.session.forest.base id) (Reply.id? : _ → Reply ε) client.session.memo.restart
  rw [hrun] at hanswer
  let session : Session ε := ⟨client.session.forest, client.session.memo.restart⟩
  have hlook : (Action.look fun forest ↦ (Query.base id).answer forest).run session =
      (.ok (.id? base), ⟨client.session.forest, memo⟩) := Action.run_look hanswer
  exact step_request (.query (.base id)) hlook

/-- The answer at a slot that is resolved. -/
theorem Synced.step_base_of_resolved (h : client.Synced) {base : Option NodeId}
    (hslot : client.session.memo.slot id = .resolved base) :
    (client.step (.request (.query (.base id)))).1 = .ok (.reply (.id? base)) := by
  have hrestarted : client.session.memo.restart.slot id = .resolved base := hslot
  rw [step_base (Forest.run_base_of_resolved (h.lt_of_slot_eq hslot nofun) hrestarted)]

/-- The answer at the mark of a read that was cut off.  It changes nothing at all. -/
theorem Synced.step_base_of_resolving (h : client.Synced)
    (hslot : client.session.memo.slot id = .resolving) (hsilent : client.session.memo.journal.isSome = false) :
    client.step (.request (.query (.base id))) = (.ok (.reply (.id? none)), client) := by
  have hrun := Forest.run_base_of_resolving (h.lt_of_slot_eq hslot nofun) hslot hsilent
  rw [← Memo.restart_of_silent hsilent] at hrun
  rw [step_base hrun, Memo.restart_of_silent hsilent]

/-- What is shown of a slot that is not unresolved. -/
theorem Synced.step_view_slot (h : client.Synced) {slot : Slot}
    (hslot : client.session.memo.slot id = slot) (hne : slot ≠ .unresolved) :
    (client.step (.request (.view (.slot id)))).1 = .ok (.reply (.slot slot)) := by
  obtain ⟨node, hnode⟩ := Forest.exists_node?_of_lt (h.lt_of_slot_eq hslot hne)
  let session : Session ε := ⟨client.session.forest, client.session.memo.restart⟩
  have hanswer : ((View.slot id).answer session.forest).run session.memo =
      (.ok (.slot slot), session.memo) := by
    have hok : session.forest.node id = .ok node := Forest.node_eq_ok hnode
    simp only [View.answer, hok]
    exact hslot ▸ rfl
  have hlook : (Action.look fun forest ↦ (View.slot id).answer forest).run session = _ :=
    Action.run_look hanswer
  rw [step_request (.view (.slot id)) hlook]

/-! ## What is reported -/

/-- The base of the node `id`, which has a parent, is found in a call that is no edit. -/
def Finds (client : Client ε) (call : Call ε) (id : NodeId) : Prop :=
  call.isEdit = false ∧
    Found client.session.forest client.session.memo (client.step call).2.session.memo id

theorem Synced.reported_step (h : client.Synced) (call : Call ε) :
    (client.step call).2.session.memo.reported.Nodup ∧
    (∀ id ∈ (client.step call).2.session.memo.reported, client.Finds call id) ∧
    (client.session.memo.journal.isSome → ¬ Interrupted (client.step call).1 →
      ∀ id, client.Finds call id → id ∈ (client.step call).2.session.memo.reported) := by
  cases hedit : call.isEdit with
  | true =>
    rw [(edited_step client hedit).reported, Memo.reported_restart]
    exact ⟨List.nodup_nil, nofun, fun _ _ id hfinds ↦ nomatch hedit.symm.trans hfinds.1⟩
  | false =>
    obtain ⟨ids, hreported, hnodup, hfound, hall⟩ := (h.progress_step hedit).reports
    rw [Memo.reported_restart, List.nil_append] at hreported
    rw [hreported]
    refine ⟨hnodup, fun id hid ↦ ⟨hedit, hfound id hid⟩, fun hrecording huncut id hfinds ↦ ?_⟩
    exact hall (by simpa [Memo.restart] using hrecording) huncut id hfinds.2

/-- The nodes whose bases are reported as found in the course of calls. -/
def reportedBy (client : Client ε) : List (Call ε) → List NodeId
  | [] => []
  | call :: calls =>
    (client.step call).2.session.memo.reported ++ (client.step call).2.reportedBy calls

theorem Synced.unresolved_of_mem_reportedBy (h : client.Synced) {calls : List (Call ε)}
    (hid : id ∈ client.reportedBy calls) : client.session.memo.slot id = .unresolved := by
  induction calls generalizing client with
  | nil => exact nomatch hid
  | cons call calls ih =>
    rcases List.mem_append.mp hid with hid | hid
    · exact ((h.reported_step call).2.1 id hid).2.2.1
    · exact (ih (h.step call) hid ▸ h.move call id).eq_unresolved

/-- No base is reported as found twice. -/
theorem Synced.nodup_reportedBy (h : client.Synced) (calls : List (Call ε)) :
    (client.reportedBy calls).Nodup := by
  induction calls generalizing client with
  | nil => exact List.nodup_nil
  | cons call calls ih =>
    obtain ⟨hnodup, hfinds, _⟩ := h.reported_step call
    refine List.nodup_append.mpr ⟨hnodup, ih (h.step call), ?_⟩
    rintro id hid _ hid' rfl
    have hresolved := (hfinds id hid).2.2.2
    rw [(h.step call).unresolved_of_mem_reportedBy hid'] at hresolved
    exact nomatch hresolved

/-- Where nothing is cut off, the bases that are reported are those that are found. -/
theorem Synced.mem_reportedBy_iff (h : client.Synced) (hrecording : client.session.memo.journal.isSome)
    {calls : List (Call ε)} (huncut : ∀ past call rest, calls = past ++ call :: rest →
      ¬ Interrupted ((client.after past).step call).1) : id ∈ client.reportedBy calls ↔
      ∃ past call rest, calls = past ++ call :: rest ∧ (client.after past).Finds call id := by
  induction calls generalizing client with
  | nil => simp [reportedBy]
  | cons call calls ih =>
    obtain ⟨_, hfinds, hall⟩ := h.reported_step call
    have hstep : id ∈ (client.step call).2.session.memo.reported ↔ client.Finds call id :=
      ⟨hfinds id, hall hrecording (huncut [] call calls rfl) id⟩
    have hrest := ih (h.step call) ((isSome_journal_after h [call]).symm ▸ hrecording)
      fun past other rest heq ↦ huncut (call :: past) other rest (congrArg (call :: ·) heq)
    rw [reportedBy, List.mem_append, hstep, hrest]
    constructor
    · rintro (hnow | ⟨past, other, rest, rfl, hlater⟩)
      · exact ⟨[], call, calls, rfl, hnow⟩
      · exact ⟨call :: past, other, rest, rfl, hlater⟩
    · rintro ⟨past, other, rest, heq, hother⟩
      cases past with
      | nil =>
        obtain ⟨rfl, rfl⟩ := List.cons.inj heq
        exact .inl hother
      | cons first past =>
        obtain ⟨rfl, rfl⟩ := List.cons.inj heq
        exact .inr ⟨past, other, rest, rfl, hother⟩

/-! ## The laws of slots -/

/-- What holds of the slots of a client, whatever it does next. -/
structure KeepsSlots (client : Client ε) : Prop where
  move : ∀ call id, Move call (client.step call).1 id (client.session.memo.slot id)
    ((client.step call).2.session.memo.slot id)
  read : ∀ call : Call ε, call.isEdit = false →
    (client.step call).2.session.forest = client.session.forest
  /-- A mark that was left behind stays until the base of its node is set.  It is shown as open, and
  where no journal is kept, reading the base there changes nothing. -/
  resolving : ∀ id later, client.session.memo.slot id = .resolving →
    (∀ call ∈ later, ∀ base, call.sets? ≠ some (id, base)) →
    (client.after later).session.memo.slot id = .resolving ∧
    (∃ slot, ((client.after later).step (.request (.view (.slot id)))).1 = .ok (.reply (.slot slot)) ∧
      slot.outcome = none) ∧
    (client.session.memo.journal = none →
      (client.after later).step (.request (.query (.base id))) =
        (.ok (.reply (.id? none)), client.after later))
  /-- A base that was found or set is the answer until the base of its node is set. -/
  resolved : ∀ id base later, client.session.memo.slot id = .resolved base →
    (∀ call ∈ later, ∀ base, call.sets? ≠ some (id, base)) →
    (client.after later).session.memo.slot id = .resolved base ∧
    ((client.after later).step (.request (.query (.base id)))).1 = .ok (.reply (.id? base))

theorem Synced.keepsSlots (h : client.Synced) : client.KeepsSlots where
  move := h.move
  read _ := forest_step_of_read client
  resolving id later hslot hset := by
    have hlater := h.slot_after hslot nofun hset
    refine ⟨hlater, ⟨_, (h.after later).step_view_slot hlater nofun, rfl⟩, fun hsilent ↦ ?_⟩
    have hjournal := isSome_journal_after h later
    rw [hsilent] at hjournal
    exact (h.after later).step_base_of_resolving hlater hjournal
  resolved id base later hslot hset := by
    have hlater := h.slot_after hslot nofun hset
    exact ⟨hlater, (h.after later).step_base_of_resolved hlater⟩

/-- After any calls, with any ids in them and some of them cut off, slots keep their laws.  No base is
reported as found twice, and if the calls were recorded and none was cut off, those reported are
those of nodes with a parent that were found by reads. -/
theorem slots_after (recording : Bool) (calls : List (Call ε)) :
    ((start ε recording).after calls).KeepsSlots ∧
    ((start ε recording).reportedBy calls).Nodup ∧
    (recording = true →
      (∀ past call rest, calls = past ++ call :: rest →
        ¬ Interrupted (((start ε recording).after past).step call).1) →
      ∀ id, id ∈ (start ε recording).reportedBy calls ↔
        ∃ past call rest, calls = past ++ call :: rest ∧
          ((start ε recording).after past).Finds call id) := by
  have hstart : (start ε recording).Synced := synced_start recording
  refine ⟨(hstart.after calls).keepsSlots, hstart.nodup_reportedBy calls, fun hrecording huncut id ↦ ?_⟩
  have hjournal : (start ε recording).session.memo.journal.isSome := by
    rw [hrecording]
    rfl
  exact hstart.mem_reportedBy_iff hjournal huncut

/-- The read of a base is cut off where the parent of the node is not there, and leaves its mark. -/
example :
    let orphan : Call Unit := .request (.edit (.insert "orphan" () (some 7) none))
    let read : Call Unit := .request (.query (.base 0))
    let client := (start Unit false).after [orphan, read]
    client.session.memo.slot 0 = .resolving ∧
      (((start Unit false).after [orphan]).step read).1 = .error (.outOfRange 7 1) :=
  ⟨by decide, rfl⟩

end Client

end Lineage
