import Lineage.Proofs.LayeredCalls

/-!
# Runs in layers

Suppose that bases are only ever set between nodes of one depth, in circles or not (`Stratified`).  Then
every base that is known, set or found, is as deep as its node, no read comes back to a node whose base
is being sought, and the read of a base leaves alone all other slots of its depth and more.

So the first steps of a walk along bases leave open what they do not need, and what is added to the
forest afterwards still counts when such a slot is read (`Client.SeesGrowth`).  `Client.layered_after`
collects what holds after every run.
-/

namespace Lineage

open Lookup

variable {ε : Type}

/-- Every root is above every other. -/
abbrev AnyRoots : NodeId → NodeId → Prop := fun _ _ ↦ True

instance : IsTrans NodeId AnyRoots := ⟨fun _ _ _ _ _ ↦ trivial⟩

theorem Forest.Orderly.over_of_same_depth {forest : Forest ε} (h : forest.Orderly) {id base : NodeId}
    (hid : id < forest.size) (hbase : base < forest.size) (hdepth : forest.depth base = forest.depth id) :
    forest.Over AnyRoots id base := by
  obtain ⟨root, hroot, _⟩ := h.exists_root hid
  obtain ⟨top, htop, _⟩ := h.exists_root hbase
  exact ⟨hdepth, root, top, hroot, htop, trivial⟩

namespace Client

variable [Family ε] {client : Client ε} {calls : List (Call ε)}

/-! ## Runs -/

/-- The base that a call sets, if it sets one, is as deep as its node. -/
def KeepsDepth (client : Client ε) (call : Call ε) : Prop :=
  ∀ set ∈ call.sets?, ∀ base ∈ set.2, set.1 < client.session.forest.size ∧
    base < client.session.forest.size ∧ client.session.forest.depth base = client.session.forest.depth set.1

instance (client : Client ε) (call : Call ε) : Decidable (client.KeepsDepth call) :=
  inferInstanceAs (Decidable (∀ set ∈ call.sets?, ∀ base ∈ set.2, _))

/-- Orderly calls, each of which keeps depths where it is made. -/
def Stratified (client : Client ε) : List (Call ε) → Prop
  | [] => True
  | call :: calls =>
    call.isOrderly = true ∧ client.KeepsDepth call ∧ (client.step call).2.Stratified calls

instance decidableStratified : (client : Client ε) → (calls : List (Call ε)) →
    Decidable (client.Stratified calls)
  | _, [] => inferInstanceAs (Decidable True)
  | client, call :: calls =>
    have := decidableStratified (client.step call).2 calls
    inferInstanceAs (Decidable (_ ∧ _ ∧ _))

theorem stratified_append {past rest : List (Call ε)} : client.Stratified (past ++ rest) ↔
    client.Stratified past ∧ (client.after past).Stratified rest := by
  induction past generalizing client with
  | nil => simp [Stratified, after]
  | cons call past ih => simp only [List.cons_append, Stratified, ih, and_assoc]; rfl

theorem Layered.step_of_keepsDepth (h : client.Layered AnyRoots) {call : Call ε}
    (horderly : call.isOrderly = true) (hdepth : client.KeepsDepth call) :
    (client.step call).2.Layered AnyRoots := by
  apply h.step horderly
  intro id base hset
  obtain ⟨hid, hbase, hsame⟩ := hdepth _ hset base rfl
  exact h.session.orderly.over_of_same_depth hid hbase hsame

theorem Layered.after (h : client.Layered AnyRoots) (hcalls : client.Stratified calls) :
    (client.after calls).Layered AnyRoots := by
  induction calls generalizing client with
  | nil => exact h
  | cons call calls ih =>
    obtain ⟨horderly, hdepth, hcalls⟩ := hcalls
    exact ih (h.step_of_keepsDepth horderly hdepth) hcalls

theorem Stratified.isOrderly (hcalls : client.Stratified calls) :
    ∀ call ∈ calls, call.isOrderly = true := by
  induction calls generalizing client with
  | nil => exact nofun
  | cons call calls ih => exact List.forall_mem_cons.mpr ⟨hcalls.1, ih hcalls.2.2⟩

/-- Calls that set no base keep depths. -/
theorem stratified_of_sets?_eq_none (h : ∀ call ∈ calls, call.isOrderly = true ∧ call.sets? = none) :
    client.Stratified calls := by
  induction calls generalizing client with
  | nil => trivial
  | cons call calls ih =>
    obtain ⟨⟨horderly, hsets⟩, hcalls⟩ := List.forall_mem_cons.mp h
    exact ⟨horderly, fun set hset ↦ (nomatch hsets.symm.trans hset), ih hcalls⟩

/-- Edits that set no base leave all slots as they are. -/
theorem slot_after_of_edits (h : ∀ call ∈ calls, call.isEdit = true ∧ call.sets? = none) (id : NodeId) :
    (client.after calls).session.memo.slot id = client.session.memo.slot id := by
  induction calls generalizing client with
  | nil => rfl
  | cons call calls ih =>
    obtain ⟨⟨hedit, hsets⟩, hcalls⟩ := List.forall_mem_cons.mp h
    have hstep := (edited_step client hedit).slot id
    exact (ih hcalls).trans (hstep.resolve_right fun ⟨_, hset, _⟩ ↦ nomatch hsets.symm.trans hset)

/-- Orderly calls only add to a forest. -/
theorem grows_after (client : Client ε) (horderly : ∀ call ∈ calls, call.isOrderly = true) :
    Forest.Grows client.session.forest (client.after calls).session.forest :=
  forest_after (fun _ _ _ hchange hgrows ↦ hgrows.trans hchange.grows) horderly (.refl _)

/-! ## First reads -/

/-- The base of `id` is still to be found, and a read of it goes by the chain of its parent and the
children that are there now. -/
def SeesGrowth (client : Client ε) (id : NodeId) : Prop :=
  client.session.memo.slot id = .unresolved ∧ ∀ node, client.session.forest.node? id = some node →
    ∃ base, (client.step (.request (.query (.base id)))).1 = .ok (.reply (.id? base)) ∧
      match node.parent with
      | none => base = none
      | some parent => ∃ line,
        (client.step (.request (.query (.chain parent)))).1 = .ok (.reply (.ids line)) ∧
        line.findSomeM? (fun met ↦ do
          return (← client.session.forest.child? met node.name).filter (· ≠ id)) = .ok base

theorem seesGrowth_of_unresolved (h : client.session.Valid) {id : NodeId}
    (hopen : client.session.memo.slot id = .unresolved) : client.SeesGrowth id := by
  refine ⟨hopen, fun node hnode ↦ ?_⟩
  have hrestart : Session.Valid ⟨client.session.forest, client.session.memo.restart⟩ := h.of_slots_eq rfl
  have hopen' : client.session.memo.restart.slot id = .unresolved := hopen
  obtain ⟨base, after, hrun, -, hequation⟩ := hrestart.base_equation hnode
  have hbase := (client.step_query (.base id) (client.session.forest.base id) .id? rfl).1
  rw [hrun] at hbase
  refine ⟨base, hbase, ?_⟩
  dsimp only at hequation
  rw [hopen'] at hequation
  cases hparent : node.parent with
  | none => simpa only [hparent] using hequation
  | some parent =>
    rw [hparent] at hequation
    obtain ⟨line, hline, hfound⟩ := hequation
    have hchain := (client.step_query (.chain parent) (client.session.forest.chain parent) .ids rfl).1
    rw [hline] at hchain
    exact ⟨line, hchain, hfound⟩

/-! ## What holds after every run -/

/-- The client with a journal, if it kept none before. -/
def listening (client : Client ε) : Client ε :=
  ⟨⟨client.session.forest, { client.session.memo with journal := some #[] }⟩, client.walks⟩

/-- The base of `id` is open, and is found to be `base` by a call that is no edit. -/
def Uncovers (client : Client ε) (call : Call ε) (id base : NodeId) : Prop :=
  call.isEdit = false ∧ client.session.memo.slot id = .unresolved ∧
    (client.step call).2.session.memo.slot id = .resolved (some base)

/-- What holds of a client, whatever it does next. -/
structure KeepsLayers (client : Client ε) : Prop where
  /-- Every base that is known is as deep as its node. -/
  same_depth : ∀ id base, client.session.memo.slot id = .resolved (some base) →
    base < client.session.forest.size ∧ client.session.forest.depth base = client.session.forest.depth id
  /-- No read comes back to a node whose base is being sought, nor is one left behind. -/
  settled : ∀ id, client.session.memo.slot id ≠ .resolving
  never_reenters : ∀ call : Call ε, call.isOrderly = true → ∀ id node,
    .reentered id node ∉ (client.listening.step call).2.session.memo.events
  /-- The read of a base fills no slot but its own and those that are less deep. -/
  base_frame : ∀ id other, other ≠ id → client.session.forest.depth id ≤ client.session.forest.depth other →
    (client.step (.request (.query (.base id)))).2.session.memo.slot other = client.session.memo.slot other
  prefix_frame : ∀ id < client.session.forest.size, ∀ count,
    let call : Call ε := .request (.query (.chainPrefix id count))
    ∃ steps, (client.step call).1 = .ok (.reply (.steps steps)) ∧
      ∀ other, other ≠ id → some other ∉ steps.take (count - 1) →
        client.session.forest.depth id ≤ client.session.forest.depth other →
        (client.step call).2.session.memo.slot other = client.session.memo.slot other ∧
        (client.session.memo.slot other = .unresolved → ∀ growth : List (Call ε),
          (∀ call ∈ growth, call.isEdit = true ∧ call.isOrderly = true ∧ call.sets? = none) →
          ((client.step call).2.after growth).SeesGrowth other)

namespace Layered

variable (h : client.Layered AnyRoots)
include h

theorem base_frame {id other : NodeId} (hne : other ≠ id)
    (hdepth : client.session.forest.depth id ≤ client.session.forest.depth other) :
    (client.step (.request (.query (.base id)))).2.session.memo.slot other =
      client.session.memo.slot other := by
  rw [(client.step_query (.base id) (client.session.forest.base id) .id? rfl).2]
  have hread := h.restart.comesTo_base h.restart.filled id
  rcases hrun : (client.session.forest.base id).run client.session.memo.restart with ⟨error | base, after⟩
  all_goals
    unfold ComesTo at hread
    rw [hrun] at hread
  · rw [hread.1]
    rfl
  · exact hread.2.1.slot_eq fun hbelow ↦ hbelow.elim hne (Nat.not_lt.mpr hdepth)

theorem prefix_frame {id : NodeId} (hid : id < client.session.forest.size) (count : Nat) :
    let call : Call ε := .request (.query (.chainPrefix id count))
    ∃ steps, (client.step call).1 = .ok (.reply (.steps steps)) ∧
      ∀ other, other ≠ id → some other ∉ steps.take (count - 1) →
        client.session.forest.depth id ≤ client.session.forest.depth other →
        (client.step call).2.session.memo.slot other = client.session.memo.slot other ∧
        (client.session.memo.slot other = .unresolved → ∀ growth : List (Call ε),
          (∀ call ∈ growth, call.isEdit = true ∧ call.isOrderly = true ∧ call.sets? = none) →
          ((client.step call).2.after growth).SeesGrowth other) := by
  intro call
  obtain ⟨line, hline⟩ := h.restart.valid.exists_trail hid
  obtain ⟨after, hrun, _⟩ := h.restart.valid.keeps_chainPrefix hid hline count _ h.restart.filled.settled
  obtain ⟨hanswer, hmemo⟩ :=
    client.step_query (.chainPrefix id count) (client.session.forest.chainPrefix id count) .steps rfl
  have hfills := ((h.restart.comesTo_chainPrefix id count h.restart.filled).post_of_run hrun).2
  rw [hrun] at hanswer hmemo
  refine ⟨_, hanswer, fun other hne hnot hdepth ↦ ?_⟩
  have hsame : (client.step call).2.session.memo.slot other = client.session.memo.slot other := by
    rw [hmemo]
    apply hfills.slot_eq
    rintro ((heq | hless) | hmem)
    · exact hne heq
    · exact Nat.not_lt.mpr hdepth hless
    · exact hnot hmem
  refine ⟨hsame, fun hopen growth hgrowth ↦ ?_⟩
  have hstep : (client.step call).2.Layered AnyRoots := h.step_of_read rfl
  have hgrown := hstep.after (stratified_of_sets?_eq_none fun call hcall ↦ (hgrowth call hcall).2)
  apply seesGrowth_of_unresolved hgrown.session.valid
  rw [slot_after_of_edits fun call hcall ↦ ⟨(hgrowth call hcall).1, (hgrowth call hcall).2.2⟩, hsame, hopen]

omit [Family ε] in
theorem listening : client.listening.Layered AnyRoots :=
  ⟨h.session.of_slots_eq rfl, h.walks⟩

theorem keepsLayers : client.KeepsLayers where
  same_depth id base hslot := by
    have hover := h.session.base_over hslot
    exact ⟨hover.lt_size.2, hover.same_depth⟩
  settled := h.session.valid.settled
  never_reenters call horderly id node hevent := h.listening.admitted horderly _ hevent
  base_frame _ _ hne hdepth := h.base_frame hne hdepth
  prefix_frame _ hid count := h.prefix_frame hid count

/-- What a read finds to be a base suits its node. -/
theorem suits_of_uncovers {call : Call ε} {id base : NodeId} (huncovers : client.Uncovers call id base) :
    client.session.forest.Suits AnyRoots id base := by
  obtain ⟨hread, hopen, hslot⟩ := huncovers
  rcases (h.reads hread).fills.slot id with hsame | ⟨_, _, base', hfilled, hsuits⟩
  · exact nomatch hopen.symm.trans (hsame.symm.trans hslot)
  · obtain rfl := Slot.resolved.inj (hfilled.symm.trans hslot)
    exact hsuits base rfl

end Layered

/-- After orderly calls that set bases between nodes of one depth only, every base that is known is as
deep as its node, and if a read found it, it is another node of the same name.  No read comes back to a
node whose base is being sought, and reads leave open what they do not need. -/
theorem layered_after (recording : Bool) (h : (start ε recording).Stratified calls) :
    ((start ε recording).after calls).KeepsLayers ∧
    ∀ past call rest id base, calls = past ++ call :: rest →
      ((start ε recording).after past).Uncovers call id base →
      let forest := ((start ε recording).after calls).session.forest
      forest.nameOf base = forest.nameOf id ∧ base ≠ id := by
  refine ⟨((layered_start recording).after h).keepsLayers, ?_⟩
  rintro past call rest id base rfl huncovers
  obtain ⟨hpast, hrest⟩ := stratified_append.mp h
  have hsuits := ((layered_start recording).after hpast).suits_of_uncovers huncovers
  have hgrows := grows_after ((start ε recording).after past) hrest.isOrderly
  obtain ⟨hid, hbase⟩ := hsuits.is_over.lt_size
  dsimp only
  unfold Client.after at hgrows ⊢
  rw [List.foldl_append, hgrows.name hid, hgrows.name hbase]
  exact ⟨hsuits.same_name, hsuits.ne⟩

/-- Two houses that are the bases of one another, each with a room.  The room of a desk is walked from
before there is a desk in the other room, and yet that desk is found to be the base of the first. -/
theorem layered_after_two_houses :
    let house (name : String) : Call Unit := .request (.edit (.addRoot name ()))
    let furnish (id : NodeId) (name : String) : Call Unit := .request (.edit (.obtainChild id name))
    let extend (id base : NodeId) : Call Unit := .request (.edit (.extend id base))
    let ask (asked : Query) : Call Unit := .request (.query asked)
    let calls := [house "old", house "new", furnish 0 "room", furnish 1 "room", extend 0 1, extend 1 0,
      furnish 3 "desk", ask (.chainPrefix 3 1), furnish 2 "desk", ask (.base 4), extend 3 2, ask (.chain 5)]
    (start Unit true).Stratified calls ∧
      ((start Unit true).after calls).session.memo.slot 4 = .resolved (some 5) ∧
      ((start Unit true).after calls).KeepsLayers ∧
      ∀ past call rest id base, calls = past ++ call :: rest →
        ((start Unit true).after past).Uncovers call id base →
        let forest := ((start Unit true).after calls).session.forest
        forest.nameOf base = forest.nameOf id ∧ base ≠ id := by
  intro house furnish extend ask calls
  have hcalls : (start Unit true).Stratified calls := by decide +kernel
  have hslot : ((start Unit true).after calls).session.memo.slot 4 = .resolved (some 5) := by
    decide +kernel
  exact ⟨hcalls, hslot, layered_after true hcalls⟩

end Client

end Lineage
