import Lineage.Session
import Lineage.Proofs.Forest
import Lineage.Proofs.Trail
import Mathlib.Logic.Relation

/-!
# What bases there are

A forest and the slots of a memo determine the base of every node, before any further read.
`Derives` is the least relation closed under the rules by which bases are found, and `baseOf` the
base it gives a node, or none where it gives none; a base that could only be found by way of itself
is not derived.

The node `id` asks for the base of `other` if the search for the base of `id` cannot succeed without
the base of `other`.  Asking is well-founded at every node that has a base (`acc_asks`), so a node
that asks for its own base has none (`baseOf_eq_none_of_transGen`).  `baseOf_eq_findSome?` is the
equation that bases satisfy along the trail of the parent.
-/

namespace Lineage

/-- A session whose forest is closed, which has a slot for each node, remembers only bases that are
there, and has no read under way. -/
structure Session.Valid {ε : Type} (session : Session ε) : Prop where
  closed : session.forest.Closed
  slots_size : session.memo.slots.size = session.forest.size
  base_lt : ∀ ⦃id base⦄, session.memo.slot id = .resolved (some base) → base < session.forest.size
  settled : ∀ id, session.memo.slot id ≠ .resolving

namespace Session

variable {ε : Type}

theorem slot_of_not_lt {memo : Memo} {id : NodeId} (hid : ¬ id < memo.slots.size) :
    memo.slot id = .unresolved := by
  unfold Memo.slot
  rw [Array.getElem?_eq_none (Nat.le_of_not_lt hid)]
  rfl

theorem valid_iff {session : Session ε} : session.Valid ↔ session.forest.Closed ∧
    session.memo.slots.size = session.forest.size ∧
    ∀ id < session.forest.size, session.memo.slot id ≠ .resolving ∧
      ∀ base ∈ (session.memo.slot id).outcome.join, base < session.forest.size := by
  constructor
  · intro h
    refine ⟨h.closed, h.slots_size, fun id _ ↦ ⟨h.settled id, fun base hbase ↦ ?_⟩⟩
    have hslot : session.memo.slot id = .resolved (some base) := by
      cases hslot : session.memo.slot id <;> simp_all [Slot.outcome]
    exact h.base_lt hslot
  · rintro ⟨hclosed, hsize, hslots⟩
    refine ⟨hclosed, hsize, fun id base hbase ↦ ?_, fun id ↦ ?_⟩
    · by_cases hid : id < session.forest.size
      · exact (hslots id hid).2 base (by simp [hbase, Slot.outcome])
      · simp [slot_of_not_lt (hsize ▸ hid)] at hbase
    · by_cases hid : id < session.forest.size
      · exact (hslots id hid).1
      · simp [slot_of_not_lt (hsize ▸ hid)]

instance (session : Session ε) : Decidable session.Valid := decidable_of_iff _ valid_iff.symm

theorem valid_empty (recording : Bool) : (Session.empty ε recording).Valid := by
  refine valid_iff.mpr ⟨Forest.closed_iff.mpr fun id hid ↦ ?_, rfl, fun id hid ↦ ?_⟩
  · exact absurd hid (Nat.not_lt_zero id)
  · exact absurd hid (Nat.not_lt_zero id)

/-- A house whose base is its own room, with another room in that room. -/
def houseOfRooms : Session Unit :=
  let building : Action Unit Unit := do
    let house ← Action.addRoot "house" ()
    let room ← Action.obtainChild house "room"
    let _ ← Action.obtainChild room "room"
    Action.extend house room
  (building.run (Session.empty Unit false)).2

/-- What can be sought: the base of a node, or the first namesake of `id` past `node` on the walk
from `origin`. -/
inductive Goal where
  | base (id : NodeId)
  | past (id origin node : NodeId)

inductive Derives (session : Session ε) : Goal → NodeId → Prop
  | known {id found} : session.memo.slot id = .resolved (some found) →
      Derives session (.base id) found
  | sought {id parent found} : session.memo.slot id = .unresolved →
      session.forest.parentOf id = some parent → Derives session (.past id parent parent) found →
      Derives session (.base id) found
  | here {id origin node met found} : Derives session (.base node) met → met ≠ origin →
      session.forest.namesakeOf id met = some found → Derives session (.past id origin node) found
  | further {id origin node met found} : Derives session (.base node) met → met ≠ origin →
      session.forest.namesakeOf id met = none → Derives session (.past id origin met) found →
      Derives session (.past id origin node) found

variable {session : Session ε}

theorem Derives.unique {goal : Goal} {found found' : NodeId} (h : Derives session goal found)
    (h' : Derives session goal found') : found = found' := by
  induction h generalizing found' with
  | known hslot =>
    cases h' with
    | known hslot' => simpa [hslot] using hslot'
    | sought hslot' => simp [hslot] at hslot'
  | sought hslot hparent _ ih =>
    cases h' with
    | known hslot' => simp [hslot] at hslot'
    | sought _ hparent' hpast =>
      obtain rfl := Option.some.inj (hparent.symm.trans hparent')
      exact ih hpast
  | here _ _ hname ih =>
    cases h' with
    | here hbase _ hname' =>
      obtain rfl := ih hbase
      exact Option.some.inj (hname.symm.trans hname')
    | further hbase _ hname' =>
      obtain rfl := ih hbase
      simp [hname] at hname'
  | further _ _ hname _ ihBase ih =>
    cases h' with
    | here hbase _ hname' =>
      obtain rfl := ihBase hbase
      simp [hname] at hname'
    | further hbase _ _ hpast =>
      obtain rfl := ihBase hbase
      exact ih hpast

open Classical in
/-- The base that is derived for a node, if one is. -/
noncomputable def baseOf (session : Session ε) (id : NodeId) : Option NodeId :=
  if h : ∃ found, Derives session (.base id) found then some h.choose else none

theorem baseOf_eq_some_iff {id found : NodeId} :
    session.baseOf id = some found ↔ Derives session (.base id) found := by
  unfold baseOf
  constructor
  · intro h
    split at h
    next hexists => exact Option.some.inj h ▸ hexists.choose_spec
    next => simp at h
  · intro h
    have hexists : ∃ found, Derives session (.base id) found := ⟨found, h⟩
    rw [dif_pos hexists]
    exact congrArg some (hexists.choose_spec.unique h)

/-! ## Slots that decide -/

theorem baseOf_of_resolved {id : NodeId} {base : Option NodeId}
    (hslot : session.memo.slot id = .resolved base) : session.baseOf id = base := by
  cases base with
  | some found => exact baseOf_eq_some_iff.mpr (.known hslot)
  | none =>
    apply Option.eq_none_iff_forall_ne_some.mpr
    intro found hfound
    cases baseOf_eq_some_iff.mp hfound with
    | known hslot' => simp [hslot] at hslot'
    | sought hslot' => simp [hslot] at hslot'

theorem baseOf_of_parentless {id : NodeId} (hslot : session.memo.slot id = .unresolved)
    (hparent : session.forest.parentOf id = none) : session.baseOf id = none := by
  apply Option.eq_none_iff_forall_ne_some.mpr
  intro found hfound
  cases baseOf_eq_some_iff.mp hfound with
  | known hslot' => simp [hslot] at hslot'
  | sought _ hparent' => simp [hparent] at hparent'

theorem Valid.baseOf_of_not_lt (h : session.Valid) {id : NodeId} (hid : ¬ id < session.forest.size) :
    session.baseOf id = none := by
  apply baseOf_of_parentless
  · exact slot_of_not_lt (h.slots_size ▸ hid)
  · simp [Forest.parentOf, Forest.node?_eq_none hid]

theorem Valid.derives_lt (h : session.Valid) {goal : Goal} {found : NodeId}
    (hderives : Derives session goal found) : found < session.forest.size := by
  induction hderives with
  | known hslot => exact h.base_lt hslot
  | sought _ _ _ ih => exact ih
  | here _ _ hname => exact h.closed.namesakeOf_lt hname
  | further _ _ _ _ _ ih => exact ih

theorem Valid.baseOf_lt (h : session.Valid) ⦃id base : NodeId⦄
    (hbase : session.baseOf id = some base) : base < session.forest.size :=
  h.derives_lt (baseOf_eq_some_iff.mp hbase)

/-! ## Asking for bases -/

/-- The search for the base of `id`, which walks from `origin`, goes on from `node` past `met`. -/
def PassesOver (session : Session ε) (id origin node met : NodeId) : Prop :=
  session.baseOf node = some met ∧ met ≠ origin ∧ session.forest.namesakeOf id met = none

/-- The search for the base of `id` comes to ask for the base of `other`. -/
def Asks (session : Session ε) (id other : NodeId) : Prop :=
  session.memo.slot id = .unresolved ∧ ∃ parent, session.forest.parentOf id = some parent ∧
    Relation.ReflTransGen (session.PassesOver id parent) parent other

/-- Where a search succeeds, what it asks for was derived before. -/
theorem Derives.acc_asks {goal : Goal} {found : NodeId} (h : Derives session goal found) :
    match goal with
    | .base id => Acc (fun other id ↦ session.Asks id other) id
    | .past id origin node => ∀ other, Relation.ReflTransGen (session.PassesOver id origin) node other →
        Acc (fun other id ↦ session.Asks id other) other := by
  induction h with
  | known hslot =>
    refine Acc.intro _ fun other hasks ↦ ?_
    simp [Asks, hslot] at hasks
  | sought hslot hparent _ ih =>
    refine Acc.intro _ fun other hasks ↦ ?_
    obtain ⟨_, parent', hparent', hreach⟩ := hasks
    obtain rfl := Option.some.inj (hparent.symm.trans hparent')
    exact ih other hreach
  | here hbase _ hname ih =>
    intro other hreach
    rcases hreach.cases_head with rfl | ⟨met', ⟨hbase', _, hname'⟩, _⟩
    · exact ih
    · obtain rfl := hbase.unique (baseOf_eq_some_iff.mp hbase')
      simp [hname] at hname'
  | further hbase _ _ _ ihBase ih =>
    intro other hreach
    rcases hreach.cases_head with rfl | ⟨met', ⟨hbase', _, _⟩, hreach⟩
    · exact ihBase
    · obtain rfl := hbase.unique (baseOf_eq_some_iff.mp hbase')
      exact ih other hreach

/-- A node that asks, through others or by itself, for its own base has none. -/
theorem baseOf_eq_none_of_transGen {id : NodeId}
    (h : Relation.TransGen (fun other id ↦ session.Asks id other) id id) :
    session.baseOf id = none := by
  apply Option.eq_none_iff_forall_ne_some.mpr
  intro found hfound
  have hacc := (baseOf_eq_some_iff.mp hfound).acc_asks.transGen
  clear hfound
  induction hacc with
  | intro id _ ih => exact ih id h h

/-! ## The equation of bases -/

section Equation

variable {id origin node : NodeId} {seen line : List NodeId}

theorem derives_past_of_findSome? (h : Trail session.baseOf seen node line) (horigin : origin ∈ seen)
    {found : NodeId} (hfound : line.findSome? (session.forest.namesakeOf id) = some found) :
    Derives session (.past id origin node) found := by
  induction h with
  | stop => simp at hfound
  | cut => simp at hfound
  | @step seen node met line hnext hnot _ ih =>
    have hmet := baseOf_eq_some_iff.mp hnext
    have hne : met ≠ origin := fun heq ↦ hnot (heq ▸ horigin)
    cases hname : session.forest.namesakeOf id met with
    | some found' =>
      rw [List.findSome?_cons, hname] at hfound
      exact .here hmet hne (hname.trans hfound)
    | none =>
      rw [List.findSome?_cons, hname] at hfound
      exact .further hmet hne hname (ih (List.mem_cons_of_mem _ horigin) hfound)

/-- Among nodes that have no namesake of `id` and lead to no others, none is ever found. -/
theorem not_derives_past_of_closed {closed : NodeId → Prop} {found : NodeId}
    (hclosed : ∀ ⦃node met⦄, closed node → session.baseOf node = some met → met ≠ origin →
      closed met ∧ session.forest.namesakeOf id met = none)
    (hnode : closed node) : ¬ Derives session (.past id origin node) found := by
  intro h
  generalize hgoal : Goal.past id origin node = goal at h
  induction h generalizing node with
  | known => cases hgoal
  | sought => cases hgoal
  | here hbase hne hname =>
    cases hgoal
    have hnone := (hclosed hnode (baseOf_eq_some_iff.mpr hbase) hne).2
    simp [hname] at hnone
  | further hbase hne _ _ _ ih =>
    cases hgoal
    exact ih (hclosed hnode (baseOf_eq_some_iff.mpr hbase) hne).1 rfl

theorem findSome?_eq_of_derives_past {found : NodeId} (h : Trail session.baseOf seen node line)
    (hnode : node ∈ seen) (hbehind : Trail.Behind session.baseOf seen node)
    (hpassed : ∀ met ∈ seen, met ≠ origin → session.forest.namesakeOf id met = none)
    (hfound : Derives session (.past id origin node) found) :
    line.findSome? (session.forest.namesakeOf id) = some found := by
  induction h with
  | stop hnone =>
    cases hfound with
    | here hbase => simp [baseOf_eq_some_iff.mpr hbase] at hnone
    | further hbase => simp [baseOf_eq_some_iff.mpr hbase] at hnone
  | @cut seen node base hnext hmem =>
    have hclosed : ∀ ⦃node' met⦄, node' ∈ seen → session.baseOf node' = some met → met ≠ origin →
        met ∈ seen ∧ session.forest.namesakeOf id met = none := by
      intro node' met hnode' hmet hne
      have hmetSeen : met ∈ seen := by
        by_cases heq : node' = node
        · rw [heq] at hmet
          exact Option.some.inj (hnext.symm.trans hmet) ▸ hmem
        · exact hbehind node' hnode' heq met hmet
      exact ⟨hmetSeen, hpassed met hmetSeen hne⟩
    exact absurd hfound (not_derives_past_of_closed hclosed hnode)
  | @step seen node base line hnext hnot _ ih =>
    cases hfound with
    | here hbase _ hname =>
      obtain rfl := Option.some.inj (hnext.symm.trans (baseOf_eq_some_iff.mpr hbase))
      rw [List.findSome?_cons, hname]
    | further hbase _ hname hpast =>
      obtain rfl := Option.some.inj (hnext.symm.trans (baseOf_eq_some_iff.mpr hbase))
      rw [List.findSome?_cons, hname]
      refine ih List.mem_cons_self (hbehind.step hnext) ?_ hpast
      intro met hmet hne
      rcases List.mem_cons.mp hmet with rfl | hmet
      · exact hname
      · exact hpassed met hmet hne

/-- The base of an open node is its first namesake on the trail of its parent. -/
theorem baseOf_eq_findSome? {parent : NodeId} (hslot : session.memo.slot id = .unresolved)
    (hparent : session.forest.parentOf id = some parent)
    (hline : Trail session.baseOf [parent] parent line) :
    session.baseOf id = line.findSome? (session.forest.namesakeOf id) := by
  apply Option.ext
  intro found
  constructor
  · intro hfound
    cases baseOf_eq_some_iff.mp hfound with
    | known hslot' => simp [hslot] at hslot'
    | sought _ hparent' hpast =>
      obtain rfl := Option.some.inj (hparent.symm.trans hparent')
      refine findSome?_eq_of_derives_past hline (List.mem_singleton_self parent)
        (Trail.behind_singleton parent) ?_ hpast
      exact fun met hmet hne ↦ absurd (List.mem_singleton.mp hmet) hne
  · intro hfound
    have hpast := derives_past_of_findSome? hline (List.mem_singleton_self parent) hfound
    exact baseOf_eq_some_iff.mpr (.sought hslot hparent hpast)

/-- A search asks for the bases of the nodes on the trail of the parent that it passes over. -/
theorem asks_of_passed {parent : NodeId} {passed rest : List NodeId}
    (hslot : session.memo.slot id = .unresolved) (hparent : session.forest.parentOf id = some parent)
    (hline : Trail session.baseOf [parent] parent (passed ++ node :: rest))
    (hpassed : ∀ met ∈ passed, session.forest.namesakeOf id met = none)
    (hnode : session.forest.namesakeOf id node = none) : session.Asks id node := by
  refine ⟨hslot, parent, hparent, ?_⟩
  have hstep : ∀ ⦃seen start⦄, parent ∈ seen →
      Trail session.baseOf seen start (passed ++ node :: rest) →
      Relation.ReflTransGen (session.PassesOver id parent) start node := by
    clear hline
    induction passed with
    | nil =>
      intro seen start hseen htrail
      cases htrail with
      | step hnext hnot _ => exact .single ⟨hnext, fun heq ↦ hnot (heq ▸ hseen), hnode⟩
    | cons met passed ih =>
      intro seen start hseen htrail
      obtain ⟨hmet, hpassed⟩ := List.forall_mem_cons.mp hpassed
      cases htrail with
      | step hnext hnot htrail =>
        have hrest := ih hpassed (List.mem_cons_of_mem _ hseen) htrail
        exact .head ⟨hnext, fun heq ↦ hnot (heq ▸ hseen), hmet⟩ hrest
  exact hstep (List.mem_singleton_self parent) hline

end Equation

end Session

end Lineage
