import Lineage.Proofs.Kinds
import Mathlib.Logic.Function.Iterate

/-!
# Children and selectors that are obtained

Obtaining a child or a selector finds the nodes that are there and adds those that are not.  Of the nodes
that were there before at most one changes: it gains the first node that is added (`Session.Gains`).  What
was obtained is found again when it is asked for again.

In a tiered forest only kinds decide what is refused.  A state has no children, so asking it for one is
refused and changes nothing.  A class has states but these have no children; so asking a class for a
selector with a state is refused too, but only after the first of the two children has been obtained.

`Style.ObtainsChild` and `Style.ObtainsSelector` say all this of one session, and `Client.obtains_after`
that it holds after any calls that keep kinds.
-/

namespace Lineage

open Lookup
open Style (Kind)

variable {ε : Type}

namespace Session

/-! ## What a session gains -/

/-- A session has `count` nodes more, of which the first has been registered under `name` at the node
`gaining`.  No other node that was there has changed, no slot has moved, and nothing was reported. -/
structure Gains (gaining : NodeId) (name : String) (count : Nat) (before after : Session ε) : Prop where
  count_pos : 0 < count
  size : after.forest.size = before.forest.size + count
  lt : gaining < before.forest.size
  fresh : before.forest.childNamed name gaining = none
  node : ∀ id < before.forest.size, after.forest.node? id = (before.forest.node? id).map fun node ↦
    if id = gaining then { node with children := node.children.insert name before.forest.size } else node
  roots : after.forest.roots = before.forest.roots
  memo : after.memo = Memo.grow^[count] before.memo

/-- The session is the same as before, or has gained no more than `limit` nodes. -/
def GainsAtMost (limit : Nat) (before after : Session ε) : Prop :=
  after = before ∨ ∃ gaining name count, count ≤ limit ∧ Gains gaining name count before after

variable {before between after : Session ε} {gaining further : NodeId} {name key : String}
  {count more limit : Nat}

theorem GainsAtMost.mono (h : GainsAtMost limit before after) (hle : limit ≤ more) :
    GainsAtMost more before after :=
  h.imp_right fun ⟨gaining, name, count, hcount, hgains⟩ ↦
    ⟨gaining, name, count, Nat.le_trans hcount hle, hgains⟩

/-- A child that is added and registered at its parent. -/
theorem gains_addChild {session : Session ε} {id : NodeId} {node : Node ε} (payload : ε)
    (hnode : session.forest.node? id = some node) (hfind : node.children.find? name = none) :
    Gains id name 1 session
      ⟨(session.forest.add name payload (some id) (some node.root)).modify id fun node ↦
        { node with children := node.children.insert name session.forest.size }, session.memo.grow⟩ where
  count_pos := Nat.one_pos
  size := (Forest.size_modify ..).trans (Forest.size_add ..)
  lt := Forest.lt_of_node?_eq hnode
  fresh := (Forest.childNamed_eq hnode name).trans hfind
  node other hother := by
    rw [Forest.node?_modify, Forest.node?_add_of_lt hother]
    by_cases heq : other = id <;> simp [heq]
  roots := rfl
  memo := rfl

namespace Gains

theorem childNamed_of_eq_some (h : Gains gaining name count before after) {id child : NodeId}
    (hchild : before.forest.childNamed key id = some child) :
    after.forest.childNamed key id = some child := by
  obtain ⟨node, hnode, hfind⟩ := Option.bind_eq_some_iff.mp hchild
  have hafter := h.node id (Forest.lt_of_node?_eq hnode)
  rw [hnode, Option.map_some] at hafter
  rw [Forest.childNamed_eq hafter]
  split
  next heq =>
    -- A name under which there was a child already is not the one that was free.
    have hne : key ≠ name := by
      rintro rfl
      have hfresh := h.fresh
      rw [← heq, hchild] at hfresh
      exact nomatch hfresh
    rw [NameMap.find?_insert_of_ne _ _ hne, hfind]
  next => exact hfind

/-- The second gain is one of a node that was not there before the first. -/
theorem trans (h : Gains gaining name count before between) (h' : Gains further key more between after)
    (hle : before.forest.size ≤ further) : Gains gaining name (count + more) before after where
  count_pos := Nat.add_pos_left h.count_pos more
  size := by rw [h'.size, h.size, Nat.add_assoc]
  lt := h.lt
  fresh := h.fresh
  node id hid := by
    have hne : id ≠ further := Nat.ne_of_lt (Nat.lt_of_lt_of_le hid hle)
    have hbetween : id < between.forest.size := by
      rw [h.size]
      exact Nat.lt_add_right count hid
    rw [h'.node id hbetween]
    simp only [if_neg hne, Option.map_id']
    exact h.node id hid
  roots := h'.roots.trans h.roots
  memo := by rw [h'.memo, h.memo, Nat.add_comm, Function.iterate_add_apply]

theorem kindAt_eq {before after : Session Style} (h : Gains gaining name count before after) {id : NodeId}
    (hid : id < before.forest.size) : after.forest.kindAt id = before.forest.kindAt id := by
  unfold Forest.kindAt
  rw [h.node id hid]
  cases before.forest.node? id with
  | none => rfl
  | some node => by_cases heq : id = gaining <;> simp [heq]

end Gains

/-! ## Grants and refusals -/

/-- If `action` obtains a node, `names` lead to it from `id`, no more than `limit` nodes were added for
it, and to ask again gives the same node and changes nothing. -/
def Grants (session : Session ε) (action : Action ε NodeId) (id : NodeId) (names : List String)
    (limit : Nat) : Prop :=
  ∀ found after, action.run session = (.ok found, after) →
    session.GainsAtMost limit after ∧ after.forest.descendant names id = some found ∧
      action.run after = (.ok found, after)

/-- `action` comes to the refusal to put a child of the name `child` below `leaf`, and leaves `after`. -/
def Refuses (session : Session ε) (action : Action ε NodeId) (leaf : NodeId) (child : String)
    (after : Session ε) : Prop :=
  ∃ path, after.forest.path leaf = .ok path ∧
    action.run session = (.error (.childOfLeaf path child), after)

theorem Refuses.fails {action : Action ε NodeId} {leaf : NodeId} {child : String}
    (h : before.Refuses action leaf child after) : ∃ error, (action.run before).1 = .error error := by
  obtain ⟨path, _, hrun⟩ := h
  exact ⟨_, congrArg Prod.fst hrun⟩

end Session

/-! ## Obtaining a child -/

namespace Action

variable [Family ε] {session after : Session ε} {id child : NodeId} {name : String}

theorem run_obtainChild_of_childNamed (h : session.forest.childNamed name id = some child) :
    (obtainChild id name).run session = (.ok child, session) := by
  obtain ⟨node, hnode, hfind⟩ := Option.bind_eq_some_iff.mp h
  exact run_obtainChild_known hnode hfind

/-- A child that is obtained is there afterwards, and if it was not there before it is the new node. -/
theorem gains_of_run_obtainChild (hrun : (obtainChild id name).run session = (.ok child, after)) :
    after.forest.childNamed name id = some child ∧
      (after = session ∨ child = session.forest.size ∧ session.Gains id name 1 after) := by
  rcases run_obtainChild_cases session id name with
    ⟨known, hknown, hrun'⟩ | ⟨error, hrun'⟩ | ⟨node, payload, hnode, hfind, _, hrun'⟩
  all_goals
    rw [hrun'] at hrun
    obtain ⟨hresult, rfl⟩ := Prod.mk.inj hrun
  · exact ⟨hknown.trans (congrArg some (Except.ok.inj hresult)), .inl rfl⟩
  · exact nomatch hresult
  · obtain rfl := Except.ok.inj hresult
    have hadded : id < (session.forest.add name payload (some id) (some node.root)).size :=
      Forest.size_add .. ▸ Nat.lt_succ_of_lt (Forest.lt_of_node?_eq hnode)
    refine ⟨?_, .inr ⟨rfl, Session.gains_addChild payload hnode hfind⟩⟩
    rw [Forest.childNamed_register hadded, if_pos ⟨rfl, rfl⟩]

theorem grants_obtainChild (session : Session ε) (id : NodeId) (name : String) :
    session.Grants (obtainChild id name) id [name] 1 := by
  intro child after hrun
  obtain ⟨hchild, hgains⟩ := gains_of_run_obtainChild hrun
  refine ⟨hgains.imp_right fun ⟨_, hgains⟩ ↦ ⟨id, name, 1, Nat.le_refl 1, hgains⟩, ?_, ?_⟩
  · rw [Forest.descendant, hchild]
    rfl
  · exact run_obtainChild_of_childNamed hchild

end Action

namespace Style

variable {session between after : Session Style} {id child classId : NodeId} {kind : Kind}
  {name className : String} {state : Option String}

theorem refuses_obtainChild (h : session.forest.Tiered) (hstate : session.forest.kindAt id = some .state)
    (name : String) : session.Refuses (Action.obtainChild id name) id name session := by
  obtain ⟨node, hnode, hkind⟩ := Option.map_eq_some_iff.mp hstate
  have hfind : node.children.find? name = none :=
    (Forest.childNamed_eq hnode name).symm.trans (h.childNamed_of_state hstate name)
  have hpayload := (childPayload?_eq_none_iff node.payload name).mpr hkind
  obtain ⟨path, hpath⟩ := h.orderly.closed.exists_path (Forest.lt_of_node?_eq hnode)
  refine ⟨path, hpath, ?_⟩
  rw [Action.run_obtainChild_leaf hnode hfind hpayload, hpath]
  rfl

theorem exists_run_obtainChild (hkind : session.forest.kindAt id = some kind) (hne : kind ≠ .state)
    (name : String) : ∃ child after, (Action.obtainChild id name).run session = (.ok child, after) := by
  obtain ⟨node, hnode, rfl⟩ := Option.map_eq_some_iff.mp hkind
  cases hfind : node.children.find? name with
  | some child => exact ⟨child, session, Action.run_obtainChild_known hnode hfind⟩
  | none =>
    cases hpayload : Family.childPayload? node.payload name with
    | none => exact absurd ((childPayload?_eq_none_iff node.payload name).mp hpayload) hne
    | some payload => exact ⟨_, _, Action.run_obtainChild_new hnode hfind hpayload⟩

theorem tiered_of_run_obtainChild (h : session.forest.Tiered) {result : Except Error NodeId}
    (hrun : (Action.obtainChild id name).run session = (result, after)) : after.forest.Tiered := by
  have hafter := Session.tiered_obtainChild h id name
  rwa [hrun] at hafter

/-- A child that is obtained is of the kind of the children of its parent. -/
theorem kindAt_of_run_obtainChild (h : session.forest.Tiered)
    (hrun : (Action.obtainChild id name).run session = (.ok child, after)) :
    after.forest.kindAt child = (session.forest.kindAt id).bind Kind.child? := by
  have hafter := tiered_of_run_obtainChild h hrun
  obtain ⟨hchild, hgains⟩ := Action.gains_of_run_obtainChild hrun
  have hsame : after.forest.kindAt id = session.forest.kindAt id := by
    rcases hgains with rfl | ⟨_, hgains⟩
    · rfl
    · exact hgains.kindAt_eq hgains.lt
  rw [hafter.kind_of_parent (hafter.orderly.child_iff.mp hchild).1, hsame]

/-! ## Obtaining a selector -/

/-- After its class a selector asks for its state, if it has one. -/
theorem run_obtainSelector (hclass : (Action.obtainChild id className).run session = (.ok classId, between))
    (state : Option String) : (obtainSelector id className state).run session =
      match state with
      | none => (.ok classId, between)
      | some name => (Action.obtainChild classId name).run between := by
  unfold obtainSelector
  rw [run_bind_ok hclass]
  cases state <;> rfl

theorem run_obtainSelector_error {error : Error}
    (hclass : (Action.obtainChild id className).run session = (.error error, between))
    (state : Option String) : (obtainSelector id className state).run session = (.error error, between) := by
  unfold obtainSelector
  rw [run_bind, hclass]

/-- If both nodes that a selector asks for are new, it is the first that gains the second. -/
theorem gainsAtMost_two (hclass : (Action.obtainChild id className).run session = (.ok classId, between))
    (hstate : (Action.obtainChild classId name).run between = (.ok child, after)) :
    session.GainsAtMost 2 after := by
  obtain ⟨_, hfirst⟩ := Action.gains_of_run_obtainChild hclass
  obtain ⟨_, hsecond⟩ := Action.gains_of_run_obtainChild hstate
  rcases hfirst with rfl | ⟨rfl, hfirst⟩
  · rcases hsecond with rfl | ⟨_, hsecond⟩
    · exact .inl rfl
    · exact .inr ⟨classId, name, 1, Nat.le_succ 1, hsecond⟩
  · rcases hsecond with rfl | ⟨_, hsecond⟩
    · exact .inr ⟨id, className, 1, Nat.le_succ 1, hfirst⟩
    · exact .inr ⟨id, className, 2, Nat.le_refl 2, hfirst.trans hsecond (Nat.le_refl _)⟩

theorem grants_obtainSelector (session : Session Style) (id : NodeId) (className : String)
    (state : Option String) :
    session.Grants (obtainSelector id className state) id (className :: state.toList) 2 := by
  intro found after hrun
  obtain ⟨classId, between, hclass, hrest⟩ := exists_of_run_bind_eq_ok hrun
  obtain ⟨hchild, _⟩ := Action.gains_of_run_obtainChild hclass
  cases state with
  | none =>
    obtain ⟨hfound, rfl⟩ := Prod.mk.inj hrest
    obtain rfl := Except.ok.inj hfound
    obtain ⟨hgains, hdescendant, hagain⟩ := Action.grants_obtainChild session id className _ _ hclass
    exact ⟨hgains.mono (Nat.le_succ 1), hdescendant, run_obtainSelector hagain none⟩
  | some name =>
    obtain ⟨hfound, hgains⟩ := Action.gains_of_run_obtainChild hrest
    have hstill : after.forest.childNamed className id = some classId := by
      rcases hgains with rfl | ⟨_, hgains⟩
      · exact hchild
      · exact hgains.childNamed_of_eq_some hchild
    have hagain := Action.run_obtainChild_of_childNamed hstill
    refine ⟨gainsAtMost_two hclass hrest, ?_, ?_⟩
    · simp [Forest.descendant, hstill, hfound]
    · rw [run_obtainSelector hagain (some name)]
      exact Action.run_obtainChild_of_childNamed hfound

/-- Asked for a selector with a state, a class refuses only the state.  The child that stands for the
class of the selector has been obtained by then. -/
theorem refuses_obtainSelector (h : session.forest.Tiered)
    (hclass : session.forest.kindAt id = some .styleClass) (className name : String) :
    ∃ leaf after, (Action.obtainChild id className).run session = (.ok leaf, after) ∧
      session.GainsAtMost 1 after ∧
      session.Refuses (obtainSelector id className (some name)) leaf name after := by
  obtain ⟨leaf, after, hrun⟩ := exists_run_obtainChild hclass nofun className
  have hleaf : after.forest.kindAt leaf = some .state := by
    rw [kindAt_of_run_obtainChild h hrun, hclass]
    rfl
  obtain ⟨path, hpath, hrefused⟩ := refuses_obtainChild (tiered_of_run_obtainChild h hrun) hleaf name
  refine ⟨leaf, after, hrun, (Action.grants_obtainChild session id className _ _ hrun).1, path, hpath, ?_⟩
  exact (run_obtainSelector hrun (some name)).trans hrefused

theorem refuses_obtainSelector_of_state (h : session.forest.Tiered)
    (hstate : session.forest.kindAt id = some .state) (className : String) (state : Option String) :
    session.Refuses (obtainSelector id className state) id className session := by
  obtain ⟨path, hpath, hrun⟩ := refuses_obtainChild h hstate className
  exact ⟨path, hpath, run_obtainSelector_error hrun state⟩

theorem exists_run_obtainSelector (h : session.forest.Tiered) (hkind : session.forest.kindAt id = some kind)
    (hne : kind ≠ .state) (hstate : kind = .styleClass → state = none) (className : String) :
    ∃ found after, (obtainSelector id className state).run session = (.ok found, after) := by
  obtain ⟨classId, between, hrun⟩ := exists_run_obtainChild hkind hne className
  rw [run_obtainSelector hrun state]
  cases state with
  | none => exact ⟨classId, between, rfl⟩
  | some name =>
    have hclass := kindAt_of_run_obtainChild h hrun
    rw [hkind, Option.bind_some] at hclass
    cases kind with
    | block => exact exists_run_obtainChild hclass nofun name
    | styleClass => exact nomatch hstate rfl
    | state => exact absurd rfl hne

/-! ## What kinds decide -/

/-- Only states refuse children. -/
structure ObtainsChild (session : Session Style) (id : NodeId) (name : String) : Prop where
  fails_iff : (∃ error, ((Action.obtainChild id name).run session).1 = .error error) ↔
    kindOf session.forest id = .ok .state
  refused : kindOf session.forest id = .ok .state →
    session.Refuses (Action.obtainChild id name) id name session
  granted : session.Grants (Action.obtainChild id name) id [name] 1

/-- States refuse selectors, and classes refuse those that have a state. -/
structure ObtainsSelector (session : Session Style) (id : NodeId) (className : String)
    (state : Option String) : Prop where
  fails_iff : (∃ error, ((obtainSelector id className state).run session).1 = .error error) ↔
    kindOf session.forest id = .ok .state ∨ kindOf session.forest id = .ok .styleClass ∧ state.isSome
  refused_at_state : kindOf session.forest id = .ok .state →
    session.Refuses (obtainSelector id className state) id className session
  /-- What is left is what obtaining the first child alone leaves. -/
  refused_below_class : kindOf session.forest id = .ok .styleClass → ∀ name ∈ state, ∃ leaf after,
    (Action.obtainChild id className).run session = (.ok leaf, after) ∧ session.GainsAtMost 1 after ∧
      session.Refuses (obtainSelector id className state) leaf name after
  granted : session.Grants (obtainSelector id className state) id (className :: state.toList) 2

theorem obtainsChild_of_tiered (h : session.forest.Tiered) (hid : id < session.forest.size) (name : String) :
    ObtainsChild session id name where
  fails_iff := by
    obtain ⟨kind, hkind⟩ := Forest.exists_kindAt_of_lt hid
    rw [Forest.kindOf_eq_ok_iff]
    constructor
    · rintro ⟨error, herror⟩
      by_contra hstate
      obtain ⟨child, after, hrun⟩ := exists_run_obtainChild hkind (fun heq ↦ hstate (heq ▸ hkind)) name
      rw [hrun] at herror
      exact nomatch herror
    · exact fun hstate ↦ (refuses_obtainChild h hstate name).fails
  refused hstate := refuses_obtainChild h (Forest.kindOf_eq_ok_iff.mp hstate) name
  granted := Action.grants_obtainChild session id name

theorem obtainsSelector_of_tiered (h : session.forest.Tiered) (hid : id < session.forest.size)
    (className : String) (state : Option String) : ObtainsSelector session id className state where
  fails_iff := by
    obtain ⟨kind, hkind⟩ := Forest.exists_kindAt_of_lt hid
    rw [Forest.kindOf_eq_ok_iff, Forest.kindOf_eq_ok_iff]
    constructor
    · rintro ⟨error, herror⟩
      by_contra hnot
      have hne : kind ≠ .state := fun heq ↦ hnot (.inl (heq ▸ hkind))
      have hnone : kind = .styleClass → state = none := fun heq ↦
        Option.not_isSome_iff_eq_none.mp fun hsome ↦ hnot (.inr ⟨heq ▸ hkind, hsome⟩)
      obtain ⟨found, after, hrun⟩ := exists_run_obtainSelector h hkind hne hnone className
      rw [hrun] at herror
      exact nomatch herror
    · rintro (hstate | ⟨hclass, hsome⟩)
      · exact (refuses_obtainSelector_of_state h hstate className state).fails
      · obtain ⟨name, rfl⟩ := Option.isSome_iff_exists.mp hsome
        obtain ⟨leaf, after, _, _, hrefused⟩ := refuses_obtainSelector h hclass className name
        exact hrefused.fails
  refused_at_state hstate :=
    refuses_obtainSelector_of_state h (Forest.kindOf_eq_ok_iff.mp hstate) className state
  refused_below_class hclass name hname := by
    obtain rfl : state = some name := hname
    exact refuses_obtainSelector h (Forest.kindOf_eq_ok_iff.mp hclass) className name
  granted := grants_obtainSelector session id className state

end Style

/-- After any calls that keep kinds, failing ones and reads among them, the kind of a node is that of its
depth, and decides which children and selectors the node refuses.  What is refused below a state changes
nothing, and what is granted adds two nodes at most and is found again. -/
theorem Client.obtains_after (recording : Bool) {calls : List (Call Style)}
    (hcalls : ∀ call ∈ calls, call.keepsKinds = true) :
    let session := ((start Style recording).after calls).session
    ∀ id < session.forest.size,
      (∃ kind, Style.kindOf session.forest id = .ok kind ∧
        Kind.ofDepth? (session.forest.depth id) = some kind) ∧
      (∀ name, Style.ObtainsChild session id name) ∧
      ∀ className state, Style.ObtainsSelector session id className state := by
  intro session id hid
  have h : session.forest.Tiered := tiered_after Forest.tiered_empty hcalls
  obtain ⟨kind, hkind⟩ := Forest.exists_kindAt_of_lt hid
  refine ⟨⟨kind, Forest.kindOf_eq_ok_iff.mpr hkind, ?_⟩, ?_, ?_⟩
  · rw [← h.kind hid, hkind]
  · exact Style.obtainsChild_of_tiered h hid
  · exact Style.obtainsSelector_of_tiered h hid

/-- Two cards, of which one extends the other.  The state 2 was asked for a child, and the class 1 for a
selector with a state, which left the state 3 behind. -/
theorem Client.obtains_after_refusals :
    let calls : List (Call Style) := [.style (.addBlock "card"),
      .style (.obtainSelector 0 "title" (some "hover")), .request (.edit (.obtainChild 2 "focus")),
      .style (.obtainSelector 1 "active" (some "focus")), .style (.addBlock "note"),
      .request (.edit (.obtainChild 4 "title")), .request (.edit (.extend 4 0)),
      .style (.declare 5 "color: red"), .request (.query (.chain 5)),
      .style (.obtainSelector 9 "title" none)]
    let session := ((start Style true).after calls).session
    (∀ call ∈ calls, call.keepsKinds = true) ∧ session.forest.size = 6 ∧
      Style.kindOf session.forest 1 = .ok .styleClass ∧ Style.kindOf session.forest 3 = .ok .state ∧
      Style.ObtainsChild session 3 "again" ∧ Style.ObtainsSelector session 1 "focus" (some "again") ∧
      ((Style.obtainSelector 1 "focus" (some "again")).run session).1 =
        .error (.childOfLeaf "card.title.focus" "again") := by
  intro calls session
  have hcalls : ∀ call ∈ calls, call.keepsKinds = true := by decide
  have hsize : session.forest.size = 6 := by decide +kernel
  have hholds := obtains_after true hcalls
  refine ⟨hcalls, hsize, by decide +kernel, by decide +kernel, ?_, ?_, by decide +kernel⟩
  · exact (hholds 3 (hsize ▸ by decide)).2.1 "again"
  · exact (hholds 1 (hsize ▸ by decide)).2.2 "focus" (some "again")

end Lineage
