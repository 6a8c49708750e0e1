import Lineage.Proofs.Nested
import Lineage.Proofs.Service
import Lineage.Proofs.Unfolding

/-!
# New children inherit from what their names stood for

A node may show a child of some name that it inherits, and then be given one of its own.  The new child has
the other as its base (`obtained_inherits_visible`), and where the name stood for nothing it has none.

In general a new child may change what the bases of other nodes are, as long as their slots are open.  But
the search for the name has read the bases of all nodes that it went past (`Valid.run_visibleChild`), and
these stay as they are, whatever else is read (`Valid.slot_afterReads_append`) and with the new child as
well.  So the search for the base of the new child goes past the same nodes and stops where the first one
did (`Valid.baseOf_addChild`).
-/

namespace Lineage

open Lookup Trail

variable {ε : Type}

/-! ## What later reads leave alone -/

namespace Session

/-- The session that some reads leave. -/
def read (session : Session ε) (reads : List (Read ε)) : Session ε :=
  ⟨session.forest, (session.afterReads reads).memo⟩

namespace Valid

variable {session : Session ε} (h : session.Valid)
include h

/-- Reads change none of the bases that there are. -/
theorem baseOf_of_settled {memo : Memo} (hmemo : session.Settled memo) :
    baseOf ⟨session.forest, memo⟩ = session.baseOf := by
  have hafter := h.of_settled hmemo
  funext id
  by_cases hid : id < session.forest.size
  · have hread := (hafter.keeps_base id hid).run_eq hafter.reflects
    exact Except.ok.inj (hread.symm.trans ((h.keeps_base id hid).run_eq hmemo))
  · rw [h.baseOf_of_not_lt hid]
    exact hafter.baseOf_of_not_lt hid

theorem consistent_of_consistent {reading : Reading} (hreading : session.Consistent reading) :
    Consistent ⟨session.forest, reading.memo⟩ reading where
  settled := (h.of_settled hreading.settled).reflects
  follows cursor hcursor := by
    unfold Follows
    rw [h.baseOf_of_settled hreading.settled]
    exact hreading.follows cursor hcursor

/-- What reads have resolved stays as it is when more is read. -/
theorem slot_afterReads_append {first : List (Read ε)} {id : NodeId} {base : Option NodeId}
    (hslot : (session.afterReads first).memo.slot id = .resolved base) (second : List (Read ε)) :
    (session.afterReads (first ++ second)).memo.slot id = .resolved base := by
  have hfirst := h.consistent_afterReads first
  have hsecond := (h.of_settled hfirst.settled).consistent_foldl (h.consistent_of_consistent hfirst) second
  unfold afterReads
  rw [List.foldl_append]
  rcases hsecond.settled.slot_other id List.not_mem_nil with hsame | ⟨hopen, _⟩
  · exact hsame.trans hslot
  · exact nomatch hslot.symm.trans hopen

/-! ## What a search reads -/

section Search

variable {β : Type} {probe : NodeId → Option β} {test : NodeId → Lookup (Option β)}
  (htest : ∀ met < session.forest.size, ∀ memo, (test met).run memo = (.ok (probe met), memo))
include htest

omit h in
/-- A search that meets `base` next ends there, or reads what the rest of it reads from there on. -/
theorem run_findSome?_of_meets {walk walk' : Walk} {base : NodeId} {line : List NodeId} {limit : Nat}
    {memo between : Memo} (hbase : base < session.forest.size)
    (hnext : (walk.next session.forest session.forest.base).run memo = (.ok (some base, walk'), between))
    (hrest : ∃ after, (walk'.findSome? session.forest session.forest.base test limit).run between =
        (.ok (line.findSome? probe), after) ∧
      after.slots = (session.forest.afterBases between (base :: passedOver probe line)).slots) :
    ∃ after, (walk.findSome? session.forest session.forest.base test (limit + 1)).run memo =
        (.ok ((base :: line).findSome? probe), after) ∧
      after.slots = (session.forest.afterBases between (passedOver probe (base :: line))).slots := by
  have hprobe := htest base hbase between
  rw [List.findSome?_cons]
  cases hfound : probe base with
  | some found =>
    rw [hfound] at hprobe
    have hnone : passedOver probe (base :: line) = [] := by simp [passedOver, hfound]
    rw [hnone]
    exact ⟨between, (run_bind_ok hnext _).trans (run_bind_ok hprobe _), rfl⟩
  | none =>
    rw [hfound] at hprobe
    have hpassed : passedOver probe (base :: line) = base :: passedOver probe line := by
      simp [passedOver, hfound]
    rw [hpassed]
    obtain ⟨after, hrun, hslots⟩ := hrest
    exact ⟨after, (run_bind_ok hnext _).trans ((run_bind_ok hprobe _).trans hrun), hslots⟩

/-- The rest of a search that stands at `node` reads the bases of `node` and of what it goes past. -/
theorem run_findSome? {seen line : List NodeId} {node : NodeId} {limit : Nat} {memo : Memo}
    (hline : Trail session.baseOf seen node line) (hnode : node < session.forest.size)
    (hmemo : session.Settled memo) (hlimit : line.length < limit) : ∃ after,
      (Walk.findSome? session.forest session.forest.base test limit ⟨.standing node, seen⟩).run memo =
        (.ok (line.findSome? probe), after) ∧
      after.slots = (session.forest.afterBases memo (node :: passedOver probe line)).slots := by
  obtain ⟨limit, rfl⟩ := Nat.exists_eq_add_one_of_ne_zero (Nat.ne_zero_of_lt hlimit)
  induction hline generalizing limit memo with
  | stop hnone => exact ⟨_, run_bind_ok (h.run_next_stop hmemo hnode hnone) _, rfl⟩
  | cut hnext hmem =>
    obtain ⟨event, _, hstep⟩ := h.run_next_cut hmemo hnode hnext hmem
    exact ⟨_, run_bind_ok hstep _, rfl⟩
  | step hnext hnot _ ih =>
    have hbase := h.baseOf_lt hnext
    have hsettled := h.settled_afterBases hmemo (List.forall_mem_singleton.mpr hnode)
    apply run_findSome?_of_meets htest hbase (h.run_next_step hmemo hnode hnext hnot)
    have hlimit' := Nat.lt_of_succ_lt_succ hlimit
    obtain ⟨limit, rfl⟩ := Nat.exists_eq_add_one_of_ne_zero (Nat.ne_zero_of_lt hlimit')
    exact ih hbase hsettled limit hlimit'

end Search

/-- Where a node has no child of a name, the search for the name reads the base of the node and those of
the nodes that it goes past. -/
theorem run_visibleChild {id : NodeId} {name : String} {line : List NodeId} {memo : Memo}
    (hid : id < session.forest.size) (hnone : session.forest.childNamed name id = none)
    (hline : Trail session.baseOf [id] id line) (hmemo : session.Settled memo) : ∃ after,
      (session.forest.visibleChild id name).run memo =
        (.ok (line.findSome? (session.forest.childNamed name)), after) ∧
      after.slots = (session.forest.afterBases memo
        (id :: passedOver (session.forest.childNamed name) line)).slots := by
  have hlimit := h.length_lt_walkLimit hid hline
  have htest : ∀ met < session.forest.size, ∀ memo,
      (liftM (session.forest.child? met name) : Lookup (Option NodeId)).run memo =
        (.ok (session.forest.childNamed name met), memo) := by
    intro met hmet memo
    rw [Forest.child?_eq_ok hmet]
    rfl
  have hsearch : (session.forest.visibleChild id name).run memo =
      ((session.forest.baseWalk id) >>= fun walk ↦ walk.findSome? session.forest session.forest.base
        (fun base ↦ session.forest.child? base name) session.forest.walkLimit).run memo := by
    unfold Forest.visibleChild
    rw [Forest.child?_eq_ok hid, hnone]
    rfl
  rw [hsearch]
  cases hline with
  | stop hstop =>
    exact ⟨_, run_bind_ok (h.run_baseWalk_stop hmemo hid hstop) _, rfl⟩
  | cut hnext hmem =>
    obtain rfl := List.mem_singleton.mp hmem
    obtain ⟨event, _, hstart⟩ := h.run_baseWalk_cut hmemo hid hnext
    exact ⟨_, run_bind_ok hstart _, rfl⟩
  | @step _ _ base _ hnext hnot htrail =>
    have hbase := h.baseOf_lt hnext
    have hstart := h.run_baseWalk_step hmemo hid hnext (List.mem_singleton.not.mp hnot)
    have hsettled := h.settled_afterBases hmemo (List.forall_mem_singleton.mpr hid)
    have hrest := h.run_findSome? htest htrail hbase hsettled (Nat.lt_of_succ_lt_succ hlimit)
    -- The walk meets `base` first, and reads no further base for that.
    have hmeets : (Walk.next session.forest session.forest.base ⟨.before base, [base, id]⟩).run
        (session.forest.afterBases memo [id]) =
          (.ok (some base, ⟨.standing base, [base, id]⟩), session.forest.afterBases memo [id]) := rfl
    obtain ⟨after, hrun, hslots⟩ := run_findSome?_of_meets htest hbase hmeets hrest
    exact ⟨after, (run_bind_ok hstart _).trans hrun, hslots⟩

end Valid

/-! ## One more child -/

/-- The session with a new child of a node, registered under its own name. -/
def addChild (session : Session ε) (id : NodeId) (name : String) (payload : ε) (root : Option NodeId) :
    Session ε :=
  ⟨(session.forest.add name payload (some id) root).modify id fun node ↦
    { node with children := node.children.insert name session.forest.size }, session.memo.grow⟩

section AddChild

variable {session : Session ε} {id : NodeId} (name : String) (payload : ε) (root : Option NodeId)

theorem lt_size_addChild : session.forest.size < (session.addChild id name payload root).forest.size := by
  unfold addChild
  rw [Forest.size_modify, Forest.size_add]
  exact Nat.lt_succ_self _

theorem slot_addChild (other : NodeId) :
    (session.addChild id name payload root).memo.slot other = session.memo.slot other :=
  Memo.slot_grow ..

theorem nameOf_addChild (other : NodeId) : (session.addChild id name payload root).forest.nameOf other =
    if other = session.forest.size then some name else session.forest.nameOf other := by
  unfold addChild
  rw [Forest.nameOf_modify]
  · exact Forest.nameOf_add ..
  · exact fun _ ↦ rfl

theorem parentOf_addChild (other : NodeId) : (session.addChild id name payload root).forest.parentOf other =
    if other = session.forest.size then some id else session.forest.parentOf other := by
  unfold addChild
  rw [Forest.parentOf_modify]
  · exact Forest.parentOf_add ..
  · exact fun _ ↦ rfl

variable (hid : id < session.forest.size)
include hid

theorem childNamed_addChild (key : String) (other : NodeId) :
    (session.addChild id name payload root).forest.childNamed key other =
      if other = id ∧ key = name then some session.forest.size else session.forest.childNamed key other := by
  have hlt : id < (session.forest.add name payload (some id) root).size := by
    rw [Forest.size_add]
    exact Nat.lt_succ_of_lt hid
  unfold addChild
  rw [Forest.childNamed_register hlt, Forest.childNamed_add]

theorem Valid.addChild (h : session.Valid) : (session.addChild id name payload root).Valid := by
  have hparent : ∀ parent ∈ some id, parent < session.forest.size := by simpa
  apply (h.add hparent name payload root).of_forest
  · exact Forest.size_modify ..
  · exact Forest.parentOf_modify fun _ ↦ rfl
  · intro other key child hchild
    have hcases := (childNamed_addChild name payload root hid key other).symm.trans hchild
    rw [Forest.size_add]
    split at hcases
    next =>
      rw [← Option.some.inj hcases]
      exact Nat.lt_succ_self _
    next => exact Nat.lt_succ_of_lt (h.closed.child_lt hcases)

/-- What the new child can have as its base is what the others have under its name. -/
theorem Valid.namesakeOf_addChild (h : session.Valid) {met : NodeId} (hmet : met ≠ id) :
    (session.addChild id name payload root).forest.namesakeOf session.forest.size met =
      session.forest.childNamed name met := by
  unfold Forest.namesakeOf
  rw [nameOf_addChild, if_pos rfl, Option.bind_some, childNamed_addChild name payload root hid,
    if_neg fun hand ↦ hmet hand.1]
  cases hchild : session.forest.childNamed name met with
  | none => rfl
  | some child =>
    have hne : child ≠ session.forest.size := Nat.ne_of_lt (h.closed.child_lt hchild)
    simp [hne]

/-- Where the bases are known that the search for a name reads, a new child of that name has as its base
what the search finds. -/
theorem Valid.baseOf_addChild (h : session.Valid) {line : List NodeId} (hline : Trail session.baseOf [id] id line)
    (hknown : ∀ met ∈ id :: passedOver (session.forest.childNamed name) line,
      session.memo.slot met = .resolved (session.baseOf met)) :
    (session.addChild id name payload root).baseOf session.forest.size =
      line.findSome? (session.forest.childNamed name) := by
  have hafter := h.addChild name payload root hid
  have hlt : id < (session.addChild id name payload root).forest.size :=
    Nat.lt_trans hid (lt_size_addChild name payload root)
  obtain ⟨line', hline'⟩ := hafter.exists_trail hlt
  have hslot : (session.addChild id name payload root).memo.slot session.forest.size = .unresolved := by
    rw [slot_addChild]
    exact slot_of_not_lt (h.slots_size ▸ Nat.lt_irrefl _)
  have hparent : (session.addChild id name payload root).forest.parentOf session.forest.size = some id := by
    rw [parentOf_addChild, if_pos rfl]
  rw [baseOf_eq_findSome? hslot hparent hline']
  apply hline.findSome?_eq_of_agree hline'
  · intro met hmet
    apply baseOf_of_resolved
    rw [slot_addChild]
    exact hknown met hmet
  · intro met hmet
    have hne : met ≠ id := fun heq ↦ hline.not_mem_seen hmet (heq ▸ List.mem_singleton_self id)
    exact h.namesakeOf_addChild name payload root hid hne

/-- Where the bases are known that a search for a name reads, a child that is obtained under that name has
as its base what the search finds, and is what a search finds from then on. -/
theorem Valid.answers_obtained [Family ε] (h : session.Valid) {line : List NodeId}
    (hnone : session.forest.childNamed name id = none) (hline : Trail session.baseOf [id] id line)
    (hknown : ∀ met ∈ id :: passedOver (session.forest.childNamed name) line,
      session.memo.slot met = .resolved (session.baseOf met))
    {child : NodeId} {after : Session ε}
    (hobtained : (Action.obtainChild id name).run session = (.ok child, after)) :
    after.Answers (.ask (.query (.base child)))
        (.reply (.id? (line.findSome? (session.forest.childNamed name)))) ∧
      after.Answers (.ask (.query (.visibleChild id name))) (.reply (.id? (some child))) := by
  obtain ⟨payload, root, hrun⟩ := Action.exists_run_obtainChild_eq hnone (congrArg Prod.fst hobtained)
  obtain ⟨hchild, hsession⟩ := Prod.mk.inj (hobtained.symm.trans hrun)
  obtain rfl := Except.ok.inj hchild
  obtain rfl : after = session.addChild id name payload root := hsession
  have hafter := h.addChild name payload root hid
  have hnew : session.forest.size < (session.addChild id name payload root).forest.size :=
    lt_size_addChild name payload root
  have hlt := Nat.lt_trans hid hnew
  obtain ⟨line', hline'⟩ := hafter.exists_trail hlt
  constructor
  · rw [← h.baseOf_addChild name payload root hid hline hknown]
    apply hafter.answers_query
    exact (hafter.keeps_base _ hnew).bind (returns_pure _)
  · have hanswers := hafter.answers_visibleChild hlt hline' name
    rwa [List.findSome?_cons, childNamed_addChild name payload root hid, if_pos ⟨rfl, rfl⟩] at hanswers

end AddChild

/-! ## New children -/

/-- A query leaves to later reads what reading its answer leaves. -/
theorem memo_afterReads_query (session : Session ε) (before : List (Read ε)) (query : Query) :
    (session.afterReads (before ++ [.ask (.query query)])).memo =
      ((query.answer session.forest).run (session.afterReads before).memo).2 := by
  unfold afterReads
  rw [List.foldl_append]
  exact congrArg Prod.snd (run_map ..)

namespace Valid

variable {session : Session ε} (h : session.Valid)
include h

/-- Once a search for a name was made, all the bases are known that it read. -/
theorem slot_of_searched {id : NodeId} {name : String} {line : List NodeId} (hid : id < session.forest.size)
    (hnone : session.forest.childNamed name id = none) (hline : Trail session.baseOf [id] id line)
    (before between : List (Read ε)) :
    ∀ met ∈ id :: passedOver (session.forest.childNamed name) line,
      (session.afterReads (before ++ .ask (.query (.visibleChild id name)) :: between)).memo.slot met =
        .resolved (session.baseOf met) := by
  intro met hmet
  have hsettled := (h.consistent_afterReads before).settled
  obtain ⟨after, hrun, hslots⟩ := h.run_visibleChild hid hnone hline hsettled
  have hquery : ((Query.visibleChild id name).answer session.forest).run (session.afterReads before).memo =
      (.ok (.id? _), after) := (run_map ..).trans (by rw [hrun]; rfl)
  have hids : ∀ other ∈ id :: passedOver (session.forest.childNamed name) line,
      other < session.forest.size := by
    intro other hother
    apply h.cons_trail_lt hid hline
    exact List.cons_subset_cons id (List.takeWhile_subset _) hother
  rw [List.append_cons]
  apply h.slot_afterReads_append
  rw [memo_afterReads_query, hquery, Memo.slot_eq_of_slots_eq hslots]
  exact h.slot_afterBases hsettled hids hmet

/-- A child that a node is given has as its base what the node showed under that name before, and is what
it shows from then on. -/
theorem obtained_inherits_visible [Family ε] {id : NodeId} {name : String}
    (hnone : session.forest.child? id name = .ok none) (before between : List (Read ε)) : ∃ visible,
    session.answerAfter before (.ask (.query (.visibleChild id name))) = .ok (.reply (.id? visible)) ∧
    ∀ child after,
      (session.read (before ++ .ask (.query (.visibleChild id name)) :: between)).step
        (Action.obtainChild id name) = (.ok child, after) →
      after.Answers (.ask (.query (.base child))) (.reply (.id? visible)) ∧
      after.Answers (.ask (.query (.visibleChild id name))) (.reply (.id? (some child))) := by
  have hid : id < session.forest.size := by
    by_contra hnot
    simp [Forest.child?, Forest.node_eq_error hnot, bind, Except.bind] at hnone
  rw [Forest.child?_eq_ok hid] at hnone
  replace hnone := Except.ok.inj hnone
  obtain ⟨line, hline⟩ := h.exists_trail hid
  refine ⟨line.findSome? (session.forest.childNamed name), ?_, fun child after hstep ↦ ?_⟩
  · have hanswer := h.answers_visibleChild hid hline name before
    rwa [List.findSome?_cons, hnone] at hanswer
  let reads : List (Read ε) := before ++ .ask (.query (.visibleChild id name)) :: between
  let middle : Session ε := ⟨session.forest, (session.afterReads reads).memo.restart⟩
  have hsettled : session.Settled middle.memo := (h.consistent_afterReads reads).settled.restart
  have hmiddle : middle.Valid := h.of_settled hsettled
  have hbases : middle.baseOf = session.baseOf := h.baseOf_of_settled hsettled
  have hlt : id < middle.forest.size := hid
  apply hmiddle.answers_obtained name hlt hnone (hbases ▸ hline) _ hstep
  rw [hbases]
  exact h.slot_of_searched hid hnone hline before between

end Valid

/-- The hall of the old house shows the lamp of the other hall, and then gets a lamp of its own. -/
theorem twoHouses_obtained_inherits_visible :
    let before : List (Read Unit) := [.ask (.query (.base 4)), .openWalk 3]
    let between : List (Read Unit) := [.advance 0, .ask (.query (.chain 0))]
    let reads := before ++ .ask (.query (.visibleChild 2 "lamp")) :: between
    twoHouses.Valid ∧ twoHouses.forest.child? 2 "lamp" = .ok none ∧
      twoHouses.answerAfter before (.ask (.query (.visibleChild 2 "lamp"))) =
        .ok (.reply (.id? (some 4))) ∧
      ∃ after, (twoHouses.read reads).step (Action.obtainChild 2 "lamp") = (.ok 5, after) ∧
        after.Answers (.ask (.query (.base 5))) (.reply (.id? (some 4))) ∧
        after.Answers (.ask (.query (.visibleChild 2 "lamp"))) (.reply (.id? (some 5))) := by
  intro before between reads
  have hvalid : twoHouses.Valid := by decide
  have hnone : twoHouses.forest.child? 2 "lamp" = .ok none := rfl
  have hshown : twoHouses.answerAfter before (.ask (.query (.visibleChild 2 "lamp"))) =
      .ok (.reply (.id? (some 4))) := rfl
  obtain ⟨visible, hvisible, hobtained⟩ :=
    Valid.obtained_inherits_visible hvalid hnone before between
  obtain rfl : some 4 = visible := by simpa using hshown.symm.trans hvisible
  exact ⟨hvalid, hnone, hshown, _, rfl, hobtained 5 _ rfl⟩

end Session

end Lineage
