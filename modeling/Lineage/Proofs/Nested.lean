import Lineage.Proofs.Reading
import Lineage.Proofs.Rooted
import Mathlib.Data.List.Induction

/-!
# Inheritance below the roots

Where bases are only set between root-level nodes, what a node inherits is the image of what its root
inherits: the chain of the node at some path under a root lists the nodes at that path under the
roots of the chain, without the roots that have no such node (`Built.chain_eq_filterMap`).  Hence
looking a path up name by name, each time at the nearest base that has a child of the name, comes to
the node at that path under the nearest root that has the whole path (`Built.visibleDescend_eq`).

The induction is on the path.  A chain that sets out in the middle of another comes round to nodes
before the middle where roots form a circle, which is why both statements compare trails that have
seen different nodes.
-/

namespace Lineage

open Lookup

/-- The node that names lead to when each is looked up among the visible children. -/
def Forest.visibleDescend {ε : Type} (forest : Forest ε) :
    NodeId → List String → Lookup (Option NodeId)
  | id, [] => return some id
  | id, name :: names => do
    match ← forest.visibleChild id name with
    | none => return none
    | some child => forest.visibleDescend child names

/-! ## First results -/

theorem findSome?_filterMap {α β γ : Type} (image : α → Option β) (probe : β → Option γ)
    (items : List α) :
    (items.filterMap image).findSome? probe = items.findSome? fun item ↦ (image item).bind probe := by
  rw [← List.head?_filterMap, ← List.head?_filterMap, List.filterMap_filterMap]

theorem findSome?_congr {α β : Type} {probe probe' : α → Option β} {items : List α}
    (h : ∀ item ∈ items, probe item = probe' item) :
    items.findSome? probe = items.findSome? probe' := by
  rw [← List.head?_filterMap, ← List.head?_filterMap, List.filterMap_congr h]

/-- Items that were tried before do not change what is found first. -/
theorem findSome?_append_of_tried {α β : Type} {probe : α → Option β} {items more : List α}
    (h : ∀ item ∈ more, probe item = none ∨ item ∈ items) :
    (items ++ more).findSome? probe = items.findSome? probe := by
  rw [List.findSome?_append]
  cases hitems : items.findSome? probe with
  | some found => rfl
  | none =>
    rw [List.findSome?_eq_none_iff] at hitems
    rw [Option.none_or, List.findSome?_eq_none_iff]
    intro item hitem
    rcases h item hitem with hnone | hmem
    · exact hnone
    · exact hitems item hmem

namespace Session

variable {ε : Type} {session : Session ε}

namespace Rooted

variable (h : session.Rooted)
include h

/-! ## Children of their parents -/

theorem baseOf_isRoot ⦃id base : NodeId⦄ (hid : session.forest.IsRoot id)
    (hbase : session.baseOf id = some base) : session.forest.IsRoot base := by
  cases hslot : session.memo.slot id with
  | unresolved => simp [baseOf_of_parentless hslot hid.2] at hbase
  | resolving => exact absurd hslot (h.valid.settled id)
  | resolved known =>
    rw [baseOf_of_resolved hslot] at hbase
    exact h.base_isRoot (hbase ▸ hslot)

/-- One path leads to a node from one node only. -/
theorem descendant_injective {names : List String} {left right found : NodeId}
    (hleft : session.forest.descendant names left = some found)
    (hright : session.forest.descendant names right = some found) : left = right := by
  induction names using List.reverseRecOn generalizing found with
  | nil => exact Option.some.inj (hleft.trans hright.symm)
  | append_singleton names name ih =>
    rw [Forest.descendant_concat] at hleft hright
    obtain ⟨above, hleft, hchild⟩ := Option.bind_eq_some_iff.mp hleft
    obtain ⟨above', hright, hchild'⟩ := Option.bind_eq_some_iff.mp hright
    have habove : some above = some above' := by
      rw [← (h.child hchild).2, (h.child hchild').2]
    exact ih hleft (Option.some.inj habove ▸ hright)

/-- No node on the trail of the parent has the child itself, so its base is found by name alone. -/
theorem baseOf_child {name : String} {parent child : NodeId} {line : List NodeId}
    (hchild : session.forest.childNamed name parent = some child)
    (hline : Trail session.baseOf [parent] parent line) :
    session.baseOf child = line.findSome? (session.forest.childNamed name) := by
  obtain ⟨hname, hparent⟩ := h.child hchild
  rw [baseOf_eq_findSome? (h.open_of_parent hparent) hparent hline]
  apply findSome?_congr
  intro met hmet
  unfold Forest.namesakeOf
  rw [hname, Option.bind_some]
  cases hfound : session.forest.childNamed name met with
  | none => rfl
  | some found =>
    have hne : found ≠ child := by
      rintro rfl
      have hsame := (h.child hfound).2.symm.trans hparent
      exact hline.not_mem_seen hmet (List.mem_singleton.mpr (Option.some.inj hsame))
    rw [Option.filter_some, if_pos (decide_eq_true hne)]

/-! ## Trails under roots -/

section Trail

variable {root : NodeId} {line : List NodeId}

theorem baseOf_concat {names : List String} {name : String} {id : NodeId}
    (hid : session.forest.descendant (names ++ [name]) root = some id)
    (hparent : ∀ parent, session.forest.descendant names root = some parent →
      Trail session.baseOf [parent] parent (line.filterMap (session.forest.descendant names))) :
    session.baseOf id = line.findSome? (session.forest.descendant (names ++ [name])) := by
  rw [Forest.descendant_concat] at hid
  obtain ⟨parent, hnames, hchild⟩ := Option.bind_eq_some_iff.mp hid
  rw [h.baseOf_child hchild (hparent parent hnames), findSome?_filterMap]
  apply findSome?_congr
  intro met _
  exact (Forest.descendant_concat names name met).symm

/-- The trail of a node under a root is the image of the trail of the root. -/
theorem trail_descendant {names : List String} {id : NodeId} (hroot : session.forest.IsRoot root)
    (hline : Trail session.baseOf [root] root line)
    (hid : session.forest.descendant names root = some id) :
    Trail session.baseOf [id] id (line.filterMap (session.forest.descendant names)) := by
  induction names using List.reverseRecOn generalizing root line id with
  | nil =>
    obtain rfl := Option.some.inj hid
    have hself : line.filterMap (session.forest.descendant []) = line := List.filterMap_some
    rw [hself]
    exact hline
  | append_singleton names name ih =>
    apply Trail.filterMap_image h.valid.baseOf_lt h.baseOf_isRoot _ _ hline hroot hid
    · intro left right found _ _ hleft hright
      exact h.descendant_injective hleft hright
    · intro origin line found horigin hline hfound
      exact h.baseOf_concat hfound fun parent hparent ↦ ih horigin hline hparent

theorem baseOf_descendant {names : List String} {id : NodeId} (hroot : session.forest.IsRoot root)
    (hline : Trail session.baseOf [root] root line)
    (hid : session.forest.descendant names root = some id) (hnames : names ≠ []) :
    session.baseOf id = line.findSome? (session.forest.descendant names) := by
  rw [← List.dropLast_append_getLast hnames] at hid ⊢
  exact h.baseOf_concat hid fun parent hparent ↦ h.trail_descendant hroot hline hparent

/-- If `current` is the first node at path `passed`, then its first visible child of a name is the
first node at the path one name longer. -/
theorem findSome?_childNamed {passed : List String} {current : NodeId} {tail : List NodeId}
    (hroot : session.forest.IsRoot root) (hline : Trail session.baseOf [root] root line)
    (hcurrent : (root :: line).findSome? (session.forest.descendant passed) = some current)
    (htail : Trail session.baseOf [current] current tail) (name : String) :
    (current :: tail).findSome? (session.forest.childNamed name) =
      (root :: line).findSome? (session.forest.descendant (passed ++ [name])) := by
  obtain ⟨before, met, rest, hsplit, hmet, hbefore⟩ := List.findSome?_eq_some_iff.mp hcurrent
  have hconcat : ∀ id, session.forest.descendant (passed ++ [name]) id =
      (session.forest.descendant passed id).bind (session.forest.childNamed name) :=
    Forest.descendant_concat passed name
  have hbefore' : ∀ id ∈ before, session.forest.descendant (passed ++ [name]) id = none := by
    intro id hid
    rw [hconcat, hbefore id hid, Option.bind_none]
  have hmetRoot : session.forest.IsRoot met := by
    have hmem : met ∈ root :: line := by simp [hsplit]
    rcases List.mem_cons.mp hmem with rfl | hmem
    · exact hroot
    · exact hline.subset_of_closed h.baseOf_isRoot hroot met hmem
  obtain ⟨further, hfurther⟩ := Trail.exists_trail h.valid.baseOf_lt hmetRoot.1
  obtain ⟨more, rfl, hmore⟩ := hline.exists_append_of_split hsplit hfurther
  -- Where roots form a circle, the walk from `met` comes round to roots tried before it.
  have htried : ∀ id ∈ more, session.forest.descendant (passed ++ [name]) id = none ∨
      id ∈ met :: rest := by
    intro id hid
    have hmem := hmore id hid
    rw [hsplit] at hmem
    exact (List.mem_append.mp hmem).imp_left (hbefore' id)
  obtain rfl := htail.unique (h.trail_descendant hmetRoot hfurther hmet)
  calc (current :: (rest ++ more).filterMap (session.forest.descendant passed)).findSome?
        (session.forest.childNamed name)
      = ((met :: rest ++ more).filterMap (session.forest.descendant passed)).findSome?
          (session.forest.childNamed name) := by
        rw [List.cons_append, List.filterMap_cons, hmet]
    _ = (met :: rest ++ more).findSome? (session.forest.descendant (passed ++ [name])) := by
        rw [findSome?_filterMap]
        exact findSome?_congr fun id _ ↦ (hconcat id).symm
    _ = (met :: rest).findSome? (session.forest.descendant (passed ++ [name])) :=
        findSome?_append_of_tried htried
    _ = (before ++ met :: rest).findSome? (session.forest.descendant (passed ++ [name])) := by
        rw [List.findSome?_append, List.findSome?_eq_none_iff.mpr hbefore', Option.none_or]
    _ = (root :: line).findSome? (session.forest.descendant (passed ++ [name])) := by
        rw [hsplit]

/-- The fold over the names comes to the first node at the whole path. -/
theorem keeps_visibleDescend {passed names : List String} {current : NodeId}
    (hroot : session.forest.IsRoot root) (hline : Trail session.baseOf [root] root line)
    (hcurrent : (root :: line).findSome? (session.forest.descendant passed) = some current) :
    Keeps session.Settled (session.forest.visibleDescend current names)
      (.ok ((root :: line).findSome? (session.forest.descendant (passed ++ names)))) := by
  induction names generalizing passed current with
  | nil =>
    rw [List.append_nil, hcurrent]
    exact returns_pure _
  | cons name names ih =>
    have hlt : current < session.forest.size := by
      obtain ⟨other, hother, hfound⟩ := List.exists_of_findSome?_eq_some hcurrent
      have hotherLt := h.valid.cons_trail_lt hroot.1 hline other hother
      exact h.valid.closed.descendant_lt hotherLt hfound
    obtain ⟨tail, htail⟩ := h.valid.exists_trail hlt
    have hvisible := h.valid.keeps_visibleChild hlt htail name
    rw [h.findSome?_childNamed hroot hline hcurrent htail] at hvisible
    rw [List.append_cons]
    unfold Forest.visibleDescend
    refine hvisible.bind ?_
    cases hnext : (root :: line).findSome? (session.forest.descendant (passed ++ [name])) with
    | some child => exact ih hnext
    | none =>
      have hnone : (root :: line).findSome? (session.forest.descendant (passed ++ [name] ++ names)) =
          none := by
        rw [List.findSome?_eq_none_iff] at hnext ⊢
        intro id hid
        rw [Forest.descendant_append, hnext id hid, Option.bind_none]
      rw [hnone]
      exact returns_pure none

end Trail

end Rooted

/-! ## Built sessions -/

/-- Two houses that extend one another.  Both have a hall, and that of the second has a lamp. -/
def twoHouses : Session Unit :=
  [.addRoot "old" (), .addRoot "new" (), .obtainChild 0 "hall", .obtainChild 1 "hall",
    .obtainChild 3 "lamp", .extend 0 1, .extend 1 0].foldl
    (fun session (edit : Edit Unit) ↦ (session.step edit.perform).2) (Session.empty Unit true)

theorem built_twoHouses : twoHouses.Built := by
  refine .step (.step (.step (.step (.step (.step (.step (.empty true) ?_) ?_) ?_) ?_) ?_) ?_) ?_
  · exact trivial
  · exact trivial
  · exact ⟨_, rfl⟩
  · exact ⟨_, rfl⟩
  · exact ⟨_, rfl⟩
  · exact ⟨by decide, by decide⟩
  · exact ⟨by decide, by decide⟩

variable [Family ε]

/-- What a node under a root inherits is the image of what the root inherits, after any reads. -/
theorem Built.chain_eq_filterMap (h : session.Built) (reads : List (Read ε)) {root id : NodeId}
    {names : List String} (hroot : session.forest.IsRoot root)
    (hid : session.forest.descend root names = .ok (some id)) :
    let memo := (session.afterReads reads).memo
    ∃ roots line base,
      ((session.forest.chain root).run memo).1 = .ok roots ∧
      ((session.forest.chain id).run memo).1 = .ok line ∧
      ((session.forest.inheritance id).run memo).1 = .ok line.reverse ∧
      ((session.forest.base id).run memo).1 = .ok base ∧
      (∀ other ∈ roots, session.forest.IsRoot other) ∧
      roots.filterMapM (fun other ↦ session.forest.descend other names) = .ok line ∧
      (names ≠ [] → roots.findSomeM? (fun other ↦ session.forest.descend other names) = .ok base) := by
  intro memo
  have hrooted := h.rooted
  have hvalid := hrooted.valid
  have hmemo : session.Settled memo := (hvalid.consistent_afterReads reads).settled
  rw [hvalid.closed.descend_eq_ok hroot.1] at hid
  have hfound := Except.ok.inj hid
  have hlt := hvalid.closed.descendant_lt hroot.1 hfound
  obtain ⟨roots, hroots⟩ := hvalid.exists_trail hroot.1
  have hline := hrooted.trail_descendant hroot hroots hfound
  have hread : ∀ other ∈ roots, session.forest.descend other names =
      .ok (session.forest.descendant names other) :=
    fun other hother ↦ hvalid.closed.descend_eq_ok (hvalid.trail_lt hroots other hother) names
  refine ⟨roots, _, session.baseOf id, ?_, ?_, ?_, ?_, ?_, Forest.filterMapM_eq_ok hread, fun hnames ↦ ?_⟩
  · exact (hvalid.keeps_chain hroot.1 hroots).run_eq hmemo
  · exact (hvalid.keeps_chain hlt hline).run_eq hmemo
  · exact (hvalid.keeps_inheritance hlt hline).run_eq hmemo
  · exact (hvalid.keeps_base id hlt).run_eq hmemo
  · exact hroots.subset_of_closed hrooted.baseOf_isRoot hroot
  · rw [hrooted.baseOf_descendant hroot hroots hfound hnames]
    exact Forest.findSomeM?_eq_ok hread

/-- The walk from the old house ends where it would come round to that house, and the walk from its hall
ends at the other hall. -/
theorem twoHouses_chain_eq_filterMap :
    twoHouses.Built ∧ twoHouses.forest.IsRoot 0 ∧
      twoHouses.forest.descend 0 ["hall"] = .ok (some 2) ∧
      let memo := (twoHouses.afterReads [.ask (.query (.base 4)), .openWalk 3, .advance 0]).memo
      ((twoHouses.forest.chain 0).run memo).1 = .ok [1] ∧
      ((twoHouses.forest.chain 2).run memo).1 = .ok [3] ∧
      ((twoHouses.forest.inheritance 2).run memo).1 = .ok [3] ∧
      ((twoHouses.forest.base 2).run memo).1 = .ok (some 3) ∧
      twoHouses.forest.IsRoot 1 ∧
      [1].filterMapM (fun other ↦ twoHouses.forest.descend other ["hall"]) = .ok [3] ∧
      [1].findSomeM? (fun other ↦ twoHouses.forest.descend other ["hall"]) = .ok (some 3) := by
  have hroot : twoHouses.forest.IsRoot 0 := by decide
  have hhall : twoHouses.forest.descend 0 ["hall"] = .ok (some 2) := rfl
  obtain ⟨roots, line, base, hroots, hline, hreverse, hbase, hall, himage, hnearest⟩ :=
    Built.chain_eq_filterMap built_twoHouses [.ask (.query (.base 4)), .openWalk 3, .advance 0] hroot hhall
  obtain rfl : roots = [1] := Except.ok.inj (hroots.symm.trans rfl)
  obtain rfl : line = [3] := Except.ok.inj (hline.symm.trans rfl)
  obtain rfl : base = some 3 := Except.ok.inj (hbase.symm.trans rfl)
  refine ⟨built_twoHouses, hroot, hhall, hroots, hline, hreverse, hbase, ?_, himage, ?_⟩
  · exact hall 1 (List.mem_singleton_self 1)
  · exact hnearest (List.cons_ne_nil "hall" [])

/-- Looking names up one by one comes to the node at the whole path under the first root that has
it, and to none where no root has it. -/
theorem Built.visibleDescend_eq (h : session.Built) (reads : List (Read ε)) {root : NodeId}
    (hroot : session.forest.IsRoot root) (names : List String) :
    let memo := (session.afterReads reads).memo
    ∃ roots found,
      ((session.forest.chain root).run memo).1 = .ok roots ∧
      ((session.forest.visibleDescend root names).run memo).1 = .ok found ∧
      (root :: roots).findSomeM? (fun other ↦ session.forest.descend other names) = .ok found ∧
      (found = none ↔ ∀ other ∈ root :: roots, session.forest.descend other names = .ok none) := by
  intro memo
  have hrooted := h.rooted
  have hvalid := hrooted.valid
  have hmemo : session.Settled memo := (hvalid.consistent_afterReads reads).settled
  obtain ⟨roots, hroots⟩ := hvalid.exists_trail hroot.1
  have hread : ∀ other ∈ root :: roots, session.forest.descend other names =
      .ok (session.forest.descendant names other) :=
    fun other hother ↦ hvalid.closed.descend_eq_ok (hvalid.cons_trail_lt hroot.1 hroots other hother) names
  have hself : (root :: roots).findSome? (session.forest.descendant []) = some root := rfl
  refine ⟨roots, (root :: roots).findSome? (session.forest.descendant names), ?_, ?_, ?_, ?_⟩
  · exact (hvalid.keeps_chain hroot.1 hroots).run_eq hmemo
  · exact (hrooted.keeps_visibleDescend hroot hroots hself).run_eq hmemo
  · exact Forest.findSomeM?_eq_ok hread
  · rw [List.findSome?_eq_none_iff]
    apply forall₂_congr
    intro other hother
    rw [hread other hother, Except.ok.injEq]

/-- The hall of the old house has no lamp and does not hide the lamp of the other hall. -/
theorem twoHouses_visibleDescend_eq :
    twoHouses.Built ∧ twoHouses.forest.IsRoot 0 ∧
      twoHouses.forest.descend 0 ["hall", "lamp"] = .ok none ∧
      twoHouses.forest.descend 1 ["hall", "lamp"] = .ok (some 4) ∧
      let memo := (twoHouses.afterReads []).memo
      ((twoHouses.forest.chain 0).run memo).1 = .ok [1] ∧
      ((twoHouses.forest.visibleDescend 0 ["hall", "lamp"]).run memo).1 = .ok (some 4) ∧
      [0, 1].findSomeM? (fun other ↦ twoHouses.forest.descend other ["hall", "lamp"]) = .ok (some 4) ∧
      (some 4 = none ↔ ∀ other ∈ [0, 1], twoHouses.forest.descend other ["hall", "lamp"] = .ok none) := by
  have hroot : twoHouses.forest.IsRoot 0 := by decide
  obtain ⟨roots, found, hroots, hfound, hfirst, hnone⟩ :=
    Built.visibleDescend_eq built_twoHouses [] hroot ["hall", "lamp"]
  obtain rfl : roots = [1] := Except.ok.inj (hroots.symm.trans rfl)
  obtain rfl : found = some 4 := Except.ok.inj (hfound.symm.trans rfl)
  exact ⟨built_twoHouses, hroot, rfl, rfl, hroots, hfound, hfirst, hnone⟩

end Session

end Lineage
