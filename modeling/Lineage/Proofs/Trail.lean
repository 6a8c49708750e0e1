import Lineage.Node
import Mathlib.Data.List.Nodup
import Mathlib.Data.List.Perm.Subperm
import Mathlib.Logic.Relation

/-!
# Trails

Let `next` say of each node to which node one goes on from it, if to any.  A trail lists the nodes
met by going on and on, and ends before the first that was seen already.  A trail that sets out from
`origin` has seen `origin` and nothing else.

Every trail over finitely many nodes ends (`exists_trail`), meets no node twice and is the only one
from where it starts.  It meets just what going on leads to from its origin, the origin apart
(`Trail.mem_iff_transGen`), and is cut where going on would come to some node twice
(`Trail.exists_transGen_self_iff`).

A trail that has seen less goes on as long, and then only through nodes that the other had seen
(`Trail.exists_append`).  So what is found first from a node on is its own, or else what is found first
from the next node on (`Trail.findSome?_cons_eq_or`).  `Trail.filterMap_image` carries a trail along a
map `image`, where going on from an image leads to the first image on the trail of the original.
-/

namespace Lineage

open Relation

/-- Going on from one thing leads to another at once. -/
def LeadsOn {α : Type} (next : α → Option α) (start met : α) : Prop := next start = some met

/-- From what is on a cycle, going on leads only to what is on a cycle. -/
theorem transGen_self_of_reflTransGen {α : Type} {next : α → Option α} {start met : α}
    (h : TransGen (LeadsOn next) start start) (hreach : ReflTransGen (LeadsOn next) start met) :
    TransGen (LeadsOn next) met met := by
  induction hreach with
  | refl => exact h
  | @tail between other _ hstep ih =>
    obtain ⟨first, hfirst, hback⟩ := TransGen.head'_iff.mp ih
    obtain rfl := Option.some.inj (hfirst.symm.trans hstep)
    exact .tail' hback hstep

/-- From `node`, with the nodes of `seen` behind, `next` leads through the nodes of a list. -/
inductive Trail (next : NodeId → Option NodeId) : List NodeId → NodeId → List NodeId → Prop
  | stop {seen node} : next node = none → Trail next seen node []
  | cut {seen node base} : next node = some base → base ∈ seen → Trail next seen node []
  | step {seen node base rest} : next node = some base → base ∉ seen →
      Trail next (base :: seen) base rest → Trail next seen node (base :: rest)

namespace Trail

variable {next : NodeId → Option NodeId} {seen line : List NodeId} {node : NodeId}

theorem unique {line' : List NodeId} (h : Trail next seen node line)
    (h' : Trail next seen node line') : line = line' := by
  induction h generalizing line' with
  | stop hnone =>
    cases h' with
    | stop => rfl
    | cut => rfl
    | step hnext => simp [hnone] at hnext
  | cut hnext hmem =>
    cases h' with
    | stop => rfl
    | cut => rfl
    | step hnext' hnot =>
      obtain rfl := Option.some.inj (hnext.symm.trans hnext')
      exact absurd hmem hnot
  | step hnext hnot _ ih =>
    cases h' with
    | stop hnone => simp [hnone] at hnext
    | cut hnext' hmem =>
      obtain rfl := Option.some.inj (hnext.symm.trans hnext')
      exact absurd hmem hnot
    | step hnext' _ htrail =>
      obtain rfl := Option.some.inj (hnext.symm.trans hnext')
      rw [ih htrail]

theorem not_mem_seen (h : Trail next seen node line) {met : NodeId} (hmet : met ∈ line) :
    met ∉ seen := by
  induction h with
  | stop => simp at hmet
  | cut => simp at hmet
  | step _ hnot _ ih =>
    rcases List.mem_cons.mp hmet with rfl | hmet
    · exact hnot
    · exact fun hmem ↦ ih hmet (List.mem_cons_of_mem _ hmem)

theorem nodup (h : Trail next seen node line) : line.Nodup := by
  induction h with
  | stop => exact List.nodup_nil
  | cut => exact List.nodup_nil
  | step _ _ htrail ih =>
    exact List.nodup_cons.mpr ⟨fun hmem ↦ htrail.not_mem_seen hmem List.mem_cons_self, ih⟩

theorem nodup_cons {origin : NodeId} (h : Trail next [origin] origin line) : (origin :: line).Nodup :=
  List.nodup_cons.mpr ⟨fun hmem ↦ h.not_mem_seen hmem List.mem_cons_self, h.nodup⟩

/-- A set of nodes that going on does not leave holds every trail that starts in it. -/
theorem subset_of_closed (h : Trail next seen node line) {closed : NodeId → Prop}
    (hclosed : ∀ ⦃id base⦄, closed id → next id = some base → closed base) (hnode : closed node) :
    ∀ met ∈ line, closed met := by
  induction h with
  | stop => simp
  | cut => simp
  | step hnext _ _ ih =>
    intro met hmet
    rcases List.mem_cons.mp hmet with rfl | hmet
    · exact hclosed hnode hnext
    · exact ih (hclosed hnode hnext) met hmet

theorem exists_next_eq (h : Trail next seen node line) {met : NodeId} (hmet : met ∈ line) :
    ∃ id, next id = some met := by
  induction h with
  | stop => simp at hmet
  | cut => simp at hmet
  | step hnext _ _ ih =>
    rcases List.mem_cons.mp hmet with rfl | hmet
    · exact ⟨_, hnext⟩
    · exact ih hmet

/-! ## Trails end -/

theorem length_le_of_nodup_of_lt {ids : List NodeId} {bound : Nat} (hnodup : ids.Nodup)
    (hlt : ∀ id ∈ ids, id < bound) : ids.length ≤ bound := by
  have hsubset : ids ⊆ List.range bound := fun id hid ↦ List.mem_range.mpr (hlt id hid)
  have hle := (hnodup.subperm hsubset).length_le
  rwa [List.length_range] at hle

section Bounded

variable {bound : Nat} (hbound : ∀ ⦃id base⦄, next id = some base → base < bound)
include hbound

theorem length_add_length_le (h : Trail next seen node line) (hnodup : seen.Nodup)
    (hseen : ∀ id ∈ seen, id < bound) : seen.length + line.length ≤ bound := by
  rw [← List.length_append]
  apply length_le_of_nodup_of_lt
  · exact List.nodup_append'.mpr ⟨hnodup, h.nodup, fun id hid hline ↦ h.not_mem_seen hline hid⟩
  · intro id hid
    rcases List.mem_append.mp hid with hid | hid
    · exact hseen id hid
    · obtain ⟨_, hnext⟩ := h.exists_next_eq hid
      exact hbound hnext

/-- Each step sees one node more, so a trail ends before it runs out of nodes. -/
theorem exists_of_lt (limit : Nat) {seen : List NodeId} {node : NodeId} (hnodup : seen.Nodup)
    (hseen : ∀ id ∈ seen, id < bound) (hlimit : bound < seen.length + limit) :
    ∃ line, Trail next seen node line := by
  induction limit generalizing seen node with
  | zero =>
    have hle := length_le_of_nodup_of_lt hnodup hseen
    omega
  | succ limit ih =>
    cases hnext : next node with
    | none => exact ⟨[], .stop hnext⟩
    | some base =>
      by_cases hmem : base ∈ seen
      · exact ⟨[], .cut hnext hmem⟩
      · have hrest : ∃ rest, Trail next (base :: seen) base rest := by
          apply ih (List.nodup_cons.mpr ⟨hmem, hnodup⟩)
          · exact List.forall_mem_cons.mpr ⟨hbound hnext, hseen⟩
          · rw [List.length_cons]
            omega
        obtain ⟨rest, hrest⟩ := hrest
        exact ⟨base :: rest, .step hnext hmem hrest⟩

theorem exists_trail {origin : NodeId} (horigin : origin < bound) :
    ∃ line, Trail next [origin] origin line := by
  apply exists_of_lt hbound bound (List.nodup_singleton origin)
  · simpa using horigin
  · simp

end Bounded

/-! ## Trails that have seen less -/

/-- From the nodes of `seen` other than `node`, going on leads to nodes of `seen`. -/
def Behind (next : NodeId → Option NodeId) (seen : List NodeId) (node : NodeId) : Prop :=
  ∀ id ∈ seen, id ≠ node → ∀ base, next id = some base → base ∈ seen

theorem behind_singleton (node : NodeId) : Behind next [node] node := by
  intro id hid hne
  exact absurd (List.mem_singleton.mp hid) hne

theorem Behind.step {base : NodeId} (h : Behind next seen node) (hnext : next node = some base) :
    Behind next (base :: seen) base := by
  intro id hid hne target htarget
  have hseen : id ∈ seen := (List.mem_cons.mp hid).resolve_left hne
  by_cases hid : id = node
  · rw [hid] at htarget
    obtain rfl := Option.some.inj (hnext.symm.trans htarget)
    exact List.mem_cons_self
  · exact List.mem_cons_of_mem _ (h id hseen hid target htarget)

/-- Where going on from `node` leads back, nothing leads out of what was seen. -/
theorem Behind.subset_of_cut {less tail : List NodeId} (h : Behind next seen node)
    (hnode : node ∈ seen) (hcut : ∀ base, next node = some base → base ∈ seen)
    (htail : Trail next less node tail) : ∀ met ∈ tail, met ∈ seen := by
  have hclosed : ∀ ⦃id base⦄, id ∈ seen → next id = some base → base ∈ seen := by
    intro id base hid hnext
    by_cases hid' : id = node
    · exact hcut base (hid' ▸ hnext)
    · exact h id hid hid' base hnext
  exact htail.subset_of_closed hclosed hnode

/-- A trail that has seen less goes the same way, and may go on through nodes that the other had
seen. -/
theorem exists_append {less tail : List NodeId} (h : Trail next seen node line)
    (hnode : node ∈ seen) (hbehind : Behind next seen node) (hless : ∀ id ∈ less, id ∈ seen)
    (htail : Trail next less node tail) :
    ∃ rest, tail = line ++ rest ∧ ∀ id ∈ rest, id ∈ seen ∨ id ∈ line := by
  induction h generalizing less tail with
  | stop hnone =>
    have hsubset := hbehind.subset_of_cut hnode (by simp [hnone]) htail
    exact ⟨tail, rfl, fun id hid ↦ .inl (hsubset id hid)⟩
  | cut hnext hmem =>
    have hsubset := hbehind.subset_of_cut hnode (by simpa [hnext] using hmem) htail
    exact ⟨tail, rfl, fun id hid ↦ .inl (hsubset id hid)⟩
  | @step seen node base line hnext hnot _ ih =>
    cases htail with
    | stop hnone => simp [hnext] at hnone
    | cut hnext' hmem =>
      obtain rfl := Option.some.inj (hnext.symm.trans hnext')
      exact absurd (hless _ hmem) hnot
    | step hnext' _ htail =>
      obtain rfl := Option.some.inj (hnext.symm.trans hnext')
      have hless' : ∀ id ∈ base :: less, id ∈ base :: seen :=
        fun id hid ↦ (List.mem_cons.mp hid).elim (fun heq ↦ heq ▸ List.mem_cons_self)
          fun hid ↦ List.mem_cons_of_mem _ (hless id hid)
      obtain ⟨rest, rfl, hrest⟩ := ih List.mem_cons_self (hbehind.step hnext) hless' htail
      refine ⟨rest, rfl, fun id hid ↦ ?_⟩
      rcases hrest id hid with hseen | hline
      · rcases List.mem_cons.mp hseen with rfl | hseen
        · exact .inr List.mem_cons_self
        · exact .inl hseen
      · exact .inr (List.mem_cons_of_mem _ hline)

/-- What lies past a node of a trail is a trail that sets out from there, having seen more. -/
theorem exists_suffix {passed rest : List NodeId} {met : NodeId}
    (h : Trail next seen node (passed ++ met :: rest)) (hnode : node ∈ seen)
    (hbehind : Behind next seen node) :
    ∃ seen', Trail next seen' met rest ∧ met ∈ seen' ∧ Behind next seen' met ∧
      ∀ id ∈ seen', id ∈ seen ∨ id ∈ passed ∨ id = met := by
  induction passed generalizing seen node with
  | nil =>
    cases h with
    | step hnext _ htrail =>
      refine ⟨met :: seen, htrail, List.mem_cons_self, hbehind.step hnext, fun id hid ↦ ?_⟩
      rcases List.mem_cons.mp hid with rfl | hid
      · exact .inr (.inr rfl)
      · exact .inl hid
  | cons base passed ih =>
    cases h with
    | step hnext _ htrail =>
      obtain ⟨seen', htrail', hmet, hbehind', hseen'⟩ :=
        ih htrail List.mem_cons_self (hbehind.step hnext)
      refine ⟨seen', htrail', hmet, hbehind', fun id hid ↦ ?_⟩
      rcases hseen' id hid with hseen | hpassed | rfl
      · rcases List.mem_cons.mp hseen with rfl | hseen
        · exact .inr (.inl List.mem_cons_self)
        · exact .inl hseen
      · exact .inr (.inl (List.mem_cons_of_mem _ hpassed))
      · exact .inr (.inr rfl)

/-- The trail from a node on the way goes on as the way does, and then only through nodes that the
way has met. -/
theorem exists_append_of_split {origin met : NodeId} {passed rest tail : List NodeId}
    (h : Trail next [origin] origin line) (hsplit : origin :: line = passed ++ met :: rest)
    (htail : Trail next [met] met tail) :
    ∃ more, tail = rest ++ more ∧ ∀ id ∈ more, id ∈ origin :: line := by
  cases passed with
  | nil =>
    obtain ⟨rfl, rfl⟩ := List.cons.inj hsplit
    exact ⟨[], by rw [htail.unique h, List.append_nil], by simp⟩
  | cons head passed =>
    obtain ⟨rfl, rfl⟩ := List.cons.inj hsplit
    obtain ⟨seen', htrail, hmet, hbehind, hseen⟩ :=
      h.exists_suffix (List.mem_singleton_self origin) (behind_singleton origin)
    obtain ⟨more, rfl, hmore⟩ :=
      htrail.exists_append hmet hbehind (fun id hid ↦ List.mem_singleton.mp hid ▸ hmet) htail
    refine ⟨more, rfl, fun id hid ↦ ?_⟩
    rcases hmore id hid with hid | hid
    · rcases hseen id hid with hid | hid | rfl
      · simp [List.mem_singleton.mp hid]
      · simp [hid]
      · simp
    · simp [hid]

/-! ## Where a trail leads -/

theorem isChain (h : Trail next seen node line) : (node :: line).IsChain (LeadsOn next) := by
  induction h with
  | stop | cut => exact .singleton _
  | step hnext _ _ ih => exact .cons_cons hnext ih

/-- After the last node of a trail comes none, or one that was met before. -/
theorem mem_of_next_getLastD (h : Trail next seen node line) {base : NodeId}
    (hbase : next (line.getLastD node) = some base) : base ∈ line.reverse ++ seen := by
  induction h with
  | stop hnone => exact nomatch hnone.symm.trans hbase
  | cut hnext hmem => exact Option.some.inj (hnext.symm.trans hbase) ▸ hmem
  | step _ _ _ ih =>
    rw [List.getLastD_cons] at hbase
    simpa using ih hbase

theorem mem_cons_of_next_getLastD {origin : NodeId} (h : Trail next [origin] origin line) {base : NodeId}
    (hbase : next (line.getLastD origin) = some base) : base ∈ origin :: line := by
  simpa [or_comm] using h.mem_of_next_getLastD hbase

/-- From the nodes of a trail and those that were seen, going on leads to no others. -/
theorem mem_of_next (h : Trail next seen node line) (hnode : node ∈ seen)
    (hbehind : Behind next seen node) {id base : NodeId} (hid : id ∈ line.reverse ++ seen)
    (hbase : next id = some base) : base ∈ line.reverse ++ seen := by
  induction h with
  | @stop seen node hnone =>
    have hne : id ≠ node := fun heq ↦ nomatch (heq ▸ hnone).symm.trans hbase
    exact hbehind id hid hne base hbase
  | @cut seen node target hnext hmem =>
    by_cases heq : id = node
    · exact Option.some.inj (hnext.symm.trans (heq ▸ hbase)) ▸ hmem
    · exact hbehind id hid heq base hbase
  | step hnext _ _ ih =>
    simpa using ih List.mem_cons_self (hbehind.step hnext) (by simpa using hid)

theorem mem_of_reflTransGen {origin : NodeId} (h : Trail next [origin] origin line) {met : NodeId}
    (hmet : ReflTransGen (LeadsOn next) origin met) : met ∈ origin :: line := by
  induction hmet with
  | refl => exact List.mem_cons_self
  | tail _ hstep ih =>
    have hmem := h.mem_of_next (List.mem_singleton_self origin) (behind_singleton origin)
      (by simpa [or_comm] using ih) hstep
    simpa [or_comm] using hmem

theorem transGen_of_mem (h : Trail next seen node line) {met : NodeId} (hmet : met ∈ line) :
    TransGen (LeadsOn next) node met := by
  induction h with
  | stop | cut => exact nomatch hmet
  | step hnext _ _ ih =>
    rcases List.mem_cons.mp hmet with rfl | hmet
    · exact .single hnext
    · exact .head hnext (ih hmet)

/-- A trail from `origin` meets the nodes that going on from `origin` leads to, `origin` apart. -/
theorem mem_iff_transGen {origin : NodeId} (h : Trail next [origin] origin line) (met : NodeId) :
    met ∈ line ↔ met ≠ origin ∧ TransGen (LeadsOn next) origin met := by
  constructor
  · intro hmet
    exact ⟨fun heq ↦ h.not_mem_seen hmet (List.mem_singleton.mpr heq), h.transGen_of_mem hmet⟩
  · rintro ⟨hne, hreach⟩
    exact (List.mem_cons.mp (h.mem_of_reflTransGen hreach.to_reflTransGen)).resolve_left hne

/-- A trail reaches its last node from each node that it meets. -/
theorem reflTransGen_getLastD (h : Trail next seen node line) {met : NodeId} (hmet : met ∈ node :: line) :
    ReflTransGen (LeadsOn next) met (line.getLastD node) := by
  induction h generalizing met with
  | stop | cut => exact List.mem_singleton.mp hmet ▸ .refl
  | step hnext _ _ ih =>
    rw [List.getLastD_cons]
    rcases List.mem_cons.mp hmet with rfl | hmet
    · exact .head hnext (ih List.mem_cons_self)
    · exact ih hmet

/-- A trail is cut just where going on from its origin comes to some node twice. -/
theorem exists_transGen_self_iff {origin : NodeId} (h : Trail next [origin] origin line) :
    (∃ met, ReflTransGen (LeadsOn next) origin met ∧ TransGen (LeadsOn next) met met) ↔
      ∃ base, next (line.getLastD origin) = some base := by
  constructor
  · rintro ⟨met, hreach, hcycle⟩
    have hlast := transGen_self_of_reflTransGen hcycle
      (h.reflTransGen_getLastD (h.mem_of_reflTransGen hreach))
    obtain ⟨base, hbase, _⟩ := TransGen.head'_iff.mp hlast
    exact ⟨base, hbase⟩
  · rintro ⟨base, hbase⟩
    have hmem := h.mem_cons_of_next_getLastD hbase
    refine ⟨base, ?_, .tail' (h.reflTransGen_getLastD hmem) hbase⟩
    rcases List.mem_cons.mp hmem with rfl | hmem
    · exact .refl
    · exact (h.transGen_of_mem hmem).to_reflTransGen

/-! ## First results -/

/-- The nodes of a list that a search goes past before it finds something, or all if it finds nothing. -/
def passedOver {β : Type} (probe : NodeId → Option β) (ids : List NodeId) : List NodeId :=
  ids.takeWhile fun id ↦ (probe id).isNone

/-- The first result on a trail depends on where the nodes lead that come before it, and on no others. -/
theorem findSome?_eq_of_agree {β : Type} {next' : NodeId → Option NodeId} {probe probe' : NodeId → Option β}
    {line' : List NodeId} (h : Trail next seen node line) (h' : Trail next' seen node line')
    (hnext : ∀ met ∈ node :: passedOver probe line, next' met = next met)
    (hprobe : ∀ met ∈ line, probe' met = probe met) : line'.findSome? probe' = line.findSome? probe := by
  induction h generalizing line' with
  | stop hnone =>
    have hnone' := (hnext _ List.mem_cons_self).trans hnone
    rw [h'.unique (.stop hnone')]
    rfl
  | cut hbase hmem =>
    have hbase' := (hnext _ List.mem_cons_self).trans hbase
    rw [h'.unique (.cut hbase' hmem)]
    rfl
  | @step seen node base rest hbase hnot _ ih =>
    have hbase' := (hnext _ List.mem_cons_self).trans hbase
    obtain ⟨hhere, hrest⟩ := List.forall_mem_cons.mp hprobe
    cases h' with
    | stop hnone => exact nomatch hnone.symm.trans hbase'
    | cut hbase'' hmem =>
      obtain rfl := Option.some.inj (hbase'.symm.trans hbase'')
      exact absurd hmem hnot
    | step hbase'' _ htrail =>
      obtain rfl := Option.some.inj (hbase'.symm.trans hbase'')
      rw [List.findSome?_cons, List.findSome?_cons, hhere]
      cases hfound : probe base with
      | some found => rfl
      | none =>
        apply ih htrail _ hrest
        intro met hmet
        apply hnext
        simpa [passedOver, hfound] using Or.inr (List.mem_cons.mp hmet)

/-! ## From one node to the next -/

section Base

variable {origin base : NodeId} {tail : List NodeId} (h : Trail next [origin] origin line)
  (hnext : next origin = some base) (htail : Trail next [base] base tail)
include h hnext htail

/-- The trail of `origin` goes on as that of `base` does, which may come to `origin` at its end. -/
theorem exists_eq_cons (hne : base ≠ origin) :
    ∃ rest, line = base :: rest ∧ (origin ∉ tail ∧ tail = rest ∨ origin ∈ tail ∧ tail = rest ++ [origin]) := by
  cases h with
  | stop hnone => simp [hnext] at hnone
  | cut hnext' hmem =>
    obtain rfl := Option.some.inj (hnext.symm.trans hnext')
    exact absurd (List.mem_singleton.mp hmem) hne
  | @step _ _ _ rest hnext' _ hrest =>
    obtain rfl := Option.some.inj (hnext.symm.trans hnext')
    refine ⟨rest, rfl, ?_⟩
    obtain ⟨more, rfl, hmore⟩ := hrest.exists_append List.mem_cons_self
      ((behind_singleton origin).step hnext) (by simp) htail
    have hbase : base ∉ rest ++ more := fun hmem ↦ htail.not_mem_seen hmem List.mem_cons_self
    have horigin : origin ∉ rest := fun hmem ↦ hrest.not_mem_seen hmem (by simp)
    obtain ⟨-, hnodup, hdisjoint⟩ := List.nodup_append'.mp htail.nodup
    -- Nothing but `origin` is left to be met where the trail of `origin` has ended.
    have honly : ∀ id ∈ more, id = origin := by
      intro id hid
      rcases hmore id hid with hseen | hmem
      · have hne' : id ≠ base := fun heq ↦ hbase (List.mem_append_right _ (heq ▸ hid))
        simpa [hne'] using hseen
      · exact absurd hid (hdisjoint hmem)
    cases more with
    | nil => exact .inl (by simpa using horigin)
    | cons id more =>
      obtain rfl := honly id List.mem_cons_self
      have hnil : more = [] := by
        refine List.eq_nil_iff_forall_not_mem.mpr fun other hother ↦ ?_
        obtain rfl := honly other (List.mem_cons_of_mem _ hother)
        exact (List.nodup_cons.mp hnodup).1 hother
      exact .inr (by simp [hnil])

/-- The first result from `origin` on is its own, or else the first from `base` on. -/
theorem findSome?_cons_eq_or {β : Type} (probe : NodeId → Option β) :
    (origin :: line).findSome? probe = (probe origin).or ((base :: tail).findSome? probe) := by
  have hcons : ∀ ids, (origin :: ids).findSome? probe = (probe origin).or (ids.findSome? probe) := by
    intro ids
    rw [List.findSome?_cons]
    cases probe origin <;> rfl
  by_cases hne : base = origin
  · subst hne
    rw [h.unique htail, hcons, ← Option.or_assoc, Option.or_self]
  obtain ⟨rest, rfl, ⟨-, rfl⟩ | ⟨-, rfl⟩⟩ := h.exists_eq_cons hnext htail hne
  · exact hcons _
  calc
    (origin :: base :: rest).findSome? probe
    _ = (probe origin).or ((base :: rest).findSome? probe) := hcons _
    _ = (probe origin).or (((base :: rest).findSome? probe).or (probe origin)) := by
      cases probe origin <;> simp
    _ = (probe origin).or ((base :: (rest ++ [origin])).findSome? probe) := by
      rw [← List.cons_append, List.findSome?_append, List.findSome?_singleton]

end Base

/-! ## Images of trails -/

/-- If only nodes that were seen are still to be met, the walk along the images is over. -/
theorem nil_of_tail_subset {next' image : NodeId → Option NodeId} {tail : List NodeId}
    {found : NodeId} (hsubset : ∀ met ∈ tail, met ∈ seen)
    (hfound : next' found = tail.findSome? image) :
    Trail next' (seen.filterMap image) found [] := by
  cases hsome : tail.findSome? image with
  | none => exact .stop (hfound.trans hsome)
  | some target =>
    obtain ⟨met, hmet, himageMet⟩ := List.exists_of_findSome?_eq_some hsome
    exact .cut (hfound.trans hsome) (List.mem_filterMap.mpr ⟨met, hsubset met hmet, himageMet⟩)

section Image

variable {next' image : NodeId → Option NodeId} {inside : NodeId → Prop} {bound : Nat}
  (hbound : ∀ ⦃id base⦄, next id = some base → base < bound)
  (hinside : ∀ ⦃id base⦄, inside id → next id = some base → inside base)
  (hinj : ∀ ⦃left right found⦄, inside left → inside right → image left = some found →
    image right = some found → left = right)
  (himage : ∀ ⦃origin line found⦄, inside origin → Trail next [origin] origin line →
    image origin = some found → next' found = line.findSome? image)
include hbound hinside hinj himage

/-- The walk along the images stands at `found`, the image met last, and goes on to the first image
on `tail`, which is how far the walk from the original of `found` still has to go. -/
theorem filterMap_of_tail {less tail : List NodeId} {found : NodeId}
    (h : Trail next seen node line) (hseen : ∀ id ∈ seen, inside id) (hnode : node ∈ seen)
    (hbehind : Behind next seen node) (hless : ∀ id ∈ less, id ∈ seen)
    (htail : Trail next less node tail) (hfound : next' found = tail.findSome? image) :
    Trail next' (seen.filterMap image) found (line.filterMap image) := by
  induction h generalizing less tail found with
  | stop hnone =>
    have hsubset := hbehind.subset_of_cut hnode (by simp [hnone]) htail
    exact nil_of_tail_subset hsubset hfound
  | cut hnext hmem =>
    have hsubset := hbehind.subset_of_cut hnode (by simpa [hnext] using hmem) htail
    exact nil_of_tail_subset hsubset hfound
  | @step seen node base line hnext hnot _ ih =>
    have hinsideBase : inside base := hinside (hseen node hnode) hnext
    have hseen' := List.forall_mem_cons.mpr ⟨hinsideBase, hseen⟩
    cases htail with
    | stop hnone => simp [hnext] at hnone
    | cut hnext' hmem =>
      obtain rfl := Option.some.inj (hnext.symm.trans hnext')
      exact absurd (hless _ hmem) hnot
    | @step _ _ _ tail hnext' _ htail =>
      obtain rfl := Option.some.inj (hnext.symm.trans hnext')
      cases hbase : image base with
      | none =>
        have hless' : ∀ id ∈ base :: less, id ∈ base :: seen :=
          fun id hid ↦ List.cons_subset_cons base hless hid
        have hfound' : next' found = tail.findSome? image := by
          simpa [hbase] using hfound
        have hrest := ih hseen' List.mem_cons_self (hbehind.step hnext) hless' htail hfound'
        simpa [hbase] using hrest
      | some target =>
        obtain ⟨further, hfurther⟩ := exists_trail hbound (hbound hnext)
        have hnotImage : target ∉ seen.filterMap image := by
          intro hmem
          obtain ⟨met, hmet, himageMet⟩ := List.mem_filterMap.mp hmem
          exact hnot (hinj (hseen met hmet) hinsideBase himageMet hbase ▸ hmet)
        have hless' : ∀ id ∈ [base], id ∈ base :: seen := by simp
        have hrest := ih hseen' List.mem_cons_self (hbehind.step hnext) hless' hfurther
          (himage hinsideBase hfurther hbase)
        simp only [List.filterMap_cons, hbase] at hrest ⊢
        refine .step ?_ hnotImage hrest
        simpa [hbase] using hfound

/-- If going on from an image leads to the first image on the trail of its original, then the images
along a trail are the trail of the image. -/
theorem filterMap_image {origin found : NodeId} (h : Trail next [origin] origin line)
    (horigin : inside origin) (hfound : image origin = some found) :
    Trail next' [found] found (line.filterMap image) := by
  have htrail := filterMap_of_tail hbound hinside hinj himage h (by simpa using horigin)
    (List.mem_singleton_self origin) (behind_singleton origin) (fun _ hid ↦ hid) h
    (himage horigin h hfound)
  simpa [hfound] using htrail

end Image

end Trail

end Lineage
