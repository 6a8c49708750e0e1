import Lineage.Proofs.Forest
import Lineage.Proofs.Lookup
import Lineage.Proofs.Trail

/-!
# Walks follow trails

Suppose that reading the base of a node comes to what a function `next` says of it.  Then a walk
meets the nodes of a trail along `next`, in order: `Remaining next walk line` says that `line` is
what `walk` has still to meet, and one step of the walk takes the head off that list
(`next_returns`).  From the step follow searches, listings and prefixes of the walk.

A search reads only the bases of nodes that it has passed over (`findSome?_returns`), which is what
allows a base to be read while the reads of others are under way.
-/

namespace Lineage.Walk

open Lookup

variable {ε β : Type} {forest : Forest ε} {next : NodeId → Option NodeId}
  {readBase : NodeId → Lookup (Option NodeId)} {kept : Memo → Prop}

/-- What a walk has still to meet. -/
inductive Remaining (next : NodeId → Option NodeId) : Walk → List NodeId → Prop
  | before {first seen rest} : Trail next seen first rest →
      Remaining next ⟨.before first, seen⟩ (first :: rest)
  | standing {node seen line} : Trail next seen node line →
      Remaining next ⟨.standing node, seen⟩ line
  | ended {seen} : Remaining next ⟨.ended, seen⟩ []

variable (hforest : forest.Closed)
  (hbound : ∀ ⦃id base⦄, next id = some base → base < forest.size)
  (hwrite : ∀ memo event, kept memo → kept (memo.write event))
include hforest hwrite

theorem keeps_report_path {id : NodeId} (hid : id < forest.size) (event : String → Event) :
    Keeps kept (report do return event (← forest.path id)) (.ok ()) := by
  obtain ⟨path, hpath⟩ := hforest.exists_path hid
  rw [hpath]
  exact keeps_report ((returns_liftM (.ok path)).bind (returns_pure (event path)))
    fun memo ↦ hwrite memo _

theorem keeps_report_paths {id other : NodeId} (hid : id < forest.size)
    (hother : other < forest.size) (event : String → String → Event) :
    Keeps kept (report do return event (← forest.path id) (← forest.path other)) (.ok ()) := by
  obtain ⟨path, hpath⟩ := hforest.exists_path hid
  obtain ⟨otherPath, hotherPath⟩ := hforest.exists_path hother
  rw [hpath, hotherPath]
  exact keeps_report ((returns_liftM (.ok path)).bind
    ((returns_liftM (.ok otherPath)).bind (returns_pure (event path otherPath))))
    fun memo ↦ hwrite memo _

include hbound

/-- A walk that sets out has the whole trail before it. -/
theorem start_returns {origin : NodeId} {line : List NodeId} (h : Trail next [origin] origin line) :
    ∃ walk, Keeps kept (start forest origin (next origin)) (.ok walk) ∧
      Remaining next walk line ∧ ∀ node, walk.position ≠ .standing node := by
  unfold start
  cases h with
  | stop hnone =>
    rw [hnone]
    exact ⟨⟨.ended, [origin]⟩, returns_pure _, .ended, by simp⟩
  | cut hnext hmem =>
    rw [hnext]
    refine ⟨⟨.ended, [origin]⟩, ?_, .ended, by simp⟩
    simp only [if_pos (List.mem_singleton.mp hmem)]
    exact (keeps_report_path hforest hwrite (hbound hnext) _).bind (returns_pure _)
  | @step _ _ base rest hnext hnot htrail =>
    rw [hnext]
    refine ⟨⟨.before base, [base, origin]⟩, ?_, .before htrail, by simp⟩
    simp only [if_neg (List.mem_singleton.not.mp hnot)]
    exact returns_pure _

/-- One step meets the first of the remaining nodes.  It reads a base only where the walk stands. -/
theorem next_returns {walk : Walk} {line : List NodeId} (hwalk : Remaining next walk line)
    (hstand : ∀ node, walk.position = .standing node →
      node < forest.size ∧ Keeps kept (readBase node) (.ok (next node))) :
    ∃ after, Keeps kept (walk.next forest readBase) (.ok (line.head?, after)) ∧
      Remaining next after line.tail ∧
      ∀ node, after.position = .standing node → line.head? = some node := by
  cases hwalk with
  | before htrail => exact ⟨_, returns_pure _, .standing htrail, by simp⟩
  | ended => exact ⟨_, returns_pure _, .ended, by simp⟩
  | @standing node seen _ htrail =>
    obtain ⟨hnode, hread⟩ := hstand node rfl
    cases htrail with
    | stop hnone =>
      rw [hnone] at hread
      exact ⟨⟨.ended, seen⟩, hread.bind (returns_pure _), .ended, by simp⟩
    | cut hnext hmem =>
      rw [hnext] at hread
      refine ⟨⟨.ended, seen⟩, hread.bind ?_, .ended, by simp⟩
      simp only [if_pos hmem]
      exact (keeps_report_paths hforest hwrite hnode (hbound hnext) _).bind (returns_pure _)
    | @step _ _ base rest hnext hnot htrail =>
      rw [hnext] at hread
      refine ⟨⟨.standing base, base :: seen⟩, hread.bind ?_, .standing htrail, by simp⟩
      simp only [if_neg hnot]
      exact returns_pure _

/-- A search comes to the first result along the walk.  The bases it reads are those of `asked`,
which need only hold the nodes that the search passes over. -/
theorem findSome?_returns {test : NodeId → Lookup (Option β)} {probe : NodeId → Option β}
    {asked : NodeId → Prop} {walk : Walk} {line : List NodeId} {limit : Nat}
    (htest : ∀ node ∈ line, Keeps kept (test node) (.ok (probe node)))
    (hread : ∀ node, asked node →
      node < forest.size ∧ Keeps kept (readBase node) (.ok (next node)))
    (hwalk : Remaining next walk line)
    (hstand : ∀ node, walk.position = .standing node → asked node)
    (hasked : ∀ passed node rest, line = passed ++ node :: rest →
      (∀ met ∈ passed, probe met = none) → probe node = none → asked node)
    (hlimit : line.length < limit) :
    Keeps kept (walk.findSome? forest readBase test limit) (.ok (line.findSome? probe)) := by
  induction line generalizing walk limit with
  | nil =>
    obtain ⟨limit, rfl⟩ := Nat.exists_eq_add_one_of_ne_zero (Nat.ne_of_gt hlimit)
    obtain ⟨after, hnext, -, -⟩ := next_returns hforest hbound hwrite hwalk
      fun node hnode ↦ hread node (hstand node hnode)
    exact hnext.bind (returns_pure _)
  | cons met line ih =>
    obtain ⟨limit, rfl⟩ := Nat.exists_eq_add_one_of_ne_zero (Nat.ne_zero_of_lt hlimit)
    obtain ⟨after, hnext, hafter, hposition⟩ := next_returns hforest hbound hwrite hwalk
      fun node hnode ↦ hread node (hstand node hnode)
    have hmet := htest met List.mem_cons_self
    refine hnext.bind (hmet.bind ?_)
    cases hprobe : probe met with
    | some found => simpa [hprobe] using returns_pure (some found)
    | none =>
      rw [List.findSome?_cons_of_isNone (by simp [hprobe])]
      refine ih (fun node hnode ↦ htest node (List.mem_cons_of_mem _ hnode)) hafter ?_ ?_
        (Nat.lt_of_succ_lt_succ hlimit)
      · intro node hnode
        obtain rfl := Option.some.inj (hposition node hnode)
        exact hasked [] _ line rfl (by simp) hprobe
      · intro passed node rest hline hpassed hnode
        exact hasked (met :: passed) node rest (by rw [hline]; rfl)
          (List.forall_mem_cons.mpr ⟨hprobe, hpassed⟩) hnode

variable (hread : ∀ node, node < forest.size → Keeps kept (readBase node) (.ok (next node)))
include hread

theorem toList_returns {walk : Walk} {line : List NodeId} {limit : Nat}
    (hwalk : Remaining next walk line) (hline : ∀ node ∈ line, node < forest.size)
    (hstand : ∀ node, walk.position = .standing node → node < forest.size)
    (hlimit : line.length < limit) :
    Keeps kept (walk.toList forest readBase limit) (.ok line) := by
  induction line generalizing walk limit with
  | nil =>
    obtain ⟨limit, rfl⟩ := Nat.exists_eq_add_one_of_ne_zero (Nat.ne_of_gt hlimit)
    obtain ⟨after, hnext, -, -⟩ := next_returns hforest hbound hwrite hwalk
      fun node hnode ↦ ⟨hstand node hnode, hread node (hstand node hnode)⟩
    exact hnext.bind (returns_pure _)
  | cons met line ih =>
    obtain ⟨limit, rfl⟩ := Nat.exists_eq_add_one_of_ne_zero (Nat.ne_zero_of_lt hlimit)
    obtain ⟨after, hnext, hafter, hposition⟩ := next_returns hforest hbound hwrite hwalk
      fun node hnode ↦ ⟨hstand node hnode, hread node (hstand node hnode)⟩
    obtain ⟨hmet, hline⟩ := List.forall_mem_cons.mp hline
    refine hnext.bind ((ih hafter hline ?_ (Nat.lt_of_succ_lt_succ hlimit)).bind (returns_pure _))
    intro node hnode
    obtain rfl := Option.some.inj (hposition node hnode)
    exact hmet

/-- Asking `count` times for the next node gives the first `count` of the remaining nodes, and
nothing more once there are none left. -/
theorem take_returns {walk : Walk} {chain : List NodeId} (count : Nat)
    (hwalk : Remaining next walk chain) (hline : ∀ node ∈ chain, node < forest.size)
    (hstand : ∀ node, walk.position = .standing node → node < forest.size) :
    Keeps kept (walk.take forest readBase count)
      (.ok ((List.range count).map fun index ↦ chain[index]?)) := by
  induction count generalizing walk chain with
  | zero => exact returns_pure _
  | succ count ih =>
    obtain ⟨after, hnext, hafter, hposition⟩ := next_returns hforest hbound hwrite hwalk
      fun node hnode ↦ ⟨hstand node hnode, hread node (hstand node hnode)⟩
    have hrest := ih hafter (fun node hnode ↦ hline node (List.mem_of_mem_tail hnode))
      fun node hnode ↦ hline node (List.mem_of_mem_head? (hposition node hnode))
    have htake : (List.range (count + 1)).map (fun index ↦ chain[index]?) =
        chain.head? :: (List.range count).map fun index ↦ chain.tail[index]? := by
      simp [List.range_succ_eq_map, List.head?_eq_getElem?]
    rw [htake]
    exact hnext.bind (hrest.bind (returns_pure _))

end Lineage.Walk
