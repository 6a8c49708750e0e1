import Lineage.Proofs.Inheritance
import Lineage.Proofs.SlotRuns

/-!
# Full walks

A chain and a strict line of inheritance are read by different loops.  Both read the bases of the same
nodes in the same order: that of the node they set out from, and then those of the nodes on its trail.
`Forest.afterBases` is the memo that such reads leave.  The strict walk leaves just this memo
(`run_strictInheritance`), and the chain leaves it with one warning more if it was cut (`run_chain`).

So the two agree: they leave the same slots, the strict walk gives the line that the other gives, and it
fails just where following bases comes to a node twice (`walks_agree`).
-/

namespace Lineage

open Lookup Relation

variable {ε : Type}

/-! ## Reading bases in order -/

namespace Forest

/-- The memo after the bases of some nodes were read, one after the other. -/
def afterBases (forest : Forest ε) (memo : Memo) (ids : List NodeId) : Memo :=
  ids.foldl (fun memo id ↦ ((forest.base id).run memo).2) memo

theorem afterBases_cons (forest : Forest ε) (memo : Memo) (id : NodeId) (ids : List NodeId) :
    forest.afterBases memo (id :: ids) = forest.afterBases (forest.afterBases memo [id]) ids := rfl

/-- Where all bases are known, reading them changes nothing. -/
theorem afterBases_of_isResolved {forest : Forest ε} {memo : Memo} {ids : List NodeId}
    (hids : ∀ id ∈ ids, id < forest.size) (hmemo : ∀ id < forest.size, (memo.slot id).isResolved) :
    forest.afterBases memo ids = memo := by
  induction ids with
  | nil => rfl
  | cons id ids ih =>
    obtain ⟨hid, hids⟩ := List.forall_mem_cons.mp hids
    obtain ⟨base, hbase⟩ := Option.isSome_iff_exists.mp (hmemo id hid)
    have hslot : memo.slot id = .resolved base := by
      cases hslot : memo.slot id <;> simp_all [Slot.outcome]
    have hrun := run_base_of_resolved hid hslot
    have hread : forest.afterBases memo [id] = memo := congrArg Prod.snd hrun
    rw [afterBases_cons, hread]
    exact ih hids

end Forest

namespace Session

/-- The base of a node, as it is read in a session. -/
def HasBase (session : Session ε) (id base : NodeId) : Prop :=
  ((session.forest.base id).run session.memo).1 = .ok (some base)

/-- Following bases from a node comes to some node twice. -/
def Revisits (session : Session ε) (id : NodeId) : Prop :=
  ∃ met, ReflTransGen session.HasBase id met ∧ TransGen session.HasBase met met

namespace Valid

variable {session : Session ε} (h : session.Valid)
include h

theorem hasBase_iff (id base : NodeId) : session.HasBase id base ↔ session.baseOf id = some base := by
  unfold HasBase
  by_cases hid : id < session.forest.size
  · rw [(h.keeps_base id hid).run_eq h.reflects, Except.ok.injEq]
  · have hread : ((session.forest.base id).run session.memo).1 = .error _ :=
      (returns_base_of_not_lt hid).run_eq h.reflects
    simp [hread, h.baseOf_of_not_lt hid]

theorem hasBase_eq : session.HasBase = LeadsOn session.baseOf := by
  funext id base
  exact propext (h.hasBase_iff id base)

section Reads

variable {memo : Memo} (hmemo : session.Settled memo)
include hmemo

theorem run_base {id : NodeId} (hid : id < session.forest.size) :
    (session.forest.base id).run memo = (.ok (session.baseOf id), session.forest.afterBases memo [id]) := by
  obtain ⟨after, hrun, _⟩ := h.keeps_base id hid memo hmemo
  have hafter : session.forest.afterBases memo [id] = after := congrArg Prod.snd hrun
  rw [hrun, hafter]

theorem settled_afterBases {ids : List NodeId} (hids : ∀ id ∈ ids, id < session.forest.size) :
    session.Settled (session.forest.afterBases memo ids) := by
  induction ids generalizing memo with
  | nil => exact hmemo
  | cons id ids ih =>
    obtain ⟨hid, hids⟩ := List.forall_mem_cons.mp hids
    obtain ⟨after, hrun, hafter⟩ := h.keeps_base id hid memo hmemo
    have hread : session.forest.afterBases memo [id] = after := congrArg Prod.snd hrun
    rw [Forest.afterBases_cons, hread]
    exact ih hafter hids

/-- What is resolved stays as it is when other bases are read. -/
theorem slot_afterBases_of_resolved {ids : List NodeId} (hids : ∀ id ∈ ids, id < session.forest.size)
    {met : NodeId} {base : Option NodeId} (hslot : memo.slot met = .resolved base) :
    (session.forest.afterBases memo ids).slot met = .resolved base := by
  induction ids generalizing memo with
  | nil => exact hslot
  | cons id ids ih =>
    obtain ⟨hid, hids⟩ := List.forall_mem_cons.mp hids
    have hprogress := (Forest.progresses_base id memo hmemo.slots_size).progress
    have hsame := (hprogress.slot met).eq_of_isResolved (by rw [hslot]; rfl)
    have hread := h.settled_afterBases hmemo (List.forall_mem_singleton.mpr hid)
    exact ih hread hids (hsame.trans hslot)

theorem slot_afterBases {ids : List NodeId} (hids : ∀ id ∈ ids, id < session.forest.size)
    {met : NodeId} (hmet : met ∈ ids) :
    (session.forest.afterBases memo ids).slot met = .resolved (session.baseOf met) := by
  induction ids generalizing memo with
  | nil => exact nomatch hmet
  | cons id ids ih =>
    obtain ⟨hid, hrest⟩ := List.forall_mem_cons.mp hids
    obtain ⟨after, hrun, hafter, hslot⟩ := h.base_returns hid memo hmemo
    have hread : session.forest.afterBases memo [id] = after := congrArg Prod.snd hrun
    rw [Forest.afterBases_cons, hread]
    rcases List.mem_cons.mp hmet with rfl | hmet
    · exact h.slot_afterBases_of_resolved hafter hrest hslot
    · exact ih hafter hrest hmet

end Reads

end Valid

end Session

/-! ## Chains -/

/-- The warning that a walk would come to a node a second time. -/
def Event.Stops (event : Event) : Prop :=
  event.level = .warn ∧ event.message = "cyclic base chain, stopping walk"

/-- What a walk leaves behind, given the memo after its reads and the base of the node met last: if there
is one, the walk was stopped there and says so. -/
def Memo.Ends (memo : Memo) : (beyond : Option NodeId) → (after : Memo) → Prop
  | none, after => after = memo
  | some _, after => ∃ event : Event, event.Stops ∧ after = memo.write event

theorem Memo.Ends.slots_eq {memo after : Memo} {beyond : Option NodeId} (h : memo.Ends beyond after) :
    after.slots = memo.slots := by
  cases beyond with
  | none =>
    obtain rfl : after = memo := h
    rfl
  | some again =>
    obtain ⟨event, _, rfl⟩ := h
    rfl

namespace Session.Valid

variable {session : Session ε} (h : session.Valid)
include h

theorem run_report_path {id : NodeId} (hid : id < session.forest.size) (event : String → Event)
    (memo : Memo) : ∃ path, (report do return event (← session.forest.path id)).run memo =
      (.ok (), memo.write (event path)) := by
  obtain ⟨path, hpath⟩ := h.closed.exists_path hid
  refine ⟨path, ?_⟩
  rw [hpath]
  exact Action.run_report_pure (event path) memo

theorem run_report_paths {id other : NodeId} (hid : id < session.forest.size)
    (hother : other < session.forest.size) (event : String → String → Event) (memo : Memo) :
    ∃ path otherPath, (report do
      return event (← session.forest.path id) (← session.forest.path other)).run memo =
        (.ok (), memo.write (event path otherPath)) := by
  obtain ⟨path, hpath⟩ := h.closed.exists_path hid
  obtain ⟨otherPath, hotherPath⟩ := h.closed.exists_path hother
  refine ⟨path, otherPath, ?_⟩
  rw [hpath, hotherPath]
  exact Action.run_report_pure (event path otherPath) memo

/-! ### Steps

The first step of a walk reads the base of its origin, and each later one that of the node where the walk
stands. -/

section Steps

variable {id base : NodeId} {memo : Memo} (hmemo : session.Settled memo) (hid : id < session.forest.size)
include hmemo hid

theorem run_baseWalk_stop (hnone : session.baseOf id = none) : (session.forest.baseWalk id).run memo =
    (.ok ⟨.ended, [id]⟩, session.forest.afterBases memo [id]) := by
  have hread := h.run_base hmemo hid
  rw [hnone] at hread
  exact run_bind_ok hread _

theorem run_baseWalk_cut (hnext : session.baseOf id = some id) : ∃ event : Event, event.Stops ∧
    (session.forest.baseWalk id).run memo =
      (.ok ⟨.ended, [id]⟩, (session.forest.afterBases memo [id]).write event) := by
  have hread := h.run_base hmemo hid
  rw [hnext] at hread
  obtain ⟨path, hreport⟩ := h.run_report_path hid .startRefused (session.forest.afterBases memo [id])
  refine ⟨.startRefused path, ⟨rfl, rfl⟩, (run_bind_ok hread _).trans ?_⟩
  simp only [Walk.start, if_pos]
  exact run_bind_ok hreport _

theorem run_baseWalk_step (hnext : session.baseOf id = some base) (hne : base ≠ id) :
    (session.forest.baseWalk id).run memo =
      (.ok ⟨.before base, [base, id]⟩, session.forest.afterBases memo [id]) := by
  have hread := h.run_base hmemo hid
  rw [hnext] at hread
  refine (run_bind_ok hread _).trans ?_
  simp only [Walk.start, if_neg hne]
  rfl

variable {seen : List NodeId}

theorem run_next_stop (hnone : session.baseOf id = none) :
    (Walk.next session.forest session.forest.base ⟨.standing id, seen⟩).run memo =
      (.ok (none, ⟨.ended, seen⟩), session.forest.afterBases memo [id]) := by
  have hread := h.run_base hmemo hid
  rw [hnone] at hread
  exact run_bind_ok hread _

theorem run_next_cut (hnext : session.baseOf id = some base) (hmem : base ∈ seen) :
    ∃ event : Event, event.Stops ∧
      (Walk.next session.forest session.forest.base ⟨.standing id, seen⟩).run memo =
        (.ok (none, ⟨.ended, seen⟩), (session.forest.afterBases memo [id]).write event) := by
  have hread := h.run_base hmemo hid
  rw [hnext] at hread
  obtain ⟨path, basePath, hreport⟩ := h.run_report_paths hid (h.baseOf_lt hnext) .stepRefused
    (session.forest.afterBases memo [id])
  refine ⟨.stepRefused path basePath, ⟨rfl, rfl⟩, (run_bind_ok hread _).trans ?_⟩
  simp only [if_pos hmem]
  exact run_bind_ok hreport _

theorem run_next_step (hnext : session.baseOf id = some base) (hnot : base ∉ seen) :
    (Walk.next session.forest session.forest.base ⟨.standing id, seen⟩).run memo =
      (.ok (some base, ⟨.standing base, base :: seen⟩), session.forest.afterBases memo [id]) := by
  have hread := h.run_base hmemo hid
  rw [hnext] at hread
  refine (run_bind_ok hread _).trans ?_
  simp only [if_neg hnot]
  rfl

end Steps

/-! ### Whole walks -/

/-- The rest of a walk that stands at `node` reads the bases of `node` and of what it still meets. -/
theorem run_toList {seen line : List NodeId} {node : NodeId} {limit : Nat} {memo : Memo}
    (hline : Trail session.baseOf seen node line) (hnode : node < session.forest.size)
    (hmemo : session.Settled memo) (hlimit : line.length < limit) : ∃ after,
      (Walk.toList session.forest session.forest.base limit ⟨.standing node, seen⟩).run memo =
        (.ok line, after) ∧
      (session.forest.afterBases memo (node :: line)).Ends (session.baseOf (line.getLastD node)) after := by
  -- Each step of the walk reads the base of the node where it stands, so the reads follow the trail.
  induction hline generalizing limit memo with
  | @stop seen node hnone =>
    obtain ⟨limit, rfl⟩ := Nat.exists_eq_add_one_of_ne_zero (Nat.ne_of_gt hlimit)
    refine ⟨_, run_bind_ok (h.run_next_stop hmemo hnode hnone) _, ?_⟩
    rw [List.getLastD_nil, hnone]
    rfl
  | @cut seen node base hnext hmem =>
    obtain ⟨limit, rfl⟩ := Nat.exists_eq_add_one_of_ne_zero (Nat.ne_of_gt hlimit)
    obtain ⟨event, hstops, hstep⟩ := h.run_next_cut hmemo hnode hnext hmem
    refine ⟨_, run_bind_ok hstep _, ?_⟩
    rw [List.getLastD_nil, hnext]
    exact ⟨event, hstops, rfl⟩
  | @step seen node base line hnext hnot _ ih =>
    obtain ⟨limit, rfl⟩ := Nat.exists_eq_add_one_of_ne_zero (Nat.ne_zero_of_lt hlimit)
    have hstep := h.run_next_step hmemo hnode hnext hnot
    have hsettled := h.settled_afterBases hmemo (List.forall_mem_singleton.mpr hnode)
    obtain ⟨after, hrest, hends⟩ := ih (h.baseOf_lt hnext) hsettled (Nat.lt_of_succ_lt_succ hlimit)
    refine ⟨after, (run_bind_ok hstep _).trans (run_bind_ok hrest _), ?_⟩
    rw [List.getLastD_cons, Forest.afterBases_cons]
    exact hends

/-- A chain is read by reading the base of its origin and those of all nodes on it. -/
theorem run_chain {id : NodeId} {line : List NodeId} {memo : Memo} (hid : id < session.forest.size)
    (hline : Trail session.baseOf [id] id line) (hmemo : session.Settled memo) : ∃ after,
      (session.forest.chain id).run memo = (.ok line, after) ∧
      (session.forest.afterBases memo (id :: line)).Ends (session.baseOf (line.getLastD id)) after := by
  have hlimit := h.length_lt_walkLimit hid hline
  cases hline with
  | stop hnone =>
    refine ⟨_, run_bind_ok (h.run_baseWalk_stop hmemo hid hnone) _, ?_⟩
    rw [List.getLastD_nil, hnone]
    rfl
  | cut hnext hmem =>
    obtain rfl := List.mem_singleton.mp hmem
    obtain ⟨event, hstops, hstart⟩ := h.run_baseWalk_cut hmemo hid hnext
    refine ⟨_, run_bind_ok hstart _, ?_⟩
    rw [List.getLastD_nil, hnext]
    exact ⟨event, hstops, rfl⟩
  | @step _ _ base line hnext hnot htrail =>
    have hstart := h.run_baseWalk_step hmemo hid hnext (List.mem_singleton.not.mp hnot)
    have hsettled := h.settled_afterBases hmemo (List.forall_mem_singleton.mpr hid)
    obtain ⟨after, hrest, hends⟩ := h.run_toList htrail (h.baseOf_lt hnext) hsettled
      (Nat.lt_of_succ_lt_succ hlimit)
    refine ⟨after, (run_bind_ok hstart _).trans (run_bind_ok hrest _), ?_⟩
    rw [List.getLastD_cons, Forest.afterBases_cons]
    exact hends

end Session.Valid

/-! ## Strict walks -/

namespace Forest

def paths (forest : Forest ε) (ids : List NodeId) : Except Error (List String) :=
  ids.mapM forest.path

/-- What following bases strictly comes to, given the nodes that it met, latest first, and the base of
the last of them. -/
def strictly (forest : Forest ε) (met : List NodeId) :
    (beyond : Option NodeId) → Except Error (List NodeId)
  | none => return met.dropLast
  | some again => do throw (.cycle (← forest.paths (again :: met).reverse))

theorem strictly_none (forest : Forest ε) (id : NodeId) (line : List NodeId) :
    forest.strictly (id :: line).reverse none = .ok line.reverse := by
  simp [strictly, pure, Except.pure]

theorem strictly_some {forest : Forest ε} {met : List NodeId} {again : NodeId} {paths : List String}
    (hpaths : forest.paths (met ++ [again]) = .ok paths) :
    forest.strictly met.reverse (some again) = .error (.cycle paths) := by
  have hreverse : (again :: met.reverse).reverse = met ++ [again] := by simp
  simp only [strictly, hreverse, hpaths]
  rfl

theorem run_mapM_path (forest : Forest ε) (ids : List NodeId) (memo : Memo) :
    (ids.mapM fun id ↦ (forest.path id : Lookup String)).run memo = (forest.paths ids, memo) := by
  unfold paths
  induction ids with
  | nil => rfl
  | cons id ids ih =>
    rw [List.mapM_cons, List.mapM_cons]
    cases forest.path id with
    | error error => rfl
    | ok path =>
      change ((ids.mapM fun id ↦ (forest.path id : Lookup String)) >>=
        fun paths ↦ pure (path :: paths)).run memo = _
      rw [run_map, ih]
      rfl

end Forest

namespace Session.Valid

variable {session : Session ε} (h : session.Valid)
include h

/-- A strict walk reads the bases that the chain reads, and stops where the chain does. -/
theorem run_strictInheritanceWithin {met line : List NodeId} {node : NodeId} {limit : Nat} {memo : Memo}
    (hline : Trail session.baseOf met node line) (hnode : node < session.forest.size)
    (hmemo : session.Settled memo) (hlimit : line.length < limit) :
    (session.forest.strictInheritanceWithin limit node met).run memo =
      (session.forest.strictly (line.reverse ++ met) (session.baseOf (line.getLastD node)),
        session.forest.afterBases memo (node :: line)) := by
  induction hline generalizing limit memo with
  | @stop met node hnone =>
    obtain ⟨limit, rfl⟩ := Nat.exists_eq_add_one_of_ne_zero (Nat.ne_of_gt hlimit)
    have hread := h.run_base hmemo hnode
    rw [hnone] at hread
    rw [List.getLastD_nil, hnone]
    exact run_bind_ok hread _
  | @cut met node base hnext hmem =>
    obtain ⟨limit, rfl⟩ := Nat.exists_eq_add_one_of_ne_zero (Nat.ne_of_gt hlimit)
    have hread := h.run_base hmemo hnode
    rw [hnext] at hread
    have hpaths := session.forest.run_mapM_path (base :: met).reverse
      (session.forest.afterBases memo [node])
    rw [List.getLastD_nil, hnext]
    refine (run_bind_ok hread _).trans ?_
    simp only [if_pos hmem]
    rw [run_bind, hpaths]
    change _ = (session.forest.paths (base :: met).reverse >>= _, _)
    cases session.forest.paths (base :: met).reverse <;> rfl
  | @step met node base line hnext hnot _ ih =>
    obtain ⟨limit, rfl⟩ := Nat.exists_eq_add_one_of_ne_zero (Nat.ne_zero_of_lt hlimit)
    have hread := h.run_base hmemo hnode
    rw [hnext] at hread
    have hsettled := h.settled_afterBases hmemo (List.forall_mem_singleton.mpr hnode)
    have hrest := ih (h.baseOf_lt hnext) hsettled (Nat.lt_of_succ_lt_succ hlimit)
    rw [List.getLastD_cons, List.reverse_cons, List.append_assoc, Forest.afterBases_cons]
    refine (run_bind_ok hread _).trans ?_
    simp only [if_neg hnot]
    exact hrest

theorem run_strictInheritance {id : NodeId} {line : List NodeId} {memo : Memo}
    (hid : id < session.forest.size) (hline : Trail session.baseOf [id] id line)
    (hmemo : session.Settled memo) : (session.forest.strictInheritance id).run memo =
      (session.forest.strictly (id :: line).reverse (session.baseOf (line.getLastD id)),
        session.forest.afterBases memo (id :: line)) := by
  rw [List.reverse_cons]
  exact h.run_strictInheritanceWithin hline hid hmemo (h.length_lt_walkLimit hid hline)

theorem keeps_strictInheritance {id : NodeId} {line : List NodeId} (hid : id < session.forest.size)
    (hline : Trail session.baseOf [id] id line) :
    Keeps session.Settled (session.forest.strictInheritance id)
      (session.forest.strictly (id :: line).reverse (session.baseOf (line.getLastD id))) := by
  intro memo hmemo
  exact ⟨_, h.run_strictInheritance hid hline hmemo,
    h.settled_afterBases hmemo (h.cons_trail_lt hid hline)⟩

end Session.Valid

/-! ## Agreement -/

namespace Session

/-- The last node of a chain, or `id` where the chain is empty, has a base that was met before, and once
only.  The nodes met and this base have the paths of a list. -/
def Closes (session : Session ε) (id : NodeId) (line : List NodeId) (paths : List String) : Prop :=
  ∃ again, session.HasBase (line.getLastD id) again ∧ (id :: line).count again = 1 ∧
    session.forest.paths (id :: line ++ [again]) = .ok paths

theorem Valid.exists_paths {session : Session ε} (h : session.Valid) {ids : List NodeId}
    (hids : ∀ id ∈ ids, id < session.forest.size) :
    ∃ paths, session.forest.paths ids = .ok paths := by
  induction ids with
  | nil => exact ⟨[], rfl⟩
  | cons id ids ih =>
    obtain ⟨hid, hids⟩ := List.forall_mem_cons.mp hids
    obtain ⟨path, hpath⟩ := h.closed.exists_path hid
    obtain ⟨paths, hpaths⟩ := ih hids
    refine ⟨path :: paths, ?_⟩
    unfold Forest.paths at hpaths ⊢
    rw [List.mapM_cons, hpath, hpaths]
    rfl

namespace Valid

variable {session : Session ε} (h : session.Valid) {id : NodeId} {line : List NodeId}
include h

theorem revisits_iff (hline : Trail session.baseOf [id] id line) :
    session.Revisits id ↔ ∃ base, session.baseOf (line.getLastD id) = some base := by
  unfold Revisits
  rw [h.hasBase_eq]
  exact hline.exists_transGen_self_iff

/-- Where the last node of a chain has a base, the strict walk fails and names what it met. -/
theorem exists_closes (hid : id < session.forest.size) (hline : Trail session.baseOf [id] id line)
    {again : NodeId} (hagain : session.baseOf (line.getLastD id) = some again) :
    ∃ paths, session.forest.strictly (id :: line).reverse (some again) = .error (.cycle paths) ∧
      session.Closes id line paths := by
  have hmet : ∀ met ∈ id :: line ++ [again], met < session.forest.size :=
    List.forall_mem_append.mpr
      ⟨h.cons_trail_lt hid hline, List.forall_mem_singleton.mpr (h.baseOf_lt hagain)⟩
  obtain ⟨paths, hpaths⟩ := h.exists_paths hmet
  refine ⟨paths, Forest.strictly_some hpaths, again, (h.hasBase_iff _ _).mpr hagain, ?_, hpaths⟩
  exact List.count_eq_one_of_mem hline.nodup_cons (hline.mem_cons_of_next_getLastD hagain)

/-- A strict walk gives what the other gives, or closes a cycle. -/
theorem exists_keeps_strictInheritance (hid : id < session.forest.size)
    (hline : Trail session.baseOf [id] id line) :
    ∃ result, Keeps session.Settled (session.forest.strictInheritance id) result ∧
      (result = .ok line.reverse ∨ ∃ paths, result = .error (.cycle paths)) := by
  refine ⟨_, h.keeps_strictInheritance hid hline, ?_⟩
  cases hbeyond : session.baseOf (line.getLastD id) with
  | none => exact .inl (session.forest.strictly_none id line)
  | some again =>
    obtain ⟨paths, hresult, _⟩ := h.exists_closes hid hline hbeyond
    exact .inr ⟨paths, hresult⟩

/-- The strict walk and the chain read the same bases.  The strict walk fails just where following bases
comes to a node twice, and names the nodes up to that; elsewhere it gives the line that the other gives.
Where all bases are known beforehand, the chain writes one warning in the first case and none in the
second. -/
theorem walks_agree (hid : id < session.forest.size) : ∃ line strict after strictAfter,
      (session.forest.chain id).run session.memo = (.ok line, after) ∧
      (session.forest.inheritance id).run session.memo = (.ok line.reverse, after) ∧
      (session.forest.strictInheritance id).run session.memo = (strict, strictAfter) ∧
      strictAfter.slots = after.slots ∧
      (¬ session.Revisits id ∧ strict = .ok line.reverse ∨
        session.Revisits id ∧ ∃ paths, strict = .error (.cycle paths) ∧ session.Closes id line paths) ∧
      ((∀ other < session.forest.size, (session.memo.slot other).isResolved) →
        (∀ found, strict = .ok found → after.journal = session.memo.journal) ∧
        ∀ error, strict = .error error → ∃ event : Event, event.level = .warn ∧
          event.message = "cyclic base chain, stopping walk" ∧
          after.journal = session.memo.journal.map (·.push event)) := by
  obtain ⟨line, hline⟩ := h.exists_trail hid
  obtain ⟨after, hchain, hends⟩ := h.run_chain hid hline h.reflects
  have hstrict := h.run_strictInheritance hid hline h.reflects
  have hrevisits := h.revisits_iff hline
  have hknown : (∀ other < session.forest.size, (session.memo.slot other).isResolved) →
      session.forest.afterBases session.memo (id :: line) = session.memo :=
    Forest.afterBases_of_isResolved (h.cons_trail_lt hid hline)
  refine ⟨line, _, after, _, hchain, run_bind_ok hchain _, hstrict, ?_⟩
  cases hbeyond : session.baseOf (line.getLastD id) with
  | none =>
    rw [hbeyond] at hends hrevisits
    obtain rfl : after = _ := hends
    refine ⟨rfl, .inl ⟨?_, ?_⟩, fun hresolved ↦ ⟨fun _ _ ↦ ?_, nofun⟩⟩
    · simp [hrevisits]
    · exact session.forest.strictly_none id line
    · rw [hknown hresolved]
  | some again =>
    obtain ⟨paths, hresult, hcloses⟩ := h.exists_closes hid hline hbeyond
    rw [hbeyond] at hends hrevisits
    obtain ⟨event, ⟨hlevel, hmessage⟩, rfl⟩ := hends
    refine ⟨rfl, .inr ⟨hrevisits.mpr ⟨again, rfl⟩, paths, hresult, hcloses⟩, fun hresolved ↦ ⟨?_, ?_⟩⟩
    · exact fun found hfound ↦ nomatch hresult.symm.trans hfound
    · exact fun _ _ ↦ ⟨event, hlevel, hmessage, by rw [hknown hresolved]; rfl⟩

end Valid

/-- A node that leads into a ring of two others, with all bases set. -/
def lasso : Session Unit :=
  [.addRoot "tail" (), .addRoot "left" (), .addRoot "right" (), .extend 0 1, .extend 1 2,
    .extend 2 1].foldl (fun session (edit : Edit Unit) ↦ (session.step edit.perform).2)
    (Session.empty Unit true)

/-- The walk from the tail is stopped where the ring closes. -/
theorem lasso_walks_agree :
    lasso.Valid ∧ 0 < lasso.forest.size ∧
      (∀ other < lasso.forest.size, (lasso.memo.slot other).isResolved) ∧
      ((lasso.forest.strictInheritance 0).run lasso.memo).1 =
        .error (.cycle ["tail", "left", "right", "left"]) ∧
      ∃ line strict after strictAfter,
        (lasso.forest.chain 0).run lasso.memo = (.ok line, after) ∧
        (lasso.forest.inheritance 0).run lasso.memo = (.ok line.reverse, after) ∧
        (lasso.forest.strictInheritance 0).run lasso.memo = (strict, strictAfter) ∧
        strictAfter.slots = after.slots ∧
        (¬ lasso.Revisits 0 ∧ strict = .ok line.reverse ∨
          lasso.Revisits 0 ∧ ∃ paths, strict = .error (.cycle paths) ∧ lasso.Closes 0 line paths) ∧
        ((∀ other < lasso.forest.size, (lasso.memo.slot other).isResolved) →
          (∀ found, strict = .ok found → after.journal = lasso.memo.journal) ∧
          ∀ error, strict = .error error → ∃ event : Event, event.level = .warn ∧
            event.message = "cyclic base chain, stopping walk" ∧
            after.journal = lasso.memo.journal.map (·.push event)) := by
  have hvalid : lasso.Valid := by decide
  have hsize : 0 < lasso.forest.size := by decide
  exact ⟨hvalid, hsize, by decide, by rfl, Valid.walks_agree hvalid hsize⟩

end Session

end Lineage
