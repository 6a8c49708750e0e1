import Lineage.Proofs.Chains
import Mathlib.Data.List.Forall2
import Mathlib.Data.List.Sort
import Mathlib.Logic.Relator

/-!
# Sessions that mirror each other

Two sessions may hold the same nodes under different ids.  They mirror each other if their nodes are
twins, in pairs: twins have one name and one payload, their parents are twins, and so are their children
of one name and the bases that are known for them (`Session.Mirrors`).

Bases are derived from nothing else, so those of twins are twins (`Mirrors.rel_baseOf`), and trails that
set out from twins meet twins.  As twins have one path, a reader who asks by paths, and is told paths,
cannot tell the two sessions apart (`Mirrors.exists_told`).
-/

namespace Lineage

open Lookup

variable {ε : Type} {twins : NodeId → NodeId → Prop}

/-! ## Related options -/

section Rel

variable {α β γ δ : Type} {relation : α → β → Prop} {relation' : γ → δ → Prop}

theorem rel_flip {left : Option α} {right : Option β} (h : Option.Rel relation left right) :
    Option.Rel (flip relation) right left := by
  cases h with
  | none => exact .none
  | some h => exact .some h

theorem isSome_eq_of_rel {left : Option α} {right : Option β} (h : Option.Rel relation left right) :
    left.isSome = right.isSome := by
  cases h <;> rfl

theorem eq_none_of_rel_none {right : Option β} (h : Option.Rel relation none right) : right = none := by
  cases h with
  | none => rfl

theorem exists_of_rel_some {value : α} {right : Option β} (h : Option.Rel relation (some value) right) :
    ∃ value', right = some value' ∧ relation value value' := by
  cases h with
  | some h => exact ⟨_, rfl, h⟩

theorem rel_bind {left : Option α} {right : Option β} {next : α → Option γ} {next' : β → Option δ}
    (h : Option.Rel relation left right)
    (hnext : ∀ value value', relation value value' → Option.Rel relation' (next value) (next' value')) :
    Option.Rel relation' (left.bind next) (right.bind next') := by
  cases h with
  | none => exact .none
  | some h => exact hnext _ _ h

theorem rel_filter {left : Option α} {right : Option β} {keep : α → Bool} {keep' : β → Bool}
    (h : Option.Rel relation left right)
    (hkeep : ∀ value value', relation value value' → keep value = keep' value') :
    Option.Rel relation (left.filter keep) (right.filter keep') := by
  cases h with
  | none => exact .none
  | @some value value' h =>
    rw [Option.filter_some, Option.filter_some, hkeep value value' h]
    split
    · exact .some h
    · exact .none

theorem rel_findSome? {items : List α} {items' : List β} {probe : α → Option γ} {probe' : β → Option δ}
    (h : List.Forall₂ relation items items')
    (hprobe : ∀ item item', relation item item' → Option.Rel relation' (probe item) (probe' item')) :
    Option.Rel relation' (items.findSome? probe) (items'.findSome? probe') := by
  induction h with
  | nil => exact .none
  | @cons item item' _ _ hitem _ ih =>
    have hrel := hprobe item item' hitem
    rw [List.findSome?_cons, List.findSome?_cons]
    cases hfound : probe item <;> cases hfound' : probe' item' <;> rw [hfound, hfound'] at hrel
    · exact ih
    · exact nomatch hrel
    · exact nomatch hrel
    · exact hrel

/-- If related items are written alike, so are lists of them. -/
theorem exists_mapM_eq_ok {ε : Type} {written : Type} {items : List α} {items' : List β}
    {write : α → Except ε written} {write' : β → Except ε written} (h : List.Forall₂ relation items items')
    (hwrite : ∀ item item', relation item item' →
      ∃ text, write item = .ok text ∧ write' item' = .ok text) :
    ∃ texts, items.mapM write = .ok texts ∧ items'.mapM write' = .ok texts := by
  induction h with
  | nil => exact ⟨[], rfl, rfl⟩
  | @cons item item' items items' hitem _ ih =>
    obtain ⟨text, htext, htext'⟩ := hwrite item item' hitem
    obtain ⟨texts, htexts, htexts'⟩ := ih
    refine ⟨text :: texts, ?_, ?_⟩
    · rw [List.mapM_cons, htext, htexts]
      rfl
    · rw [List.mapM_cons, htext', htexts']
      rfl

theorem getLastD_of_forall₂ {items : List α} {items' : List β} (h : List.Forall₂ relation items items')
    {first : α} {first' : β} (hfirst : relation first first') :
    relation (items.getLastD first) (items'.getLastD first') := by
  induction h generalizing first first' with
  | nil => exact hfirst
  | cons hitem _ ih =>
    rw [List.getLastD_cons, List.getLastD_cons]
    exact ih hitem

/-- Maps whose look-ups are related list their entries alike. -/
theorem NameMap.forall₂_toList {left : NameMap α} {right : NameMap β}
    (h : ∀ name, Option.Rel relation (left.find? name) (right.find? name)) :
    List.Forall₂ (fun entry entry' ↦ entry.1 = entry'.1 ∧ relation entry.2 entry'.2)
      left.toList right.toList := by
  have hnames : left.names = right.names := by
    apply List.Pairwise.eq_of_mem_iff left.names_pairwise_lt right.names_pairwise_lt
    intro name
    rw [mem_names_iff, mem_names_iff, ← Option.isSome_iff_exists, ← Option.isSome_iff_exists,
      isSome_eq_of_rel (h name)]
  have hlength : left.toList.length = right.toList.length := by
    simpa [names, toList] using congrArg List.length hnames
  refine List.forall₂_iff_get.mpr ⟨hlength, fun index hleft hright ↦ ?_⟩
  have hname : (left.toList.get ⟨index, hleft⟩).1 = (right.toList.get ⟨index, hright⟩).1 := by
    have hentry : left.names[index]? = right.names[index]? := by rw [hnames]
    change (left.toList.map (·.1))[index]? = (right.toList.map (·.1))[index]? at hentry
    rw [List.getElem?_map, List.getElem?_map, List.getElem?_eq_getElem hleft,
      List.getElem?_eq_getElem hright] at hentry
    exact Option.some.inj hentry
  have hfind := (left.find?_eq_some_iff _ _).mpr (List.get_mem left.toList ⟨index, hleft⟩)
  have hfind' := (right.find?_eq_some_iff _ _).mpr (List.get_mem right.toList ⟨index, hright⟩)
  obtain ⟨value', hvalue', hrelated⟩ := exists_of_rel_some (hfind ▸ h _)
  rw [hname, hfind'] at hvalue'
  exact ⟨hname, Option.some.inj hvalue' ▸ hrelated⟩

end Rel

/-! ## Twins -/

/-- The slots of twins are both open, or hold twins. -/
inductive Slot.Twins (twins : NodeId → NodeId → Prop) : Slot → Slot → Prop
  | unresolved : Twins twins .unresolved .unresolved
  | resolved {base base'} : Option.Rel twins base base' →
      Twins twins (.resolved base) (.resolved base')

theorem Slot.Twins.flip {slot slot' : Slot} (h : slot.Twins twins slot') :
    slot'.Twins (flip twins) slot := by
  cases h with
  | unresolved => exact .unresolved
  | resolved hbase => exact .resolved (rel_flip hbase)

theorem Slot.Twins.eq_unresolved {slot' : Slot} (h : Slot.unresolved.Twins twins slot') :
    slot' = .unresolved := by
  cases h with
  | unresolved => rfl

theorem Slot.Twins.exists_resolved {base : Option NodeId} {slot' : Slot}
    (h : (Slot.resolved base).Twins twins slot') :
    ∃ base', slot' = .resolved base' ∧ Option.Rel twins base base' := by
  cases h with
  | resolved hbase => exact ⟨_, rfl, hbase⟩

structure Node.Twins (twins : NodeId → NodeId → Prop) (node node' : Node ε) : Prop where
  name : node.name = node'.name
  payload : node.payload = node'.payload
  parent : Option.Rel twins node.parent node'.parent
  child : ∀ name, Option.Rel twins (node.children.find? name) (node'.children.find? name)

/-- The nodes of one session are twins of nodes of the other, in pairs. -/
structure Session.Mirrors (twins : NodeId → NodeId → Prop) (session session' : Session ε) : Prop where
  valid : session.Valid
  valid' : session'.Valid
  unique : Relator.BiUnique twins
  node : ∀ ⦃id id'⦄, twins id id' → ∃ node node', session.forest.node? id = some node ∧
    session'.forest.node? id' = some node' ∧ node.Twins twins node'
  slot : ∀ ⦃id id'⦄, twins id id' → (session.memo.slot id).Twins twins (session'.memo.slot id')
  roots : ∀ name, Option.Rel twins (session.forest.roots.find? name) (session'.forest.roots.find? name)

inductive Session.Goal.Twins (twins : NodeId → NodeId → Prop) : Goal → Goal → Prop
  | base {id id'} : twins id id' → Twins twins (.base id) (.base id')
  | past {id id' origin origin' node node'} : twins id id' → twins origin origin' → twins node node' →
      Twins twins (.past id origin node) (.past id' origin' node')

namespace Session.Mirrors

variable {session session' : Session ε}

theorem symm (h : Mirrors twins session session') : Mirrors (flip twins) session' session where
  valid := h.valid'
  valid' := h.valid
  unique := ⟨fun _ _ _ hleft hright ↦ h.unique.2 hleft hright, fun _ _ _ hleft hright ↦ h.unique.1 hleft hright⟩
  node id' id htwins := by
    obtain ⟨node, node', hnode, hnode', hsame⟩ := h.node htwins
    exact ⟨node', node, hnode', hnode, hsame.name.symm, hsame.payload.symm, rel_flip hsame.parent,
      fun name ↦ rel_flip (hsame.child name)⟩
  slot id' id htwins := (h.slot htwins).flip
  roots name := rel_flip (h.roots name)

variable (h : Mirrors twins session session')
include h

section Twins

variable {id id' : NodeId} (htwins : twins id id')
include htwins

theorem lt : id < session.forest.size := by
  obtain ⟨node, _, hnode, _⟩ := h.node htwins
  exact Forest.lt_of_node?_eq hnode

theorem lt' : id' < session'.forest.size := h.symm.lt htwins

theorem nameOf_eq : session.forest.nameOf id = session'.forest.nameOf id' := by
  obtain ⟨node, node', hnode, hnode', hsame⟩ := h.node htwins
  rw [Forest.nameOf_eq hnode, Forest.nameOf_eq hnode', hsame.name]

theorem rel_parentOf :
    Option.Rel twins (session.forest.parentOf id) (session'.forest.parentOf id') := by
  obtain ⟨node, node', hnode, hnode', hsame⟩ := h.node htwins
  rw [Forest.parentOf_eq hnode, Forest.parentOf_eq hnode']
  exact hsame.parent

theorem rel_childNamed (name : String) :
    Option.Rel twins (session.forest.childNamed name id) (session'.forest.childNamed name id') := by
  obtain ⟨node, node', hnode, hnode', hsame⟩ := h.node htwins
  rw [Forest.childNamed_eq hnode, Forest.childNamed_eq hnode']
  exact hsame.child name

theorem rel_namesakeOf {candidate candidate' : NodeId} (hcandidate : twins candidate candidate') :
    Option.Rel twins (session.forest.namesakeOf id candidate)
      (session'.forest.namesakeOf id' candidate') := by
  unfold Forest.namesakeOf
  rw [← h.nameOf_eq htwins]
  cases session.forest.nameOf id with
  | none => exact .none
  | some name =>
    apply rel_filter (h.rel_childNamed hcandidate name)
    intro child child' hchild
    have heq : child = id ↔ child' = id' := Relator.rel_eq h.unique hchild htwins
    simp [heq]

end Twins

/-! ## Bases of twins -/

/-- What is derived in one session is derived in the other, for twins. -/
theorem exists_derives {goal goal' : Goal} (hgoal : goal.Twins twins goal') {found : NodeId}
    (hderives : Derives session goal found) :
    ∃ found', Derives session' goal' found' ∧ twins found found' := by
  -- The rules that apply to a goal depend on what twins have in common: slots, parents and namesakes.
  induction hderives generalizing goal' with
  | @known id found hslot =>
    cases hgoal with
    | @base _ id' htwins =>
      obtain ⟨base', hslot', hbase⟩ := (hslot ▸ h.slot htwins).exists_resolved
      obtain ⟨found', rfl, hfound⟩ := exists_of_rel_some hbase
      exact ⟨found', .known hslot', hfound⟩
  | @sought id parent found hslot hparent _ ih =>
    cases hgoal with
    | @base _ id' htwins =>
      have hslot' : session'.memo.slot id' = .unresolved := (hslot ▸ h.slot htwins).eq_unresolved
      obtain ⟨parent', hparent', hparents⟩ := exists_of_rel_some (hparent ▸ h.rel_parentOf htwins)
      obtain ⟨found', hpast, hfound⟩ := ih (.past htwins hparents hparents)
      exact ⟨found', .sought hslot' hparent' hpast, hfound⟩
  | @here id origin node met found _ hne hname ih =>
    cases hgoal with
    | @past _ id' _ origin' _ node' htwins horigin hnode =>
      obtain ⟨met', hmet', hmet⟩ := ih (.base hnode)
      have hne' : met' ≠ origin' := (Relator.rel_eq h.unique hmet horigin).not.mp hne
      obtain ⟨found', hname', hfound⟩ := exists_of_rel_some (hname ▸ h.rel_namesakeOf htwins hmet)
      exact ⟨found', .here hmet' hne' hname', hfound⟩
  | @further id origin node met found _ hne hname _ ihBase ih =>
    cases hgoal with
    | @past _ id' _ origin' _ node' htwins horigin hnode =>
      obtain ⟨met', hmet', hmet⟩ := ihBase (.base hnode)
      have hne' : met' ≠ origin' := (Relator.rel_eq h.unique hmet horigin).not.mp hne
      have hname' := eq_none_of_rel_none (hname ▸ h.rel_namesakeOf htwins hmet)
      obtain ⟨found', hpast, hfound⟩ := ih (.past htwins horigin hmet)
      exact ⟨found', .further hmet' hne' hname' hpast, hfound⟩

/-- The bases of twins are twins. -/
theorem rel_baseOf {id id' : NodeId} (htwins : twins id id') :
    Option.Rel twins (session.baseOf id) (session'.baseOf id') := by
  cases hbase : session.baseOf id with
  | some found =>
    obtain ⟨found', hfound', hfound⟩ :=
      h.exists_derives (.base htwins) (baseOf_eq_some_iff.mp hbase)
    rw [baseOf_eq_some_iff.mpr hfound']
    exact .some hfound
  | none =>
    cases hbase' : session'.baseOf id' with
    | none => exact .none
    | some found' =>
      -- What is derived for the twin is derived here as well, as the sessions mirror each other.
      obtain ⟨found, hfound, _⟩ :=
        h.symm.exists_derives (.base htwins) (baseOf_eq_some_iff.mp hbase')
      exact nomatch hbase.symm.trans (baseOf_eq_some_iff.mpr hfound)

/-- A trail that sets out from a twin meets twins. -/
theorem exists_twin_trail {seen line : List NodeId} {node : NodeId}
    (hline : Trail session.baseOf seen node line) {seen' : List NodeId} {node' : NodeId}
    (hseen : List.Forall₂ twins seen seen') (hnode : twins node node') :
    ∃ line', Trail session'.baseOf seen' node' line' ∧ List.Forall₂ twins line line' := by
  induction hline generalizing seen' node' with
  | stop hnone =>
    have hnone' := eq_none_of_rel_none (hnone ▸ h.rel_baseOf hnode)
    exact ⟨[], .stop hnone', .nil⟩
  | @cut seen node base hnext hmem =>
    obtain ⟨base', hnext', hbase⟩ := exists_of_rel_some (hnext ▸ h.rel_baseOf hnode)
    exact ⟨[], .cut hnext' ((List.rel_mem h.unique hbase hseen).mp hmem), .nil⟩
  | @step seen node base line hnext hnot _ ih =>
    obtain ⟨base', hnext', hbase⟩ := exists_of_rel_some (hnext ▸ h.rel_baseOf hnode)
    obtain ⟨line', hline', hlines⟩ := ih (.cons hbase hseen) hbase
    exact ⟨base' :: line', .step hnext' ((List.rel_mem h.unique hbase hseen).not.mp hnot) hline',
      .cons hbase hlines⟩

/-! ## Paths of twins -/

theorem lineWithin_eq {limit limit' : Nat} {id id' : NodeId} (htwins : twins id id') (hlimit : id < limit)
    (hlimit' : id' < limit') :
    session.forest.lineWithin limit id = session'.forest.lineWithin limit' id' := by
  induction limit generalizing limit' id id' with
  | zero => exact absurd hlimit (Nat.not_lt_zero id)
  | succ limit ih =>
    obtain ⟨limit', rfl⟩ := Nat.exists_eq_add_one_of_ne_zero (Nat.ne_zero_of_lt hlimit')
    obtain ⟨node, node', hnode, hnode', hsame⟩ := h.node htwins
    simp only [Forest.lineWithin, Forest.node_eq_ok hnode, Forest.node_eq_ok hnode', bind, Except.bind]
    cases hparent : node.parent with
    | none =>
      have hparent' := eq_none_of_rel_none (hparent ▸ hsame.parent)
      simp only [hparent', hsame.name]
    | some parent =>
      obtain ⟨parent', hparent', hparents⟩ := exists_of_rel_some (hparent ▸ hsame.parent)
      have hlt := h.valid.closed.parent_lt ((Forest.parentOf_eq hnode).trans hparent)
      have hlt' := h.valid'.closed.parent_lt ((Forest.parentOf_eq hnode').trans hparent')
      have hline := ih hparents (Nat.lt_of_lt_of_le hlt (Nat.le_of_lt_succ hlimit))
        (Nat.lt_of_lt_of_le hlt' (Nat.le_of_lt_succ hlimit'))
      simp only [hparent', hline, hsame.name]

/-- Twins have one path. -/
theorem exists_path {id id' : NodeId} (htwins : twins id id') :
    ∃ path, session.forest.path id = .ok path ∧ session'.forest.path id' = .ok path := by
  obtain ⟨path, hpath⟩ := h.valid.closed.exists_path (h.lt htwins)
  refine ⟨path, hpath, ?_⟩
  have hline := h.lineWithin_eq htwins (Nat.lt_succ_of_lt (h.lt htwins)) (Nat.lt_succ_of_lt (h.lt' htwins))
  unfold Forest.path Forest.line at hpath ⊢
  rw [← hline]
  exact hpath

theorem rel_descendant (names : List String) {id id' : NodeId} (htwins : twins id id') :
    Option.Rel twins (session.forest.descendant names id) (session'.forest.descendant names id') := by
  induction names generalizing id id' with
  | nil => exact .some htwins
  | cons name names ih => exact rel_bind (h.rel_childNamed htwins name) fun _ _ hchild ↦ ih hchild

/-- A path leads to twins. -/
theorem exists_find (path : String) : ∃ found found', session.forest.find path = .ok found ∧
    session'.forest.find path = .ok found' ∧ Option.Rel twins found found' := by
  unfold Forest.find
  cases Forest.segments path with
  | nil => exact ⟨none, none, rfl, rfl, .none⟩
  | cons root names =>
    have hroots := h.roots root
    dsimp only
    generalize session.forest.roots.find? root = found at hroots
    generalize session'.forest.roots.find? root = found' at hroots
    cases hroots with
    | none => exact ⟨none, none, rfl, rfl, .none⟩
    | @some id id' htwins =>
      have hdescend := h.valid.closed.descend_eq_ok (h.lt htwins) names
      have hdescend' := h.valid'.closed.descend_eq_ok (h.lt' htwins) names
      exact ⟨_, _, hdescend, hdescend', h.rel_descendant names htwins⟩

end Session.Mirrors

/-! ## Asking by paths -/

namespace Forest

def path? (forest : Forest ε) (id : Option NodeId) : Except Error (Option String) :=
  id.mapM forest.path

/-- The entries of a map of nodes, with the paths of these. -/
def entries (forest : Forest ε) (children : NameMap NodeId) : Except Error (List (String × String)) :=
  children.toList.mapM fun entry ↦ do return (entry.1, ← forest.path entry.2)

end Forest

/-- What can be asked about the node of a path.  Other nodes, too, are called by their paths. -/
inductive Inquiry where
  | payload
  | children
  | base
  | chain
  | inheritance
  | strictInheritance
  | inheritsFrom (ancestor : String)
  | visibleChild (name : String)
  | visibleChildren

/-- What a reader is told, with nodes written as paths. -/
inductive Told (ε : Type) where
  /-- There is no node of a path. -/
  | nowhere
  | payload (payload : ε)
  | path? (path : Option String)
  | paths (paths : List String)
  | flag (flag : Bool)
  | children (children : List (String × String))

/-- Tell what there is to tell of the node of a path. -/
def Forest.tellAt (forest : Forest ε) (path : String) (tell : NodeId → Lookup (Told ε)) :
    Lookup (Told ε) := do
  match ← forest.find path with
  | none => return .nowhere
  | some id => tell id

def Inquiry.ask (forest : Forest ε) (id : NodeId) : Inquiry → Lookup (Told ε)
  | payload => do return .payload (← forest.node id).payload
  | children => do return .children (← forest.entries (← forest.node id).children)
  | base => do return .path? (← forest.path? (← forest.base id))
  | chain => do return .paths (← forest.paths (← forest.chain id))
  | inheritance => do return .paths (← forest.paths (← forest.inheritance id))
  | strictInheritance => do return .paths (← forest.paths (← forest.strictInheritance id))
  | inheritsFrom path => forest.tellAt path fun ancestor ↦ do
    return .flag (← forest.inheritsFrom id ancestor)
  | visibleChild name => do return .path? (← forest.path? (← forest.visibleChild id name))
  | visibleChildren => do return .children (← forest.entries (← forest.visibleChildren id))

/-- What a reader is told after some reads. -/
def Session.toldAfter (session : Session ε) (reads : List (Read ε)) (path : String) (inquiry : Inquiry) :
    Except Error (Told ε) :=
  ((session.forest.tellAt path (inquiry.ask session.forest)).run (session.afterReads reads).memo).1

namespace Session

variable {α β : Type} {session session' : Session ε}

theorem toldAfter_payload {path : String} {id : NodeId} {node : Node ε}
    (hfind : session.forest.find path = .ok (some id)) (hnode : session.forest.node? id = some node)
    (reads : List (Read ε)) : session.toldAfter reads path .payload = .ok (.payload node.payload) := by
  unfold toldAfter Forest.tellAt
  rw [hfind]
  change ((do return Told.payload (← session.forest.node id).payload : Lookup (Told ε)).run _).1 = _
  rw [Forest.node_eq_ok hnode]
  rfl

/-- Two look-ups, one in each session, come to the same.  They fail only if following bases comes to a
node twice. -/
def Concur (session session' : Session ε) (look look' : Lookup α) : Prop :=
  ∃ result, Keeps session.Settled look result ∧ Keeps session'.Settled look' result ∧
    ∀ error, result = .error error → ∃ id, session.Revisits id

theorem concur_of_ok {look look' : Lookup α} {value : α} (hlook : Keeps session.Settled look (.ok value))
    (hlook' : Keeps session'.Settled look' (.ok value)) : Concur session session' look look' :=
  ⟨.ok value, hlook, hlook', nofun⟩

/-- What is found in both sessions and written alike is told alike. -/
theorem concur_of_written {look look' : Lookup α} {found found' : α} {write write' : α → Except Error β}
    (tell : β → Told ε) (hlook : Keeps session.Settled look (.ok found))
    (hlook' : Keeps session'.Settled look' (.ok found'))
    (hwrite : ∃ text, write found = .ok text ∧ write' found' = .ok text) :
    Concur session session' (do return tell (← write (← look))) (do return tell (← write' (← look'))) := by
  obtain ⟨text, htext, htext'⟩ := hwrite
  apply concur_of_ok (hlook.bind ?_) (hlook'.bind ?_)
  · exact tell text
  · rw [htext]
    exact (returns_liftM (.ok text)).bind (returns_pure _)
  · rw [htext']
    exact (returns_liftM (.ok text)).bind (returns_pure _)

namespace Mirrors

variable (h : Mirrors twins session session')
include h

theorem exists_path? {id id' : Option NodeId} (hids : Option.Rel twins id id') :
    ∃ path, session.forest.path? id = .ok path ∧ session'.forest.path? id' = .ok path := by
  cases hids with
  | none => exact ⟨none, rfl, rfl⟩
  | @some id id' htwins =>
    obtain ⟨path, hpath, hpath'⟩ := h.exists_path htwins
    refine ⟨some path, ?_, ?_⟩
    · simp [Forest.path?, hpath]
    · simp [Forest.path?, hpath']

theorem exists_paths {ids ids' : List NodeId} (hids : List.Forall₂ twins ids ids') :
    ∃ paths, session.forest.paths ids = .ok paths ∧ session'.forest.paths ids' = .ok paths :=
  exists_mapM_eq_ok hids fun _ _ ↦ h.exists_path

theorem exists_entries {children children' : NameMap NodeId}
    (hchildren : ∀ name, Option.Rel twins (children.find? name) (children'.find? name)) :
    ∃ entries, session.forest.entries children = .ok entries ∧
      session'.forest.entries children' = .ok entries := by
  apply exists_mapM_eq_ok (NameMap.forall₂_toList hchildren)
  rintro ⟨name, child⟩ ⟨_, child'⟩ ⟨rfl, htwins⟩
  obtain ⟨path, hpath, hpath'⟩ := h.exists_path htwins
  refine ⟨(name, path), ?_, ?_⟩
  · simp only [hpath]
    rfl
  · simp only [hpath']
    rfl

/-- If the same is told of twins, the same is told at a path. -/
theorem concur_tellAt (path : String) {tell tell' : NodeId → Lookup (Told ε)}
    (htell : ∀ id id', twins id id' → Concur session session' (tell id) (tell' id')) :
    Concur session session' (session.forest.tellAt path tell) (session'.forest.tellAt path tell') := by
  obtain ⟨found, found', hfind, hfind', hfound⟩ := h.exists_find path
  unfold Forest.tellAt
  rw [hfind, hfind']
  cases hfound with
  | none =>
    exact concur_of_ok ((returns_liftM (.ok none)).bind (returns_pure _))
      ((returns_liftM (.ok none)).bind (returns_pure _))
  | @some id id' htwins =>
    obtain ⟨result, hresult, hresult', hfails⟩ := htell id id' htwins
    exact ⟨result, (returns_liftM (.ok (some id))).bind hresult,
      (returns_liftM (.ok (some id'))).bind hresult', hfails⟩

section Ask

variable {id id' : NodeId} (htwins : twins id id') {line line' : List NodeId}
  (hline : Trail session.baseOf [id] id line) (hline' : Trail session'.baseOf [id'] id' line')
  (hlines : List.Forall₂ twins line line')
include htwins hline hline' hlines

theorem concur_inheritsFrom {ancestor ancestor' : NodeId} (hancestor : twins ancestor ancestor') :
    Concur session session' (do return (.flag (← session.forest.inheritsFrom id ancestor) : Told ε))
      (do return .flag (← session'.forest.inheritsFrom id' ancestor')) := by
  have hmem : ancestor ∈ line ↔ ancestor' ∈ line' := List.rel_mem h.unique hancestor hlines
  have hflag := h.valid.keeps_inheritsFrom (h.lt htwins) hline ancestor
  have hflag' := h.valid'.keeps_inheritsFrom (h.lt' htwins) hline' ancestor'
  rw [← decide_eq_decide.mpr hmem] at hflag'
  exact concur_of_ok (hflag.bind (returns_pure _)) (hflag'.bind (returns_pure _))

/-- Followed strictly, the bases of twins lead to twins, or else close a cycle of the same paths. -/
theorem concur_strictInheritance :
    Concur session session' (Inquiry.strictInheritance.ask session.forest id)
      (Inquiry.strictInheritance.ask session'.forest id') := by
  have hlast := h.rel_baseOf (getLastD_of_forall₂ hlines htwins)
  have hstrict := h.valid.keeps_strictInheritance (h.lt htwins) hline
  have hstrict' := h.valid'.keeps_strictInheritance (h.lt' htwins) hline'
  cases hbeyond : session.baseOf (line.getLastD id) with
  | none =>
    have hnone := eq_none_of_rel_none (hbeyond ▸ hlast)
    rw [hbeyond, Forest.strictly_none] at hstrict
    rw [hnone, Forest.strictly_none] at hstrict'
    exact concur_of_written Told.paths hstrict hstrict' (h.exists_paths (List.rel_reverse hlines))
  | some again =>
    obtain ⟨again', hbeyond', hagain⟩ := exists_of_rel_some (hbeyond ▸ hlast)
    obtain ⟨paths, hpaths, hpaths'⟩ :=
      h.exists_paths (List.rel_append (.cons htwins hlines) (.cons hagain .nil))
    rw [hbeyond, Forest.strictly_some hpaths] at hstrict
    rw [hbeyond', Forest.strictly_some hpaths'] at hstrict'
    refine ⟨.error (.cycle paths), hstrict.bind_error _, hstrict'.bind_error _, fun _ _ ↦ ?_⟩
    exact ⟨id, (h.valid.revisits_iff hline).mpr ⟨again, hbeyond⟩⟩

end Ask

/-- The same is told of twins. -/
theorem concur_ask {id id' : NodeId} (htwins : twins id id') (inquiry : Inquiry) :
    Concur session session' (inquiry.ask session.forest id) (inquiry.ask session'.forest id') := by
  have hid := h.lt htwins
  have hid' := h.lt' htwins
  obtain ⟨node, node', hnode, hnode', hsame⟩ := h.node htwins
  obtain ⟨line, hline⟩ := h.valid.exists_trail hid
  obtain ⟨line', hline', hlines⟩ := h.exists_twin_trail hline (.cons htwins .nil) htwins
  have hchild : ∀ name, Option.Rel twins ((id :: line).findSome? (session.forest.childNamed name))
      ((id' :: line').findSome? (session'.forest.childNamed name)) :=
    fun name ↦ rel_findSome? (.cons htwins hlines) fun _ _ hmet ↦ h.rel_childNamed hmet name
  cases inquiry with
  | payload =>
    unfold Inquiry.ask
    rw [Forest.node_eq_ok hnode, Forest.node_eq_ok hnode']
    refine concur_of_ok ((returns_liftM (.ok node)).bind (returns_pure _)) ?_
    rw [hsame.payload]
    exact (returns_liftM (.ok node')).bind (returns_pure _)
  | children =>
    have hread : Keeps session.Settled _ (.ok node) := returns_liftM (.ok node)
    have hread' : Keeps session'.Settled _ (.ok node') := returns_liftM (.ok node')
    unfold Inquiry.ask
    rw [Forest.node_eq_ok hnode, Forest.node_eq_ok hnode']
    exact concur_of_written Told.children hread hread' (h.exists_entries hsame.child)
  | base =>
    exact concur_of_written Told.path? (h.valid.keeps_base id hid) (h.valid'.keeps_base id' hid')
      (h.exists_path? (h.rel_baseOf htwins))
  | chain =>
    exact concur_of_written Told.paths (h.valid.keeps_chain hid hline) (h.valid'.keeps_chain hid' hline')
      (h.exists_paths hlines)
  | inheritance =>
    exact concur_of_written Told.paths (h.valid.keeps_inheritance hid hline)
      (h.valid'.keeps_inheritance hid' hline') (h.exists_paths (List.rel_reverse hlines))
  | strictInheritance => exact h.concur_strictInheritance htwins hline hline' hlines
  | inheritsFrom path =>
    apply h.concur_tellAt
    intro ancestor ancestor' hancestor
    exact h.concur_inheritsFrom htwins hline hline' hlines hancestor
  | visibleChild name =>
    exact concur_of_written Told.path? (h.valid.keeps_visibleChild hid hline name)
      (h.valid'.keeps_visibleChild hid' hline' name) (h.exists_path? (hchild name))
  | visibleChildren =>
    obtain ⟨children, hread, hfind⟩ := h.valid.exists_keeps_visibleChildren hid hline
    obtain ⟨children', hread', hfind'⟩ := h.valid'.exists_keeps_visibleChildren hid' hline'
    apply concur_of_written Told.children hread hread' (h.exists_entries _)
    intro name
    rw [hfind, hfind']
    exact hchild name

/-- Whatever was read before, a reader of either session is told the same. -/
theorem exists_told (path : String) (inquiry : Inquiry) : ∃ told,
    (∀ reads, session.toldAfter reads path inquiry = told) ∧
    (∀ reads, session'.toldAfter reads path inquiry = told) ∧
    ∀ error, told = .error error → ∃ id, session.Revisits id := by
  obtain ⟨told, htold, htold', hfails⟩ :=
    h.concur_tellAt path fun _ _ htwins ↦ h.concur_ask htwins inquiry
  refine ⟨told, fun reads ↦ ?_, fun reads ↦ ?_, hfails⟩
  · exact htold.run_eq (h.valid.consistent_afterReads reads).settled
  · exact htold'.run_eq (h.valid'.consistent_afterReads reads).settled

end Mirrors

end Session

end Lineage
