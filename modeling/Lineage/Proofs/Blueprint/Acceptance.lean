import Lineage.Blueprint.Document
import Lineage.Proofs.Blueprint.Grammar
import Lineage.Proofs.Trail
import Mathlib.Data.List.Chain

/-!
# Which configurations are accepted

`Acceptable` says what declarations have to satisfy, without saying how they are checked: names and
selectors are well formed, every block that is extended is another one that is declared, and no block
can be reached from itself by extending.  Just these declarations give a blueprint, and it lists them
(`Lists`).  This is `accepts_acceptable`.  A block that stands in the way is `Malformed` or `Misbased`, or it
`Circles`; each pass of the check turns down the blocks with one of these faults.  A text counts by the
declarations that it holds (`ofText_eq_ok_iff_ofDeclarations`), so what follows is stated for these.

The check for cycles follows extended blocks from each block until there is none or a name repeats.  A
name that repeats closes a cycle (`closes_of_cycleWithin`).  From a name that leads to a cycle there is
always a next one, so a name repeats within as many steps as there are blocks (`cycle?_ne_none`).
-/

namespace Lineage.Blueprint

/-! ## Acceptable declarations -/

/-- The text of a selector: a name, or two names with a colon between them. -/
def IsSelector (text : String) : Prop :=
  IsName text ∨ ∃ className state, IsName className ∧ IsName state ∧ text = className ++ ":" ++ state

/-- The block of a name is declared to extend another name. -/
def Extends (declarations : NameMap Declaration) (name base : String) : Prop :=
  ∃ declaration, declarations.find? name = some declaration ∧ declaration.base = some base

structure Acceptable (declarations : NameMap Declaration) : Prop where
  name : ∀ name declaration, declarations.find? name = some declaration → IsName name
  selector : ∀ name declaration, declarations.find? name = some declaration →
    ∀ text ∈ declaration.selectors, IsSelector text
  base : ∀ name base, Extends declarations name base →
    base ≠ name ∧ (declarations.find? base).isSome
  acyclic : ∀ name, ¬ Relation.TransGen (Extends declarations) name name

section Faults

variable (declarations : NameMap Declaration)

/-- A block whose name or one of whose selectors is malformed. -/
def Malformed (name : String) : Prop :=
  ∃ declaration, declarations.find? name = some declaration ∧
    (¬ IsName name ∨ ∃ text ∈ declaration.selectors, ¬ IsSelector text)

/-- A block that extends itself or one that is not declared. -/
def Misbased (name : String) : Prop :=
  ∃ base, Extends declarations name base ∧ (base = name ∨ declarations.find? base = none)

/-- A block from which extending leads to a cycle. -/
def Circles (name : String) : Prop :=
  ∃ other, Relation.ReflTransGen (Extends declarations) name other ∧
    Relation.TransGen (Extends declarations) other other

variable {declarations} {name : String}

theorem Extends.isSome_find? {base : String} (h : Extends declarations name base) :
    (declarations.find? name).isSome := by
  obtain ⟨declaration, hfind, _⟩ := h
  exact Option.isSome_iff_exists.mpr ⟨declaration, hfind⟩

theorem Malformed.isSome_find? (h : Malformed declarations name) : (declarations.find? name).isSome := by
  obtain ⟨declaration, hfind, _⟩ := h
  exact Option.isSome_iff_exists.mpr ⟨declaration, hfind⟩

theorem Misbased.isSome_find? (h : Misbased declarations name) : (declarations.find? name).isSome := by
  obtain ⟨base, hbase, _⟩ := h
  exact hbase.isSome_find?

theorem Circles.isSome_find? (h : Circles declarations name) : (declarations.find? name).isSome := by
  obtain ⟨other, hreach, hcycle⟩ := h
  obtain ⟨base, hbase, _⟩ := Relation.TransGen.head'_iff.mp (hcycle.trans_right hreach)
  exact hbase.isSome_find?

/-- A block extends one other at most. -/
theorem rightUnique_extends : Relator.RightUnique (Extends declarations) := by
  rintro name base base' ⟨declaration, hfind, hbase⟩ ⟨declaration', hfind', hbase'⟩
  obtain rfl := Option.some.inj (hfind.symm.trans hfind')
  exact Option.some.inj (hbase.symm.trans hbase')

theorem not_misbased_iff : ¬ Misbased declarations name ↔
    ∀ base, Extends declarations name base → base ≠ name ∧ (declarations.find? base).isSome := by
  simp [Misbased, Option.isSome_iff_ne_none]

theorem forall_not_circles_iff : (∀ name, ¬ Circles declarations name) ↔
    ∀ name, ¬ Relation.TransGen (Extends declarations) name name := by
  constructor
  · intro h name hcycle
    exact h name ⟨name, .refl, hcycle⟩
  · rintro h name ⟨other, _, hcycle⟩
    exact h other hcycle

end Faults

/-! ## Blocks -/

/-- A block that is well formed and has the name, base and selectors that are declared. -/
structure Block.Realizes (block : Block) (entry : String × Declaration) : Prop where
  name : block.name = entry.1
  base : block.base = entry.2.base
  selectors : block.selectors.map Selector.text = entry.2.selectors
  isName : IsName block.name
  wellNamed : ∀ selector ∈ block.selectors, selector.WellNamed

theorem isSelector_iff (text : String) :
    IsSelector text ↔ ∃ selector : Selector, selector.WellNamed ∧ selector.text = text := by
  constructor
  · rintro (h | ⟨className, state, hclass, hstate, rfl⟩)
    · exact ⟨⟨text, none⟩, ⟨h, nofun⟩, rfl⟩
    · exact ⟨⟨className, some state⟩, ⟨hclass, by simpa using hstate⟩, rfl⟩
  · rintro ⟨⟨className, _ | state⟩, hnamed, rfl⟩
    · exact .inl hnamed.className
    · exact .inr ⟨className, state, hnamed.className, hnamed.state state rfl, rfl⟩

theorem forall₂_text_iff {texts : List String} {selectors : List Selector} :
    List.Forall₂ (fun text selector ↦ Selector.ofText text = .ok selector) texts selectors ↔
      selectors.map Selector.text = texts ∧ ∀ selector ∈ selectors, selector.WellNamed := by
  simp only [Selector.ofText_eq_ok_iff]
  induction selectors generalizing texts with
  | nil => simp [eq_comm]
  | cons selector selectors ih =>
    rw [List.forall₂_cons_right_iff, List.map_cons, List.forall_mem_cons]
    simp only [ih]
    constructor
    · rintro ⟨text, rest, ⟨hnamed, rfl⟩, ⟨rfl, hrest⟩, rfl⟩
      exact ⟨rfl, hnamed, hrest⟩
    · rintro ⟨rfl, hnamed, hrest⟩
      exact ⟨_, _, ⟨hnamed, rfl⟩, ⟨rfl, hrest⟩, rfl⟩

theorem ofDeclaration_eq_ok_iff (entry : String × Declaration) (block : Block) :
    Block.ofDeclaration entry.1 entry.2 = .ok block ↔ block.Realizes entry := by
  unfold Block.ofDeclaration
  rw [check_bind_eq_ok_iff, mapError_eq_ok_iff, checkName_eq_ok_iff, bind_eq_ok_iff]
  simp only [mapM_eq_ok_iff, mapError_eq_ok_iff, forall₂_text_iff]
  constructor
  · rintro ⟨hname, selectors, ⟨htexts, hnamed⟩, heq⟩
    obtain rfl := Except.ok.inj heq
    exact ⟨rfl, rfl, htexts, hname, hnamed⟩
  · obtain ⟨name, base, selectors⟩ := block
    rintro ⟨rfl, rfl, htexts, hname, hnamed⟩
    exact ⟨hname, selectors, ⟨htexts, hnamed⟩, rfl⟩

theorem exists_ofDeclaration_iff (entry : String × Declaration) :
    (∃ block, Block.ofDeclaration entry.1 entry.2 = .ok block) ↔
      IsName entry.1 ∧ ∀ text ∈ entry.2.selectors, IsSelector text := by
  simp only [ofDeclaration_eq_ok_iff, isSelector_iff, ← Selector.ofText_eq_ok_iff]
  rw [← exists_mapM_eq_ok_iff]
  simp only [mapM_eq_ok_iff, forall₂_text_iff]
  constructor
  · rintro ⟨block, hname, _, htexts, hisName, hnamed⟩
    exact ⟨hname ▸ hisName, block.selectors, htexts, hnamed⟩
  · rintro ⟨hname, selectors, htexts, hnamed⟩
    exact ⟨⟨entry.1, entry.2.base, selectors⟩, rfl, rfl, htexts, hname, hnamed⟩

/-! ## Look-ups -/

theorem exists_of_mem_right {α β : Type} {relation : α → β → Prop} {items : List α} {values : List β}
    (h : List.Forall₂ relation items values) {value : β} (hvalue : value ∈ values) :
    ∃ item ∈ items, relation item value := by
  induction h with
  | nil => exact nomatch hvalue
  | cons hhead _ ih =>
    rcases List.mem_cons.mp hvalue with rfl | hvalue
    · exact ⟨_, List.mem_cons_self, hhead⟩
    · obtain ⟨item, hitem, hrelated⟩ := ih hvalue
      exact ⟨item, List.mem_cons_of_mem _ hitem, hrelated⟩

section Lists

variable {entries : List (String × Declaration)} {blocks : List Block}
  (h : List.Forall₂ (fun entry block ↦ Block.Realizes block entry) entries blocks)
include h

theorem map_name_of_forall₂ : blocks.map (·.name) = entries.map (·.1) := by
  induction h with
  | nil => rfl
  | cons hblock _ ih => simp [hblock.name, ih]

/-- The block of a name realises the declaration of that name. -/
theorem find?_of_forall₂ (name : String) :
    match entries.lookup name with
    | some declaration => ∃ block ∈ blocks, blocks.find? (·.name = name) = some block ∧
        block.Realizes (name, declaration)
    | none => blocks.find? (·.name = name) = none := by
  induction h with
  | nil => rfl
  | @cons entry block entries blocks hblock _ ih =>
    rw [NameMap.lookup_cons_eq_ite]
    by_cases hname : name = entry.1
    · rw [if_pos hname]
      refine ⟨block, List.mem_cons_self, ?_, ?_⟩
      · simp [hblock.name, hname]
      · rw [hname]
        exact hblock
    · have hskip : ¬ block.name = name := fun heq ↦ hname (heq ▸ hblock.name)
      rw [if_neg hname, List.find?_cons_of_neg (by simpa using hskip)]
      cases hlookup : entries.lookup name with
      | none => simpa [hlookup] using ih
      | some declaration =>
        rw [hlookup] at ih
        obtain ⟨found, hfound, hfind, hrealizes⟩ := ih
        exact ⟨found, List.mem_cons_of_mem _ hfound, hfind, hrealizes⟩

end Lists

/-- A blueprint with a block for each declaration, in name order, in which blocks are looked up by
name. -/
structure Lists (blueprint : Blueprint) (declarations : NameMap Declaration) : Prop where
  blocks : List.Forall₂ (fun entry block ↦ Block.Realizes block entry) declarations.toList
    blueprint.blocks
  increasing : blueprint.blocks.Pairwise fun left right ↦ left.name < right.name
  get?_some : ∀ name declaration, declarations.find? name = some declaration →
    ∃ block ∈ blueprint.blocks, blueprint.get? name = some block ∧ block.Realizes (name, declaration)
  get?_none : ∀ name, declarations.find? name = none → blueprint.get? name = none

theorem Lists.of_forall₂ {blueprint : Blueprint} {declarations : NameMap Declaration}
    (h : List.Forall₂ (fun entry block ↦ Block.Realizes block entry) declarations.toList
      blueprint.blocks) : blueprint.Lists declarations where
  blocks := h
  increasing := by
    have hnames := declarations.names_pairwise_lt
    rw [NameMap.names, ← NameMap.toList, ← map_name_of_forall₂ h] at hnames
    exact List.pairwise_map.mp hnames
  get?_some name declaration hfind := by
    have hfound := find?_of_forall₂ h name
    rw [show declarations.toList.lookup name = some declaration from hfind] at hfound
    exact hfound
  get?_none name hfind := by
    have hfound := find?_of_forall₂ h name
    rw [show declarations.toList.lookup name = none from hfind] at hfound
    exact hfound

/-! ## Cycles -/

/-- The block of one name extends the other name. -/
def Leads (blueprint : Blueprint) (name base : String) : Prop := blueprint.base? name = some base

section Cycles

variable {blueprint : Blueprint}

/-- Following names from `start` leads along `names`, of which the last is the first that was met before. -/
structure Closes (leads : String → String → Prop) (start : String) (names : List String) : Prop where
  head : names.head? = some start
  chain : names.IsChain leads
  closes : ∃ met last, names = met ++ [last] ∧ met.Nodup ∧ met.count last = 1

/-- What is met before a name repeats leads to a cycle. -/
theorem Closes.exists_transGen {leads : String → String → Prop} {start : String} {names : List String}
    (h : Closes leads start names) :
    ∃ other, Relation.ReflTransGen leads start other ∧ Relation.TransGen leads other other := by
  obtain ⟨met, last, rfl, -, hcount⟩ := h.closes
  have hlast : last ∈ met := List.count_pos_iff.mp (by omega)
  have hstart : start ∈ met := by
    have hhead := h.head
    rw [List.head?_append_of_ne_nil _ (List.ne_nil_of_mem hlast)] at hhead
    exact List.mem_of_mem_head? hhead
  have hpairs : (met ++ [last]).Pairwise (Relation.TransGen leads) :=
    List.isChain_iff_pairwise.mp (h.chain.imp fun _ _ ↦ .single)
  have hreach : ∀ other ∈ met, Relation.TransGen leads other last := by
    simpa using (List.pairwise_append.mp hpairs).2.2
  exact ⟨last, (hreach start hstart).to_reflTransGen, hreach last hlast⟩

/-- The names met so far are a way from `start`, without repeats, until one repeats. -/
theorem closes_of_cycleWithin {limit : Nat} {start name : String} {met names : List String}
    (hhead : met.head? = some name) (hlast : met.getLast? = some start) (hnodup : met.Nodup)
    (hchain : met.reverse.IsChain blueprint.Leads) (h : blueprint.cycleWithin limit name met = some names) :
    Closes blueprint.Leads start names := by
  induction limit generalizing name met with
  | zero => exact nomatch h
  | succ limit ih =>
    unfold cycleWithin at h
    cases hbase : blueprint.base? name with
    | none => simp [hbase] at h
    | some base =>
      have hlast' : (base :: met).getLast? = some start := by simp [List.getLast?_cons, hlast]
      have hchain' : (base :: met).reverse.IsChain blueprint.Leads := by
        rw [List.reverse_cons, List.isChain_append, List.getLast?_reverse, hhead]
        refine ⟨hchain, .singleton base, ?_⟩
        simpa [Leads] using hbase
      simp only [hbase] at h
      split at h
      next hmem =>
        obtain rfl := Option.some.inj h
        refine ⟨List.head?_reverse.trans hlast', hchain', met.reverse, base, List.reverse_cons, ?_, ?_⟩
        · exact List.nodup_reverse.mpr hnodup
        · rw [List.count_reverse]
          exact List.count_eq_one_of_mem hnodup hmem
      next hmem => exact ih rfl hlast' (List.nodup_cons.mpr ⟨hmem, hnodup⟩) hchain' h

theorem closes_of_cycle? {name : String} {names : List String} (h : blueprint.cycle? name = some names) :
    Closes blueprint.Leads name names :=
  closes_of_cycleWithin rfl rfl (List.nodup_singleton name) (.singleton name) h

theorem mem_names_of_leads {name base : String} (h : blueprint.Leads name base) :
    name ∈ blueprint.blocks.map (·.name) := by
  obtain ⟨block, hblock, _⟩ := Option.bind_eq_some_iff.mp h
  have hname : block.name = name := by simpa using List.find?_some hblock
  exact List.mem_map.mpr ⟨block, List.mem_of_find?_eq_some hblock, hname⟩

/-- There are no more names that lead on than blocks. -/
theorem length_le_size {names : List String} (hnodup : names.Nodup)
    (hnames : ∀ name ∈ names, ∃ base, blueprint.Leads name base) :
    names.length ≤ blueprint.size := by
  have hsubset : names ⊆ blueprint.blocks.map (·.name) := by
    intro name hname
    obtain ⟨base, hbase⟩ := hnames name hname
    exact mem_names_of_leads hbase
  have hlength := (hnodup.subperm hsubset).length_le
  rwa [List.length_map] at hlength

/-- Where names go on for ever, one repeats. -/
theorem cycleWithin_ne_none {limit : Nat} {name : String} {met : List String} (hnodup : met.Nodup)
    (hmet : ∀ other ∈ met, ∃ base, blueprint.Leads other base)
    (hreach : ∀ other, Relation.ReflTransGen blueprint.Leads name other →
      ∃ base, blueprint.Leads other base)
    (hlimit : blueprint.size < met.length + limit) : blueprint.cycleWithin limit name met ≠ none := by
  induction limit generalizing name met with
  | zero => exact absurd hlimit (Nat.not_lt_of_le (length_le_size hnodup hmet))
  | succ limit ih =>
    obtain ⟨base, hbase⟩ := hreach name .refl
    unfold cycleWithin
    by_cases hmem : base ∈ met
    · simp [show blueprint.base? name = some base from hbase, hmem]
    · simp only [show blueprint.base? name = some base from hbase, if_neg hmem]
      have hbaseReach := fun other hother ↦ hreach other (.head hbase hother)
      refine ih (List.nodup_cons.mpr ⟨hmem, hnodup⟩) ?_ hbaseReach ?_
      · exact List.forall_mem_cons.mpr ⟨hbaseReach base .refl, hmet⟩
      · simp only [List.length_cons]
        omega

/-- From a name that leads to a cycle, names go on for ever. -/
theorem cycle?_ne_none {name other : String} (hreach : Relation.ReflTransGen blueprint.Leads name other)
    (hcycle : Relation.TransGen blueprint.Leads other other) : blueprint.cycle? name ≠ none := by
  have hunique : Relator.RightUnique blueprint.Leads :=
    fun _ _ _ hbase hbase' ↦ Option.some.inj (hbase.symm.trans hbase')
  have hnext : ∀ met, Relation.ReflTransGen blueprint.Leads name met → ∃ base, blueprint.Leads met base := by
    intro met hmet
    obtain ⟨last, hlast⟩ : ∃ last, Relation.TransGen blueprint.Leads met last := by
      rcases hmet.total_of_right_unique hunique hreach with hbefore | hbeyond
      · exact ⟨other, .trans_right hbefore hcycle⟩
      · exact ⟨met, transGen_self_of_reflTransGen hcycle hbeyond⟩
    obtain ⟨base, hbase, _⟩ := Relation.TransGen.head'_iff.mp hlast
    exact ⟨base, hbase⟩
  refine cycleWithin_ne_none (List.nodup_singleton name) ?_ hnext ?_
  · simpa using hnext name .refl
  · rw [List.length_singleton]
    omega

end Cycles

/-! ## Acceptance -/

theorem checkBase_eq_ok_iff (blueprint : Blueprint) (block : Block) :
    blueprint.checkBase block = .ok () ↔
      ∀ base ∈ block.base, base ≠ block.name ∧ (blueprint.get? base).isSome := by
  unfold checkBase
  cases block.base with
  | none => simp
  | some base =>
    by_cases hself : base = block.name
    · simp [hself]
    · cases hget : blueprint.get? base <;> simp [hself, hget]

theorem checkAcyclic_eq_ok_iff (blueprint : Blueprint) (block : Block) :
    blueprint.checkAcyclic block = .ok () ↔ blueprint.cycle? block.name = none := by
  unfold checkAcyclic
  cases blueprint.cycle? block.name <;> simp

theorem ofDeclarations_eq_ok_iff (declarations : NameMap Declaration) (blueprint : Blueprint) :
    ofDeclarations declarations = .ok blueprint ↔
      List.Forall₂ (fun entry block ↦ Block.Realizes block entry) declarations.toList
        blueprint.blocks ∧
      (∀ block ∈ blueprint.blocks, blueprint.checkBase block = .ok ()) ∧
      ∀ block ∈ blueprint.blocks, blueprint.checkAcyclic block = .ok () := by
  unfold ofDeclarations
  rw [bind_eq_ok_iff]
  simp only [check_bind_eq_ok_iff, forM_eq_ok_iff, mapM_eq_ok_iff, ofDeclaration_eq_ok_iff]
  constructor
  · rintro ⟨blocks, hblocks, hbases, hcycles, heq⟩
    obtain rfl := Except.ok.inj heq
    exact ⟨hblocks, hbases, hcycles⟩
  · rintro ⟨hblocks, hbases, hcycles⟩
    exact ⟨blueprint.blocks, hblocks, hbases, hcycles, rfl⟩

namespace Lists

variable {blueprint : Blueprint} {declarations : NameMap Declaration} (h : blueprint.Lists declarations)
include h

theorem leads_iff (name base : String) : blueprint.Leads name base ↔ Extends declarations name base := by
  unfold Leads base? Extends
  cases hfind : declarations.find? name with
  | none => simp [h.get?_none name hfind]
  | some declaration =>
    obtain ⟨block, _, hget, hrealizes⟩ := h.get?_some name declaration hfind
    simp [hget, hrealizes.base]

theorem leads_eq : blueprint.Leads = Extends declarations := by
  funext name base
  exact propext (h.leads_iff name base)

theorem exists_declaration {block : Block} (hblock : block ∈ blueprint.blocks) :
    ∃ declaration, declarations.find? block.name = some declaration ∧
      block.Realizes (block.name, declaration) := by
  obtain ⟨entry, hentry, hrealizes⟩ := exists_of_mem_right h.blocks hblock
  obtain ⟨name, declaration⟩ := entry
  obtain rfl : block.name = name := hrealizes.name
  exact ⟨declaration, (NameMap.find?_eq_some_iff ..).mpr hentry, hrealizes⟩

theorem isSome_get?_iff (name : String) :
    (blueprint.get? name).isSome ↔ (declarations.find? name).isSome := by
  cases hfind : declarations.find? name with
  | none => simp [h.get?_none name hfind]
  | some declaration =>
    obtain ⟨block, _, hget, _⟩ := h.get?_some name declaration hfind
    simp [hget]

theorem names_eq : blueprint.blocks.map (·.name) = declarations.names :=
  map_name_of_forall₂ h.blocks

theorem extends_iff {block : Block} (hblock : block ∈ blueprint.blocks) (base : String) :
    Extends declarations block.name base ↔ base ∈ block.base := by
  obtain ⟨declaration, hfind, hrealizes⟩ := h.exists_declaration hblock
  simp [Extends, hfind, hrealizes.base]

theorem checkBase_eq_ok_iff_not_misbased {block : Block} (hblock : block ∈ blueprint.blocks) :
    blueprint.checkBase block = .ok () ↔ ¬ Misbased declarations block.name := by
  rw [checkBase_eq_ok_iff, not_misbased_iff]
  simp only [h.extends_iff hblock, h.isSome_get?_iff]

theorem checkAcyclic_eq_ok_iff_not_circles (block : Block) :
    blueprint.checkAcyclic block = .ok () ↔ ¬ Circles declarations block.name := by
  rw [checkAcyclic_eq_ok_iff]
  unfold Circles
  rw [← h.leads_eq]
  constructor
  · rintro hnone ⟨other, hreach, hcycle⟩
    exact cycle?_ne_none hreach hcycle hnone
  · intro hnot
    refine Option.eq_none_iff_forall_ne_some.mpr fun names hnames ↦ hnot ?_
    exact (closes_of_cycle? hnames).exists_transGen

/-- A fault that only declared blocks have is one of a block, if of any. -/
theorem forall_not_fault_iff {fault : String → Prop}
    (hdeclared : ∀ name, fault name → (declarations.find? name).isSome) :
    (∀ block ∈ blueprint.blocks, ¬ fault block.name) ↔ ∀ name, ¬ fault name := by
  refine ⟨fun hblocks name hname ↦ ?_, fun hnot block _ ↦ hnot block.name⟩
  obtain ⟨declaration, hfind⟩ := Option.isSome_iff_exists.mp (hdeclared name hname)
  obtain ⟨block, hblock, _, hrealizes⟩ := h.get?_some name declaration hfind
  obtain rfl : block.name = name := hrealizes.name
  exact hblocks block hblock hname

theorem forall_checkBase_iff : (∀ block ∈ blueprint.blocks, blueprint.checkBase block = .ok ()) ↔
    ∀ name, ¬ Misbased declarations name := by
  rw [← h.forall_not_fault_iff fun _ ↦ Misbased.isSome_find?]
  exact forall₂_congr fun _ hblock ↦ h.checkBase_eq_ok_iff_not_misbased hblock

/-- Following extended blocks repeats no name just if no block can be reached from itself. -/
theorem forall_checkAcyclic_iff : (∀ block ∈ blueprint.blocks, blueprint.checkAcyclic block = .ok ()) ↔
    ∀ name, ¬ Relation.TransGen (Extends declarations) name name := by
  rw [← forall_not_circles_iff, ← h.forall_not_fault_iff fun _ ↦ Circles.isSome_find?]
  exact forall₂_congr fun block _ ↦ h.checkAcyclic_eq_ok_iff_not_circles block

end Lists

theorem Lists.acceptable {blueprint : Blueprint} {declarations : NameMap Declaration}
    (h : blueprint.Lists declarations)
    (hbases : ∀ block ∈ blueprint.blocks, blueprint.checkBase block = .ok ())
    (hacyclic : ∀ block ∈ blueprint.blocks, blueprint.checkAcyclic block = .ok ()) :
    Acceptable declarations where
  name name declaration hfind := by
    obtain ⟨block, _, _, hrealizes⟩ := h.get?_some name declaration hfind
    have hname : block.name = name := hrealizes.name
    exact hname ▸ hrealizes.isName
  selector name declaration hfind text htext := by
    obtain ⟨block, _, _, hrealizes⟩ := h.get?_some name declaration hfind
    rw [← hrealizes.selectors] at htext
    obtain ⟨selector, hselector, rfl⟩ := List.mem_map.mp htext
    exact (isSelector_iff _).mpr ⟨selector, hrealizes.wellNamed selector hselector, rfl⟩
  base name := not_misbased_iff.mp (h.forall_checkBase_iff.mp hbases name)
  acyclic := h.forall_checkAcyclic_iff.mp hacyclic

theorem lists_of_ofDeclarations_eq_ok {declarations : NameMap Declaration} {blueprint : Blueprint}
    (h : ofDeclarations declarations = .ok blueprint) : blueprint.Lists declarations :=
  .of_forall₂ ((ofDeclarations_eq_ok_iff ..).mp h).1

theorem acyclic_of_ofDeclarations_eq_ok {declarations : NameMap Declaration} {blueprint : Blueprint}
    (h : ofDeclarations declarations = .ok blueprint) (name : String) :
    ¬ Relation.TransGen blueprint.Leads name name := by
  have hlists := lists_of_ofDeclarations_eq_ok h
  rw [hlists.leads_eq]
  exact hlists.forall_checkAcyclic_iff.mp ((ofDeclarations_eq_ok_iff ..).mp h).2.2 name

/-- A text is accepted just if it holds declarations that are. -/
theorem ofText_eq_ok_iff_ofDeclarations {text : String} {blueprint : Blueprint} :
    ofText text = .ok blueprint ↔ ∃ declarations, declarationsOfText? text = some declarations ∧
      ofDeclarations declarations = .ok blueprint := by
  unfold ofText
  cases declarationsOfText? text with
  | none => simp
  | some declarations => simp [mapError_eq_ok_iff]

theorem exists_ofDeclarations_iff (declarations : NameMap Declaration) :
    (∃ blueprint, ofDeclarations declarations = .ok blueprint) ↔ Acceptable declarations := by
  constructor
  · rintro ⟨blueprint, h⟩
    obtain ⟨_, hbases, hacyclic⟩ := (ofDeclarations_eq_ok_iff ..).mp h
    exact (lists_of_ofDeclarations_eq_ok h).acceptable hbases hacyclic
  · intro h
    have hentries : ∀ entry ∈ declarations.toList,
        ∃ block, Block.ofDeclaration entry.1 entry.2 = .ok block := by
      intro entry hentry
      have hfind := (NameMap.find?_eq_some_iff ..).mpr hentry
      exact (exists_ofDeclaration_iff entry).mpr ⟨h.name _ _ hfind, h.selector _ _ hfind⟩
    obtain ⟨blocks, hblocks⟩ := exists_mapM_eq_ok_iff.mpr hentries
    simp only [mapM_eq_ok_iff, ofDeclaration_eq_ok_iff] at hblocks
    have hlists : Lists ⟨blocks⟩ declarations := .of_forall₂ hblocks
    refine ⟨⟨blocks⟩, (ofDeclarations_eq_ok_iff ..).mpr ⟨hblocks, ?_, ?_⟩⟩
    · exact hlists.forall_checkBase_iff.mpr fun name ↦ not_misbased_iff.mpr (h.base name)
    · exact hlists.forall_checkAcyclic_iff.mpr h.acyclic

/-- Declarations give a blueprint just if they are acceptable, and then the blueprint lists them.  A
text that holds declarations gives what they give, and any other text is malformed. -/
theorem accepts_acceptable :
    (∀ declarations : NameMap Declaration,
      ((∃ blueprint, ofDeclarations declarations = .ok blueprint) ↔ Acceptable declarations) ∧
      ∀ blueprint, ofDeclarations declarations = .ok blueprint → blueprint.Lists declarations) ∧
    ∀ text, match declarationsOfText? text with
      | none => ofText text = .error .malformed
      | some declarations =>
        ((∃ blueprint, ofText text = .ok blueprint) ↔ Acceptable declarations) ∧
        ∀ blueprint, ofText text = .ok blueprint → blueprint.Lists declarations := by
  refine ⟨fun declarations ↦ ⟨exists_ofDeclarations_iff declarations, fun _ ↦ lists_of_ofDeclarations_eq_ok⟩,
    fun text ↦ ?_⟩
  unfold ofText
  cases declarationsOfText? text with
  | none => rfl
  | some declarations =>
    simp only [mapError_eq_ok_iff]
    exact ⟨exists_ofDeclarations_iff declarations, fun _ ↦ lists_of_ofDeclarations_eq_ok⟩

end Lineage.Blueprint
