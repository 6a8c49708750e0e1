import Lineage.Proofs.Blueprint.Selectors
import Mathlib.Data.String.Basic
import Mathlib.Order.Bounds.Basic

/-!
# Which violation is reported

Declarations may be wrong in several ways at once, and one thing is said of them.  `Complaint` fixes which,
without saying how they are checked: a malformed name or selector comes before a block that extends what it
may not, and that before a cycle; among the blocks with such a fault the one of the least name comes first;
and in this block the name comes before the selectors, and these in their order.  Declarations are turned
down just if there is a complaint about them, and with its words (`reports_first_violation`).

The words on a cycle give a way round it.  The block that the way sets out from need not lie on the cycle:
it is the first from which a cycle can be reached at all.
-/

namespace Lineage.Blueprint

/-! ## What is said of declarations -/

/-- What is said of a block that is malformed. -/
inductive FormComplaint (name : String) (declaration : Declaration) : String → Prop
  | name {message : String} : NameComplaint "block" name message → FormComplaint name declaration message
  | selector {text message : String} {before after : List String} : IsName name →
      declaration.selectors = before ++ text :: after → (∀ other ∈ before, IsSelector other) →
      SelectorComplaint text message →
      FormComplaint name declaration ("in block '" ++ name ++ "': " ++ message)

/-- What is said of a block that extends what it may not. -/
inductive BaseComplaint (declarations : NameMap Declaration) (name : String) : String → Prop
  | itself : Extends declarations name name →
      BaseComplaint declarations name ("block '" ++ name ++ "' extends itself")
  | unknown {base : String} : Extends declarations name base → base ≠ name →
      declarations.find? base = none →
      BaseComplaint declarations name ("block '" ++ name ++ "' extends unknown block '" ++ base ++ "'")

/-- What is said of declarations that are turned down. -/
inductive Complaint (declarations : NameMap Declaration) : String → Prop
  | form {name message : String} {declaration : Declaration} :
      IsLeast {other | Malformed declarations other} name → declarations.find? name = some declaration →
      FormComplaint name declaration message → Complaint declarations message
  | base {name message : String} : (∀ other, ¬ Malformed declarations other) →
      IsLeast {other | Misbased declarations other} name → BaseComplaint declarations name message →
      Complaint declarations message
  | cyclic {start : String} {names : List String} : (∀ other, ¬ Malformed declarations other) →
      (∀ other, ¬ Misbased declarations other) → IsLeast {other | Circles declarations other} start →
      Closes (Extends declarations) start names →
      Complaint declarations ("cyclic extends: " ++ " -> ".intercalate names)

/-! ## One thing is said -/

variable {declarations : NameMap Declaration} {name message message' : String}

section Closes

variable {leads : String → String → Prop}

/-- Of two ways from one name, where each name leads to one other at most, one is part of the other. -/
theorem prefix_or_prefix_of_isChain (hunique : Relator.RightUnique leads) {first second : List String}
    (hhead : first.head? = second.head?) (hfirst : first.IsChain leads) (hsecond : second.IsChain leads) :
    first <+: second ∨ second <+: first := by
  induction first generalizing second with
  | nil => exact .inl List.nil_prefix
  | cons name first ih =>
    obtain ⟨rest, rfl⟩ := List.head?_eq_some_iff.mp hhead.symm
    simp only [List.prefix_cons_inj]
    cases first with
    | nil => exact .inl List.nil_prefix
    | cons base first =>
      cases rest with
      | nil => exact .inr List.nil_prefix
      | cons base' rest =>
        obtain ⟨hbase, hfirst⟩ := List.isChain_cons_cons.mp hfirst
        obtain ⟨hbase', hsecond⟩ := List.isChain_cons_cons.mp hsecond
        obtain rfl := hunique hbase hbase'
        exact ih rfl hfirst hsecond

/-- A way is not part of a longer one, in which its last name would stand twice before the end. -/
theorem Closes.eq_of_part {start start' : String} {names names' : List String}
    (h : Closes leads start names) (h' : Closes leads start' names') (hpart : names <+: names') :
    names = names' := by
  obtain ⟨met, last, rfl, -, hcount⟩ := h.closes
  obtain ⟨met', last', rfl, hnodup, -⟩ := h'.closes
  rcases List.prefix_concat_iff.mp hpart with heq | hshort
  · exact heq
  · have hlast : last ∈ met := List.count_pos_iff.mp (by omega)
    have hnodup' := hnodup.sublist hshort.sublist
    exact absurd hlast (by simpa using (List.nodup_append.mp hnodup').2.2 last)

theorem Closes.unique (hunique : Relator.RightUnique leads) {start : String} {names names' : List String}
    (h : Closes leads start names) (h' : Closes leads start names') : names = names' := by
  have hhead : names.head? = names'.head? := h.head.trans h'.head.symm
  rcases prefix_or_prefix_of_isChain hunique hhead h.chain h'.chain with hpart | hpart
  · exact h.eq_of_part h' hpart
  · exact (h'.eq_of_part h hpart).symm

end Closes

theorem FormComplaint.unique {declaration : Declaration}
    (h : FormComplaint name declaration message) (h' : FormComplaint name declaration message') :
    message = message' := by
  cases h with
  | name hname =>
    cases h' with
    | name hname' => exact hname.unique hname'
    | selector hisName => exact absurd hisName hname.not_isName
  | selector hisName hsplit hbefore htext =>
    cases h' with
    | name hname' => exact absurd hisName hname'.not_isName
    | selector _ hsplit' hbefore' htext' =>
      obtain rfl := eq_of_first_bad (hsplit.symm.trans hsplit') hbefore htext.not_isSelector hbefore'
        htext'.not_isSelector
      rw [htext.unique htext']

theorem BaseComplaint.unique (h : BaseComplaint declarations name message)
    (h' : BaseComplaint declarations name message') : message = message' := by
  cases h with
  | itself hself =>
    cases h' with
    | itself => rfl
    | unknown hbase hne => exact absurd (rightUnique_extends hbase hself) hne
  | unknown hbase hne =>
    cases h' with
    | itself hself => exact absurd (rightUnique_extends hbase hself) hne
    | unknown hbase' => rw [rightUnique_extends hbase hbase']

/-- There are no two complaints about the same declarations. -/
theorem Complaint.unique (h : Complaint declarations message) (h' : Complaint declarations message') :
    message = message' := by
  cases h with
  | form hleast hfind hform =>
    cases h' with
    | form hleast' hfind' hform' =>
      obtain rfl := hleast.unique hleast'
      obtain rfl := Option.some.inj (hfind.symm.trans hfind')
      exact hform.unique hform'
    | base hnone | cyclic hnone => exact absurd hleast.1 (hnone _)
  | base hnone hleast hbase =>
    cases h' with
    | form hleast' => exact absurd hleast'.1 (hnone _)
    | base _ hleast' hbase' =>
      obtain rfl := hleast.unique hleast'
      exact hbase.unique hbase'
    | cyclic _ hnone' => exact absurd hleast.1 (hnone' _)
  | cyclic hnone hnone' hleast hcloses =>
    cases h' with
    | form hleast' => exact absurd hleast'.1 (hnone _)
    | base _ hleast' => exact absurd hleast'.1 (hnone' _)
    | cyclic _ _ hleast' hcloses' =>
      obtain rfl := hleast.unique hleast'
      rw [hcloses.unique rightUnique_extends hcloses']

theorem Complaint.not_acceptable (h : Complaint declarations message) : ¬ Acceptable declarations := by
  intro hacceptable
  cases h with
  | form hleast =>
    obtain ⟨declaration, hfind, hname | ⟨text, htext, hselector⟩⟩ := hleast.1
    · exact hname (hacceptable.name _ _ hfind)
    · exact hselector (hacceptable.selector _ _ hfind text htext)
  | base _ hleast => exact not_misbased_iff.mpr (hacceptable.base _) hleast.1
  | cyclic _ _ hleast => exact forall_not_circles_iff.mpr hacceptable.acyclic _ hleast.1

/-! ## The least name -/

/-- Of items in the order of the declared names, the first whose name has a property has the least name that
has it. -/
theorem isLeast_of_first {α : Type} {nameOf : α → String} {items passed rest : List α} {item : α}
    {property : String → Prop} (hnames : items.map nameOf = declarations.names)
    (hsplit : items = passed ++ item :: rest)
    (hdeclared : ∀ name, property name → (declarations.find? name).isSome)
    (hpassed : ∀ other ∈ passed, ¬ property (nameOf other)) (hitem : property (nameOf item)) :
    IsLeast {name | property name} (nameOf item) := by
  have hincreasing := declarations.names_pairwise_lt
  rw [← hnames, hsplit, List.map_append, List.map_cons] at hincreasing
  obtain ⟨-, hrest, -⟩ := List.pairwise_append.mp hincreasing
  refine ⟨hitem, fun name hname ↦ ?_⟩
  have hmem : name ∈ items.map nameOf :=
    hnames ▸ (declarations.mem_names_iff name).mpr (Option.isSome_iff_exists.mp (hdeclared name hname))
  rw [hsplit, List.map_append, List.map_cons] at hmem
  rcases List.mem_append.mp hmem with hbefore | hbeyond
  · obtain ⟨other, hother, rfl⟩ := List.mem_map.mp hbefore
    exact absurd hname (hpassed other hother)
  · rcases List.mem_cons.mp hbeyond with rfl | hafter
    · exact le_refl _
    · exact le_of_lt ((List.pairwise_cons.mp hrest).1 name hafter)

/-! ## Names and selectors -/

variable {violation : Violation}

theorem not_malformed_iff {declaration : Declaration}
    (hfind : declarations.find? name = some declaration) :
    ¬ Malformed declarations name ↔ ∃ block, Block.ofDeclaration name declaration = .ok block := by
  rw [exists_ofDeclaration_iff (name, declaration)]
  simp [Malformed, hfind]

theorem complaint_of_ofDeclaration {declaration : Declaration}
    (h : Block.ofDeclaration name declaration = .error violation) :
    FormComplaint name declaration violation.message := by
  unfold Block.ofDeclaration at h
  rcases bind_eq_error_iff.mp h with hname | ⟨⟨⟩, hname, h⟩
  · obtain ⟨cause, hcause, rfl⟩ := mapError_eq_error_iff.mp hname
    exact .name (complaint_of_checkName hcause)
  · have hisName := (checkName_eq_ok_iff ..).mp (mapError_eq_ok_iff.mp hname)
    rcases bind_eq_error_iff.mp h with hselectors | ⟨_, _, hdone⟩
    · obtain ⟨before, text, after, hsplit, hbefore, htext⟩ := exists_of_mapM_eq_error hselectors
      obtain ⟨cause, hcause, rfl⟩ := mapError_eq_error_iff.mp htext
      refine .selector hisName hsplit (fun other hother ↦ ?_) (complaint_of_ofText hcause)
      obtain ⟨selector, hselector⟩ := hbefore other hother
      exact (Selector.exists_ofText_iff other).mp ⟨selector, mapError_eq_ok_iff.mp hselector⟩
    · exact nomatch hdone

/-- The first declaration that is turned down is that of the least malformed block. -/
theorem complaint_of_blocks
    (h : (declarations.toList.mapM fun entry ↦ Block.ofDeclaration entry.1 entry.2) = .error violation) :
    Complaint declarations violation.message := by
  obtain ⟨passed, entry, rest, hsplit, hpassed, hentry⟩ := exists_of_mapM_eq_error h
  have hfind : ∀ other ∈ passed ++ entry :: rest, declarations.find? other.1 = some other.2 :=
    fun other hother ↦ (declarations.find?_eq_some_iff other.1 other.2).mpr (hsplit ▸ hother)
  obtain ⟨hfindPassed, hfindEntry, -⟩ :=
    (List.forall_mem_append.trans (and_congr_right' List.forall_mem_cons)).mp hfind
  refine .form (isLeast_of_first rfl hsplit ?_ ?_ ?_) hfindEntry (complaint_of_ofDeclaration hentry)
  · exact fun _ ↦ Malformed.isSome_find?
  · intro other hother
    exact (not_malformed_iff (hfindPassed other hother)).mpr (hpassed other hother)
  · by_contra hnot
    obtain ⟨block, hblock⟩ := (not_malformed_iff hfindEntry).mp hnot
    exact nomatch hentry.symm.trans hblock

/-! ## Bases and cycles -/

namespace Lists

variable {blueprint : Blueprint} (h : blueprint.Lists declarations)
include h

theorem not_malformed (name : String) : ¬ Malformed declarations name := by
  cases hfind : declarations.find? name with
  | none => simp [Malformed, hfind]
  | some declaration =>
    obtain ⟨block, _, _, hrealizes⟩ := h.get?_some name declaration hfind
    have hblock := (ofDeclaration_eq_ok_iff (name, declaration) block).mpr hrealizes
    exact (not_malformed_iff hfind).mpr ⟨block, hblock⟩

/-- A check of all blocks that fails just at those with some fault fails at the least of them. -/
theorem exists_least_of_forM_eq_error {check : Block → Except Violation Unit} {fault : String → Prop}
    (hdeclared : ∀ name, fault name → (declarations.find? name).isSome)
    (hcheck : ∀ block ∈ blueprint.blocks, check block = .ok () ↔ ¬ fault block.name)
    (hfails : blueprint.blocks.forM check = .error violation) :
    ∃ block ∈ blueprint.blocks, check block = .error violation ∧ IsLeast {name | fault name} block.name := by
  obtain ⟨passed, block, rest, hsplit, hpassed, hblock⟩ := exists_of_forM_eq_error hfails
  rw [hsplit, List.forall_mem_append, List.forall_mem_cons] at hcheck
  obtain ⟨hcheckPassed, hcheckBlock, -⟩ := hcheck
  refine ⟨block, hsplit ▸ List.mem_append_right _ List.mem_cons_self, hblock, ?_⟩
  apply isLeast_of_first h.names_eq hsplit hdeclared
  · intro other hother
    exact (hcheckPassed other hother).mp (hpassed other hother)
  · by_contra hnot
    exact nomatch hblock.symm.trans (hcheckBlock.mpr hnot)

theorem complaint_of_bases (hfails : blueprint.blocks.forM blueprint.checkBase = .error violation) :
    Complaint declarations violation.message := by
  obtain ⟨block, hmem, hblock, hleast⟩ := h.exists_least_of_forM_eq_error
    (fun _ ↦ Misbased.isSome_find?) (fun _ ↦ h.checkBase_eq_ok_iff_not_misbased) hfails
  unfold checkBase at hblock
  cases hbase : block.base with
  | none => simp [hbase] at hblock
  | some base =>
    have hextends := (h.extends_iff hmem base).mpr hbase
    simp only [hbase] at hblock
    split at hblock
    next hself =>
      obtain rfl := Except.error.inj hblock
      exact .base h.not_malformed hleast (.itself (hself ▸ hextends))
    next hother =>
      split at hblock
      next hnone =>
        obtain rfl := Except.error.inj hblock
        have hunknown : declarations.find? base = none := by
          rw [← Option.not_isSome_iff_eq_none, ← h.isSome_get?_iff]
          simpa using hnone
        exact .base h.not_malformed hleast (.unknown hextends hother hunknown)
      next => exact nomatch hblock

/-- What repeats from the least block that leads to a cycle is a way into that cycle and round it. -/
theorem complaint_of_cycles (hbases : ∀ block ∈ blueprint.blocks, blueprint.checkBase block = .ok ())
    (hfails : blueprint.blocks.forM blueprint.checkAcyclic = .error violation) :
    Complaint declarations violation.message := by
  obtain ⟨block, _, hblock, hleast⟩ := h.exists_least_of_forM_eq_error
    (fun _ ↦ Circles.isSome_find?) (fun block _ ↦ h.checkAcyclic_eq_ok_iff_not_circles block) hfails
  unfold checkAcyclic at hblock
  cases hnames : blueprint.cycle? block.name with
  | none => simp [hnames] at hblock
  | some names =>
    simp only [hnames] at hblock
    obtain rfl := Except.error.inj hblock
    exact .cyclic h.not_malformed (h.forall_checkBase_iff.mp hbases) hleast (h.leads_eq ▸ closes_of_cycle? hnames)

end Lists

/-! ## What is reported -/

theorem complaint_of_ofDeclarations (h : ofDeclarations declarations = .error violation) :
    Complaint declarations violation.message := by
  unfold ofDeclarations at h
  rcases bind_eq_error_iff.mp h with hblocks | ⟨blocks, hblocks, h⟩
  · exact complaint_of_blocks hblocks
  -- The later passes look at blocks, which list the declarations once all of these are well formed.
  have hlists : Lists ⟨blocks⟩ declarations := by
    simp only [mapM_eq_ok_iff, ofDeclaration_eq_ok_iff] at hblocks
    exact .of_forall₂ hblocks
  rcases bind_eq_error_iff.mp h with hbases | ⟨⟨⟩, hbases, h⟩
  · exact hlists.complaint_of_bases hbases
  rcases bind_eq_error_iff.mp h with hcycles | ⟨⟨⟩, _, hdone⟩
  · exact hlists.complaint_of_cycles (forM_eq_ok_iff.mp hbases) hcycles
  · exact nomatch hdone

/-- A complaint turns declarations down, and there is no other that they could be turned down with. -/
theorem complaint_iff (declarations : NameMap Declaration) (message : String) :
    Complaint declarations message ↔
      ∃ violation, ofDeclarations declarations = .error violation ∧ violation.message = message := by
  constructor
  · intro h
    cases hresult : ofDeclarations declarations with
    | ok blueprint =>
      have hacceptable := (exists_ofDeclarations_iff declarations).mp ⟨blueprint, hresult⟩
      exact absurd hacceptable h.not_acceptable
    | error violation => exact ⟨violation, rfl, (complaint_of_ofDeclarations hresult).unique h⟩
  · rintro ⟨violation, hresult, rfl⟩
    exact complaint_of_ofDeclarations hresult

/-- Declarations are turned down with the words of the one complaint about them, if there is one, and so is a
text that holds them. -/
theorem reports_first_violation :
    (∀ (declarations : NameMap Declaration) (message : String),
      (∃ violation, ofDeclarations declarations = .error violation ∧ violation.message = message) ↔
        Complaint declarations message) ∧
    ∀ text message, match declarationsOfText? text with
      | none => ofText text = .error .malformed
      | some declarations =>
        (∃ violation, ofText text = .error (.invalid violation) ∧ violation.message = message) ↔
          Complaint declarations message := by
  refine ⟨fun declarations message ↦ (complaint_iff declarations message).symm, fun text message ↦ ?_⟩
  unfold ofText
  cases declarationsOfText? text with
  | none => rfl
  | some declarations =>
    have hwords : ∀ violation, (ofDeclarations declarations).mapError ConfigError.invalid =
        .error (.invalid violation) ↔ ofDeclarations declarations = .error violation := by
      intro violation
      rw [mapError_eq_error_iff]
      simp
    simp only [hwords]
    exact (complaint_iff declarations message).symm

/-- Blocks of which the first extends one of the others, and these extend one another. -/
def alertOnCycle : NameMap Declaration :=
  [("note", ⟨some "card", ["body"]⟩), ("card", ⟨some "note", []⟩), ("alert", ⟨some "card", []⟩)].foldl
    (fun declarations entry ↦ declarations.insert entry.1 entry.2) .empty

/-- The alert is on no cycle and is complained of all the same.  A block that extends itself goes unmentioned
where a selector is malformed. -/
theorem alertOnCycle_reports_first_violation :
    let text := "[blocks.alert]\nextends = \"alert\"\n[blocks.card]\nclasses = [\"body\", \"x:y:z\"]\n"
    Complaint alertOnCycle "cyclic extends: alert -> card -> note -> card" ∧
      ∃ declarations, declarationsOfText? text = some declarations ∧
        Complaint declarations
          "in block 'card': invalid state name 'y:z': contains invalid character ':'" := by
  intro text
  let cycle : Violation := .cyclic ["alert", "card", "note", "card"]
  let selector : Violation := .selector "card" ⟨.state, "y:z", .badCharacter ':'⟩
  have hcycle : ofDeclarations alertOnCycle = .error cycle ∧
      cycle.message = "cyclic extends: alert -> card -> note -> card" := by decide +kernel
  have hselector : ofText text = .error (.invalid selector) ∧ selector.message =
      "in block 'card': invalid state name 'y:z': contains invalid character ':'" := by decide +kernel
  refine ⟨(reports_first_violation.1 alertOnCycle _).mp ⟨cycle, hcycle⟩, ?_⟩
  have hreports := reports_first_violation.2 text
  cases hdeclarations : declarationsOfText? text with
  | none =>
    simp only [hdeclarations] at hreports
    exact nomatch (hreports "").symm.trans hselector.1
  | some declarations =>
    simp only [hdeclarations] at hreports
    exact ⟨declarations, rfl, (hreports _).mp ⟨selector, hselector⟩⟩

end Lineage.Blueprint
