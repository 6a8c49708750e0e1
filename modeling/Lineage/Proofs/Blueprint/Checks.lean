import Mathlib.Data.List.Forall2

/-!
# Checks in sequence

When a check that consists of others succeeds: one after the other, one for each element of a list,
and with an error that is put in other words.  When it fails, it reports the first failure: those before it
in a list have succeeded (`exists_of_mapM_eq_error`).
-/

namespace Lineage.Blueprint

variable {ε ε' α β : Type}

theorem bind_eq_ok_iff {first : Except ε α} {next : α → Except ε β} {value : β} :
    first >>= next = .ok value ↔ ∃ between, first = .ok between ∧ next between = .ok value := by
  cases first <;> simp [bind, Except.bind]

theorem check_bind_eq_ok_iff {check : Except ε Unit} {next : Unit → Except ε β} {value : β} :
    check >>= next = .ok value ↔ check = .ok () ∧ next () = .ok value := by
  cases check <;> simp [bind, Except.bind]

theorem mapError_eq_ok_iff {check : Except ε α} {words : ε → ε'} {value : α} :
    check.mapError words = .ok value ↔ check = .ok value := by
  cases check <;> simp [Except.mapError]

/-- A list is accepted together with the results of its elements. -/
theorem mapM_eq_ok_iff {check : α → Except ε β} {items : List α} {values : List β} :
    items.mapM check = .ok values ↔
      List.Forall₂ (fun item value ↦ check item = .ok value) items values := by
  induction items generalizing values with
  | nil =>
    rw [List.mapM_nil, List.forall₂_nil_left_iff]
    exact ⟨fun h ↦ (Except.ok.inj h).symm, fun h ↦ congrArg Except.ok h.symm⟩
  | cons item items ih =>
    rw [List.mapM_cons]
    simp only [bind_eq_ok_iff, ih, List.forall₂_cons_left_iff]
    constructor
    · rintro ⟨value, hvalue, rest, hrest, heq⟩
      exact ⟨value, rest, hvalue, hrest, (Except.ok.inj heq).symm⟩
    · rintro ⟨value, rest, hvalue, hrest, rfl⟩
      exact ⟨value, hvalue, rest, hrest, rfl⟩

theorem exists_mapM_eq_ok_iff {check : α → Except ε β} {items : List α} :
    (∃ values, items.mapM check = .ok values) ↔ ∀ item ∈ items, ∃ value, check item = .ok value := by
  simp only [mapM_eq_ok_iff]
  induction items with
  | nil => simp
  | cons item items ih =>
    rw [List.forall_mem_cons, ← ih]
    constructor
    · rintro ⟨values, hall⟩
      obtain ⟨value, rest, hvalue, hrest, rfl⟩ := List.forall₂_cons_left_iff.mp hall
      exact ⟨⟨value, hvalue⟩, rest, hrest⟩
    · rintro ⟨⟨value, hvalue⟩, rest, hrest⟩
      exact ⟨value :: rest, .cons hvalue hrest⟩

theorem forM_eq_ok_iff {check : α → Except ε Unit} {items : List α} :
    items.forM check = .ok () ↔ ∀ item ∈ items, check item = .ok () := by
  induction items with
  | nil => simp [pure, Except.pure]
  | cons item items ih =>
    change (check item >>= fun _ ↦ items.forM check) = .ok () ↔ _
    rw [check_bind_eq_ok_iff, List.forall_mem_cons, ih]

/-! ## Failures -/

theorem bind_eq_error_iff {first : Except ε α} {next : α → Except ε β} {error : ε} :
    first >>= next = .error error ↔
      first = .error error ∨ ∃ between, first = .ok between ∧ next between = .error error := by
  cases first <;> simp [bind, Except.bind]

theorem mapError_eq_error_iff {check : Except ε α} {words : ε → ε'} {error : ε'} :
    check.mapError words = .error error ↔ ∃ cause, check = .error cause ∧ words cause = error := by
  cases check <;> simp [Except.mapError]

/-- A list is turned down for the first of its elements that is. -/
theorem exists_of_mapM_eq_error {check : α → Except ε β} {items : List α} {error : ε}
    (h : items.mapM check = .error error) : ∃ passed item rest, items = passed ++ item :: rest ∧
      (∀ other ∈ passed, ∃ value, check other = .ok value) ∧ check item = .error error := by
  induction items with
  | nil => exact nomatch h
  | cons item items ih =>
    rw [List.mapM_cons] at h
    rcases bind_eq_error_iff.mp h with hitem | ⟨value, hvalue, h⟩
    · exact ⟨[], item, items, rfl, by simp, hitem⟩
    · rcases bind_eq_error_iff.mp h with hrest | ⟨_, _, h⟩
      · obtain ⟨passed, found, rest, rfl, hpassed, hfound⟩ := ih hrest
        exact ⟨item :: passed, found, rest, rfl, List.forall_mem_cons.mpr ⟨⟨value, hvalue⟩, hpassed⟩, hfound⟩
      · exact nomatch h

theorem exists_of_forM_eq_error {check : α → Except ε Unit} {items : List α} {error : ε}
    (h : items.forM check = .error error) : ∃ passed item rest, items = passed ++ item :: rest ∧
      (∀ other ∈ passed, check other = .ok ()) ∧ check item = .error error := by
  induction items with
  | nil => exact nomatch h
  | cons item items ih =>
    change (check item >>= fun _ ↦ items.forM check) = .error error at h
    rcases bind_eq_error_iff.mp h with hitem | ⟨_, hpass, hrest⟩
    · exact ⟨[], item, items, rfl, by simp, hitem⟩
    · obtain ⟨passed, found, rest, rfl, hpassed, hfound⟩ := ih hrest
      exact ⟨item :: passed, found, rest, rfl, List.forall_mem_cons.mpr ⟨hpass, hpassed⟩, hfound⟩

/-- A list has one first element that is not good. -/
theorem eq_of_first_bad {good : α → Prop} {before before' after after' : List α} {bad bad' : α}
    (h : before ++ bad :: after = before' ++ bad' :: after') (hbefore : ∀ item ∈ before, good item)
    (hbad : ¬ good bad) (hbefore' : ∀ item ∈ before', good item) (hbad' : ¬ good bad') : bad = bad' := by
  induction before generalizing before' with
  | nil =>
    cases before' with
    | nil => exact (List.cons.inj h).1
    | cons item' before' => exact absurd ((List.cons.inj h).1 ▸ hbefore' item' List.mem_cons_self) hbad
  | cons item before ih =>
    cases before' with
    | nil => exact absurd ((List.cons.inj h).1 ▸ hbefore item List.mem_cons_self) hbad'
    | cons item' before' =>
      have hrest := (List.forall_mem_cons.mp hbefore).2
      exact ih (List.cons.inj h).2 hrest (List.forall_mem_cons.mp hbefore').2

end Lineage.Blueprint
