import Lineage.Blueprint.Selector
import Lineage.Proofs.Blueprint.Checks
import Mathlib.Data.List.TakeDrop
import Mathlib.Data.List.TakeWhile

/-!
# The grammar of names and selectors

`IsName` says what a name is without saying how a text is checked, and `Selector.WellNamed` what a
selector consists of.  The checks accept just these (`checkName_eq_ok_iff`,
`Selector.ofText_eq_ok_iff`).  No name holds a colon or a dot, so the text of a selector has one
reading only, and dotted paths of names can be taken apart.
-/

namespace Lineage.Blueprint

/-! ## Names -/

/-- A text that starts with an alphabetic character or an underscore and goes on with alphanumeric
characters, underscores and hyphens. -/
def IsName (name : String) : Prop :=
  ∃ first rest, name.toList = first :: rest ∧ (Unicode.isAlphabetic first ∨ first = '_') ∧
    ∀ c ∈ rest, Unicode.isAlphanumeric c ∨ c = '_' ∨ c = '-'

theorem isNameStart_iff (c : Char) : isNameStart c ↔ Unicode.isAlphabetic c ∨ c = '_' := by
  simp [isNameStart]

theorem isNamePart_iff (c : Char) : isNamePart c ↔ Unicode.isAlphanumeric c ∨ c = '_' ∨ c = '-' := by
  simp [isNamePart, or_assoc]

theorem nameFault?_eq_none_iff (name : String) : nameFault? name = none ↔ IsName name := by
  unfold nameFault? IsName
  cases name.toList with
  | nil => simp
  | cons first rest =>
    simp only [List.cons.injEq, ← isNameStart_iff, ← isNamePart_iff]
    by_cases hfirst : isNameStart first
    · simp [hfirst, List.find?_eq_none]
    · simp [hfirst]

theorem checkName_eq_ok_iff (role : Role) (name : String) : checkName role name = .ok () ↔ IsName name := by
  rw [← nameFault?_eq_none_iff]
  unfold checkName
  cases nameFault? name <;> simp

namespace IsName

variable {name : String} (h : IsName name)
include h

theorem not_mem {c : Char} (hstart : isNameStart c = false) (hpart : isNamePart c = false) :
    c ∉ name.toList := by
  obtain ⟨first, rest, heq, hfirst, hrest⟩ := h
  rw [heq]
  intro hmem
  rcases List.mem_cons.mp hmem with rfl | hmem
  · exact Bool.false_ne_true (hstart.symm.trans ((isNameStart_iff c).mpr hfirst))
  · exact Bool.false_ne_true (hpart.symm.trans ((isNamePart_iff c).mpr (hrest c hmem)))

theorem colon_not_mem : ':' ∉ name.toList := h.not_mem (by decide +kernel) (by decide +kernel)

theorem dot_not_mem : '.' ∉ name.toList := h.not_mem (by decide +kernel) (by decide +kernel)

end IsName

/-! ## Selectors -/

namespace Selector

/-- A selector whose parts are names. -/
structure WellNamed (selector : Selector) : Prop where
  className : IsName selector.className
  state : ∀ state ∈ selector.state, IsName state

theorem text_split (text : String) : (split text).text = text := by
  unfold split
  rw [List.span_eq_takeWhile_dropWhile]
  cases hrest : text.toList.dropWhile (· ≠ ':') with
  | nil => rfl
  | cons c state =>
    have hcolon := List.head?_dropWhile_not (· ≠ ':') text.toList
    rw [hrest] at hcolon
    obtain rfl : c = ':' := by simpa using hcolon
    have hparts := List.takeWhile_append_dropWhile (p := (· ≠ ':')) (l := text.toList)
    rw [hrest] at hparts
    apply String.toList_injective
    simpa [Selector.text, String.toList_append] using hparts

/-- The first colon of the text of a selector is the one after its class. -/
theorem split_text {selector : Selector} (h : ':' ∉ selector.className.toList) :
    split selector.text = selector := by
  obtain ⟨className, state⟩ := selector
  have hclass : ∀ c ∈ className.toList, decide (c ≠ ':') = true := by
    intro c hc
    exact decide_eq_true fun heq ↦ h (heq ▸ hc)
  unfold split
  rw [List.span_eq_takeWhile_dropWhile]
  cases state with
  | none =>
    have hall : className.toList.dropWhile (· ≠ ':') = [] := List.dropWhile_eq_nil_iff.mpr hclass
    simp only [Selector.text, hall]
  | some state =>
    have htext : (Selector.text ⟨className, some state⟩).toList = className.toList ++ ':' :: state.toList := by
      simp [Selector.text, String.toList_append]
    rw [htext, List.takeWhile_append_of_pos hclass, List.dropWhile_append_of_pos hclass]
    simp

theorem ofText_eq_ok_iff_split (text : String) (selector : Selector) :
    ofText text = .ok selector ↔ (split text).WellNamed ∧ split text = selector := by
  have hcheck : ofText text = .ok selector ↔ checkName .styleClass (split text).className = .ok () ∧
      (∀ state ∈ (split text).state, checkName .state state = .ok ()) ∧ split text = selector := by
    unfold ofText
    rw [check_bind_eq_ok_iff]
    cases (split text).state <;> simp [check_bind_eq_ok_iff, pure, Except.pure]
  simp only [hcheck, checkName_eq_ok_iff]
  exact ⟨fun ⟨hclass, hstate, heq⟩ ↦ ⟨⟨hclass, hstate⟩, heq⟩, fun ⟨hnamed, heq⟩ ↦
    ⟨hnamed.className, hnamed.state, heq⟩⟩

/-- A text is accepted as the selector whose text it is, provided that its parts are names. -/
theorem ofText_eq_ok_iff (text : String) (selector : Selector) :
    ofText text = .ok selector ↔ selector.WellNamed ∧ selector.text = text := by
  rw [ofText_eq_ok_iff_split]
  constructor
  · rintro ⟨hnamed, rfl⟩
    exact ⟨hnamed, text_split text⟩
  · rintro ⟨hnamed, rfl⟩
    rw [split_text hnamed.className.colon_not_mem]
    exact ⟨hnamed, rfl⟩

end Selector

end Lineage.Blueprint
