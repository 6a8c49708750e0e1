import Lineage.Proofs.Blueprint.Acceptance

/-!
# Selectors and their texts

Reading a text as a selector and writing a selector as a text undo one another, and just the texts of
selectors are read (`Selector.ofText_inverts_text`).

A text that is not read has something said about it.  `NameComplaint` and `SelectorComplaint` give the words
in terms of the text alone: of the parts of a selector the class comes first, and of a name the first
character that it may not have.
-/

namespace Lineage.Blueprint

/-! ## What is read -/

namespace Selector

/-- The text of a selector has a colon only if it names a state, and then no other. -/
theorem WellNamed.count_colon_le {selector : Selector} (h : selector.WellNamed) :
    selector.text.toList.count ':' ≤ 1 := by
  obtain ⟨className, state⟩ := selector
  have hclass : className.toList.count ':' = 0 := List.count_eq_zero.mpr h.className.colon_not_mem
  cases state with
  | none => exact Nat.le_trans (Nat.le_of_eq hclass) (Nat.zero_le 1)
  | some state =>
    have hstate : state.toList.count ':' = 0 := List.count_eq_zero.mpr (h.state state rfl).colon_not_mem
    simp [Selector.text, String.toList_append, hclass, hstate]

theorem exists_ofText_iff (text : String) : (∃ selector, ofText text = .ok selector) ↔ IsSelector text := by
  rw [isSelector_iff]
  exact exists_congr fun selector ↦ ofText_eq_ok_iff text selector

/-- A text is read just if it is a name or two names with a colon between them.  What is read writes as that
text, no part of it holds a dot or a colon, and what has names for its parts is read from its text.  So a
second colon is never read, and what two texts are read as is not the same. -/
theorem ofText_inverts_text :
    (∀ text, (∃ selector, ofText text = .ok selector) ↔ IsSelector text) ∧
    (∀ text selector, ofText text = .ok selector → selector.text = text ∧
      ∀ part, part = selector.className ∨ selector.state = some part →
        '.' ∉ part.toList ∧ ':' ∉ part.toList) ∧
    (∀ selector : Selector, IsName selector.className → (∀ state ∈ selector.state, IsName state) →
      ofText selector.text = .ok selector) ∧
    (∀ text, 1 < text.toList.count ':' → ∃ violation, ofText text = .error violation) ∧
    ∀ first second selector, ofText first = .ok selector → ofText second = .ok selector →
      first = second := by
  refine ⟨exists_ofText_iff, ?_, ?_, ?_, ?_⟩
  · intro text selector hread
    obtain ⟨hnamed, rfl⟩ := (ofText_eq_ok_iff text selector).mp hread
    refine ⟨rfl, ?_⟩
    rintro part (rfl | hpart)
    · exact ⟨hnamed.className.dot_not_mem, hnamed.className.colon_not_mem⟩
    · exact ⟨(hnamed.state part hpart).dot_not_mem, (hnamed.state part hpart).colon_not_mem⟩
  · intro selector hclass hstate
    exact (ofText_eq_ok_iff _ selector).mpr ⟨⟨hclass, hstate⟩, rfl⟩
  · intro text hcount
    cases hread : ofText text with
    | error violation => exact ⟨violation, rfl⟩
    | ok selector =>
      obtain ⟨hnamed, rfl⟩ := (ofText_eq_ok_iff text selector).mp hread
      exact absurd hnamed.count_colon_le (Nat.not_le_of_lt hcount)
  · intro first second selector hfirst hsecond
    calc
      first = selector.text := ((ofText_eq_ok_iff first selector).mp hfirst).2.symm
      _ = second := ((ofText_eq_ok_iff second selector).mp hsecond).2

/-- Letters of any script will do, and a hyphen or a digit after the first character. -/
theorem ofText_inverts_text_of_state :
    ofText "größe:aktiv-1" = .ok ⟨"größe", some "aktiv-1"⟩ ∧
      Selector.text ⟨"größe", some "aktiv-1"⟩ = "größe:aktiv-1" ∧
      ofText (Selector.text ⟨"größe", some "aktiv-1"⟩) = .ok ⟨"größe", some "aktiv-1"⟩ ∧
      1 < "btn:hover:focus".toList.count ':' ∧ ∃ violation, ofText "btn:hover:focus" = .error violation := by
  have hread : ofText "größe:aktiv-1" = .ok ⟨"größe", some "aktiv-1"⟩ := by decide +kernel
  have hclass : IsName "größe" := (checkName_eq_ok_iff .styleClass _).mp (by decide +kernel)
  have hstate : IsName "aktiv-1" := (checkName_eq_ok_iff .state _).mp (by decide +kernel)
  have hcount : 1 < "btn:hover:focus".toList.count ':' := by decide +kernel
  obtain ⟨_, hwrites, hreads, hrejects, _⟩ := ofText_inverts_text
  refine ⟨hread, (hwrites _ _ hread).1, hreads _ hclass ?_, hcount, hrejects _ hcount⟩
  simpa using hstate

end Selector

/-! ## What is said of other texts -/

/-- What is said of a text that is no name where one is expected. -/
inductive NameComplaint (what name : String) : String → Prop
  | empty : name = "" → NameComplaint what name ("empty " ++ what ++ " name")
  | badStart {first : Char} {rest : List Char} : name.toList = first :: rest →
      ¬ (Unicode.isAlphabetic first ∨ first = '_') →
      NameComplaint what name
        ("invalid " ++ what ++ " name '" ++ name ++ "': " ++ "must start with letter or underscore")
  | badCharacter {first c : Char} {before after : List Char} : name.toList = first :: (before ++ c :: after) →
      (Unicode.isAlphabetic first ∨ first = '_') →
      (∀ other ∈ before, Unicode.isAlphanumeric other ∨ other = '_' ∨ other = '-') →
      ¬ (Unicode.isAlphanumeric c ∨ c = '_' ∨ c = '-') →
      NameComplaint what name
        ("invalid " ++ what ++ " name '" ++ name ++ "': " ++ "contains invalid character '" ++ c.toString ++ "'")

/-- What is said of a text that is no selector. -/
inductive SelectorComplaint (text : String) : String → Prop
  | styleClass {selector : Selector} {message : String} : selector.text = text →
      ':' ∉ selector.className.toList → NameComplaint "class" selector.className message →
      SelectorComplaint text message
  | state {selector : Selector} {state message : String} : selector.text = text →
      selector.state = some state → IsName selector.className → NameComplaint "state" state message →
      SelectorComplaint text message

namespace NameComplaint

variable {what name message message' : String} (h : NameComplaint what name message)
include h

theorem not_isName : ¬ IsName name := by
  rintro ⟨first, rest, hname, hfirst, hrest⟩
  cases h with
  | empty hempty => simp [hempty] at hname
  | badStart hname' hnot =>
    obtain ⟨rfl, -⟩ := List.cons.inj (hname.symm.trans hname')
    exact hnot hfirst
  | @badCharacter _ c before after hname' _ _ hnot =>
    obtain ⟨-, rfl⟩ := List.cons.inj (hname.symm.trans hname')
    exact hnot (hrest c (List.mem_append_right before List.mem_cons_self))

theorem unique (h' : NameComplaint what name message') : message = message' := by
  cases h with
  | empty hempty =>
    cases h' with
    | empty => rfl
    | badStart hname => simp [hempty] at hname
    | badCharacter hname => simp [hempty] at hname
  | badStart hname hnot =>
    cases h' with
    | empty hempty => simp [hempty] at hname
    | badStart => rfl
    | badCharacter hname' hstart =>
      obtain ⟨rfl, -⟩ := List.cons.inj (hname.symm.trans hname')
      exact absurd hstart hnot
  | badCharacter hname hstart hbefore hbad =>
    cases h' with
    | empty hempty => simp [hempty] at hname
    | badStart hname' hnot =>
      obtain ⟨rfl, -⟩ := List.cons.inj (hname.symm.trans hname')
      exact absurd hstart hnot
    | badCharacter hname' _ hbefore' hbad' =>
      have hrest := (List.cons.inj (hname.symm.trans hname')).2
      rw [eq_of_first_bad hrest hbefore hbad hbefore' hbad']

end NameComplaint

/-- Two selectors with one text are the same, if the text has no colon in their classes. -/
theorem Selector.eq_of_text_eq {first second : Selector} (hfirst : ':' ∉ first.className.toList)
    (hsecond : ':' ∉ second.className.toList) (htext : first.text = second.text) : first = second := by
  calc
    first = split first.text := (split_text hfirst).symm
    _ = split second.text := congrArg split htext
    _ = second := split_text hsecond

namespace SelectorComplaint

variable {text message message' : String} (h : SelectorComplaint text message)
include h

theorem not_isSelector : ¬ IsSelector text := by
  intro hselector
  obtain ⟨named, hnamed, htext⟩ := (isSelector_iff text).mp hselector
  cases h with
  | styleClass htext' hcolon hname =>
    obtain rfl := Selector.eq_of_text_eq hcolon hnamed.className.colon_not_mem (htext'.trans htext.symm)
    exact hname.not_isName hnamed.className
  | @state _ state _ htext' hstate hclass hname =>
    obtain rfl :=
      Selector.eq_of_text_eq hclass.colon_not_mem hnamed.className.colon_not_mem (htext'.trans htext.symm)
    exact hname.not_isName (hnamed.state state hstate)

theorem unique (h' : SelectorComplaint text message') : message = message' := by
  cases h with
  | styleClass htext hcolon hname =>
    cases h' with
    | styleClass htext' hcolon' hname' =>
      obtain rfl := Selector.eq_of_text_eq hcolon hcolon' (htext.trans htext'.symm)
      exact hname.unique hname'
    | state htext' _ hclass' =>
      obtain rfl := Selector.eq_of_text_eq hcolon hclass'.colon_not_mem (htext.trans htext'.symm)
      exact absurd hclass' hname.not_isName
  | state htext hstate hclass hname =>
    cases h' with
    | styleClass htext' hcolon' hname' =>
      obtain rfl := Selector.eq_of_text_eq hclass.colon_not_mem hcolon' (htext.trans htext'.symm)
      exact absurd hclass hname'.not_isName
    | state htext' hstate' hclass' hname' =>
      obtain rfl :=
        Selector.eq_of_text_eq hclass.colon_not_mem hclass'.colon_not_mem (htext.trans htext'.symm)
      obtain rfl := Option.some.inj (hstate.symm.trans hstate')
      exact hname.unique hname'

end SelectorComplaint

theorem complaint_of_checkName {role : Role} {name : String} {violation : NameViolation}
    (h : checkName role name = .error violation) : NameComplaint role.text name violation.message := by
  unfold checkName at h
  cases hfault : nameFault? name with
  | none => simp [hfault] at h
  | some fault =>
    simp only [hfault] at h
    obtain rfl := Except.error.inj h
    unfold nameFault? at hfault
    cases hname : name.toList with
    | nil =>
      simp only [hname] at hfault
      obtain rfl := Option.some.inj hfault
      exact .empty (String.toList_injective hname)
    | cons first rest =>
      simp only [hname] at hfault
      split at hfault
      next hstart =>
        obtain ⟨c, hfind, rfl⟩ := Option.map_eq_some_iff.mp hfault
        obtain ⟨hc, before, after, rfl, hbefore⟩ := List.find?_eq_some_iff_append.mp hfind
        refine .badCharacter hname ((isNameStart_iff first).mp hstart) (fun other hother ↦ ?_) ?_
        · exact (isNamePart_iff other).mp (by simpa using hbefore other hother)
        · exact (isNamePart_iff c).not.mp (by simpa using hc)
      next hstart =>
        obtain rfl := Option.some.inj hfault
        exact .badStart hname ((isNameStart_iff first).not.mp hstart)

theorem Selector.colon_not_mem_split (text : String) : ':' ∉ (split text).className.toList := by
  intro hmem
  unfold split at hmem
  rw [List.span_eq_takeWhile_dropWhile] at hmem
  cases hrest : text.toList.dropWhile (· ≠ ':') with
  | nil =>
    simp only [hrest] at hmem
    simpa using List.dropWhile_eq_nil_iff.mp hrest ':' hmem
  | cons c state =>
    simp only [hrest, String.toList_ofList] at hmem
    simpa using List.mem_takeWhile_imp hmem

theorem complaint_of_ofText {text : String} {violation : NameViolation}
    (h : Selector.ofText text = .error violation) : SelectorComplaint text violation.message := by
  unfold Selector.ofText at h
  have htext := Selector.text_split text
  rcases bind_eq_error_iff.mp h with hclass | ⟨⟨⟩, hclass, hrest⟩
  · exact .styleClass htext (Selector.colon_not_mem_split text) (complaint_of_checkName hclass)
  · cases hstate : (Selector.split text).state with
    | none => simp [hstate, pure, Except.pure] at hrest
    | some state =>
      simp only [hstate] at hrest
      rcases bind_eq_error_iff.mp hrest with hcheck | ⟨_, _, hdone⟩
      · exact .state htext hstate ((checkName_eq_ok_iff ..).mp hclass) (complaint_of_checkName hcheck)
      · exact nomatch hdone

end Lineage.Blueprint
