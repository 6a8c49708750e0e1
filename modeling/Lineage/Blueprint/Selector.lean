import Lineage.Blueprint.Name

/-!
# Selectors

A selector names a class, or a state of a class.  Its text is the name of the class, followed in the
second case by a colon and the name of the state.
-/

namespace Lineage.Blueprint

structure Selector where
  className : String
  state : Option String
deriving DecidableEq

namespace Selector

def text (selector : Selector) : String :=
  match selector.state with
  | none => selector.className
  | some state => selector.className ++ ":" ++ state

/-- Split a text at its first colon, if it has one. -/
def split (text : String) : Selector :=
  match text.toList.span (· ≠ ':') with
  | (_, []) => ⟨text, none⟩
  | (className, _ :: state) => ⟨.ofList className, some (.ofList state)⟩

/-- The selector that a text stands for.  The class is looked at before the state. -/
def ofText (text : String) : Except NameViolation Selector := do
  let selector := split text
  checkName .styleClass selector.className
  if let some state := selector.state then
    checkName .state state
  return selector

end Selector

end Lineage.Blueprint
