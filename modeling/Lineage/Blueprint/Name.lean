import Lineage.Unicode.Numeric

/-!
# Names in a blueprint

The name of a block, class or state starts with an alphabetic character or an underscore and goes
on with alphanumeric characters, underscores and hyphens.  `nameFault?` gives the first reason why a
text is no name.
-/

namespace Lineage.Blueprint

def isNameStart (c : Char) : Bool := Unicode.isAlphabetic c || c = '_'

def isNamePart (c : Char) : Bool := Unicode.isAlphanumeric c || c = '_' || c = '-'

/-- What a name stands for. -/
inductive Role where
  | block
  | styleClass
  | state
deriving DecidableEq

def Role.text : Role → String
  | block => "block"
  | styleClass => "class"
  | state => "state"

/-- Why a text is no name. -/
inductive NameFault where
  | empty
  | badStart
  /-- The first character that no name has after its first. -/
  | badCharacter (c : Char)
deriving DecidableEq

/-- The first reason why a text is no name. -/
def nameFault? (name : String) : Option NameFault :=
  match name.toList with
  | [] => some .empty
  | first :: rest =>
    if isNameStart first then (rest.find? (!isNamePart ·)).map .badCharacter else some .badStart

/-- A text that is no name where one is expected. -/
structure NameViolation where
  role : Role
  name : String
  fault : NameFault
deriving DecidableEq

def NameViolation.message (violation : NameViolation) : String :=
  let role := violation.role.text
  let invalid := "invalid " ++ role ++ " name '" ++ violation.name ++ "': "
  match violation.fault with
  | .empty => "empty " ++ role ++ " name"
  | .badStart => invalid ++ "must start with letter or underscore"
  | .badCharacter c => invalid ++ "contains invalid character '" ++ c.toString ++ "'"

/-- Accept a text as the name of something. -/
def checkName (role : Role) (name : String) : Except NameViolation Unit :=
  match nameFault? name with
  | none => .ok ()
  | some fault => .error ⟨role, name, fault⟩

end Lineage.Blueprint
