import Lineage.Blueprint.Selector
import Lineage.NameMap

/-!
# Blueprints

A blueprint lists blocks with the selectors they have and the block that each extends.  It is made
from declarations that are known only to have distinct names, after three passes over them in name
order: every name and selector has to be well formed, every extended block has to be another one
that is declared, and no block may extend itself by way of others.  The first violation is the one
reported.
-/

namespace Lineage

namespace Blueprint

/-- A block as it is declared, before anything about it is checked. -/
structure Declaration where
  /-- The name of the block that this one extends. -/
  base : Option String
  /-- The texts of its selectors. -/
  selectors : List String
deriving DecidableEq

structure Block where
  name : String
  /-- The name of the block that this one extends. -/
  base : Option String
  /-- The selectors in the order of their declaration, repeats kept. -/
  selectors : List Selector
deriving DecidableEq

end Blueprint

/-- Blocks in name order. -/
structure Blueprint where
  blocks : List Blueprint.Block
deriving DecidableEq

namespace Blueprint

/-! ## Violations -/

inductive Violation where
  /-- The name of a block is malformed. -/
  | blockName (cause : NameViolation)
  /-- A selector of a block is malformed. -/
  | selector (block : String) (cause : NameViolation)
  | extendsItself (block : String)
  | extendsUnknown (block base : String)
  /-- Following extended blocks leads from the first name to the last, which stands before too. -/
  | cyclic (names : List String)
deriving DecidableEq

def Violation.message : Violation → String
  | blockName cause => cause.message
  | selector block cause => "in block '" ++ block ++ "': " ++ cause.message
  | extendsItself block => "block '" ++ block ++ "' extends itself"
  | extendsUnknown block base => "block '" ++ block ++ "' extends unknown block '" ++ base ++ "'"
  | cyclic names => "cyclic extends: " ++ " -> ".intercalate names

/-! ## Look-ups -/

/-- The block of a name. -/
def get? (blueprint : Blueprint) (name : String) : Option Block :=
  blueprint.blocks.find? (·.name = name)

/-- The name of the block that the block of a name extends. -/
def base? (blueprint : Blueprint) (name : String) : Option String := do
  (← blueprint.get? name).base

def size (blueprint : Blueprint) : Nat := blueprint.blocks.length

def isEmpty (blueprint : Blueprint) : Bool := blueprint.blocks.isEmpty

/-! ## Checks -/

/-- Check the names in a declaration: that of the block, then its selectors in order. -/
def Block.ofDeclaration (name : String) (declaration : Declaration) : Except Violation Block := do
  (checkName .block name).mapError .blockName
  let selectors ← declaration.selectors.mapM fun text ↦
    (Selector.ofText text).mapError (.selector name)
  return { name, base := declaration.base, selectors }

/-- Check that a block extends another declared block, if any. -/
def checkBase (blueprint : Blueprint) (block : Block) : Except Violation Unit :=
  match block.base with
  | none => .ok ()
  | some base =>
    if base = block.name then .error (.extendsItself block.name)
    else if (blueprint.get? base).isNone then .error (.extendsUnknown block.name base)
    else .ok ()

/-- Follow extended blocks from `name`, the last of the names met, which are given latest first.
The result is the way to the first name met twice, if that is at most `limit` steps away. -/
def cycleWithin (blueprint : Blueprint) :
    (limit : Nat) → (name : String) → (met : List String) → Option (List String)
  | 0, _, _ => none
  | limit + 1, name, met =>
    match blueprint.base? name with
    | none => none
    | some base =>
      if base ∈ met then some (base :: met).reverse
      else blueprint.cycleWithin limit base (base :: met)

/-- The way from a block to the first name met twice.  As long as no name repeats, no more names are
met than there are blocks. -/
def cycle? (blueprint : Blueprint) (name : String) : Option (List String) :=
  blueprint.cycleWithin blueprint.size name [name]

/-- Check that following extended blocks from a block comes to an end. -/
def checkAcyclic (blueprint : Blueprint) (block : Block) : Except Violation Unit :=
  match blueprint.cycle? block.name with
  | none => .ok ()
  | some names => .error (.cyclic names)

/-- The blueprint of the declared blocks, or the first violation. -/
def ofDeclarations (declarations : NameMap Declaration) : Except Violation Blueprint := do
  let blocks ← declarations.toList.mapM fun entry ↦ Block.ofDeclaration entry.1 entry.2
  let blueprint : Blueprint := ⟨blocks⟩
  blocks.forM blueprint.checkBase
  blocks.forM blueprint.checkAcyclic
  return blueprint

end Blueprint

end Lineage
