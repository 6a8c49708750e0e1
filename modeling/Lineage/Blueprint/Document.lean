import Lineage.Blueprint.Basic
import Lineage.Toml.Document

/-!
# Blueprints from documents

A configuration is a document whose table `blocks`, if there is one, holds a declaration for each
block.  A declaration is a table with the keys `extends`, a text, and `classes`, an array of texts,
both optional; or an array of the two values in this order, of which the first is required and what
comes after them is ignored.  Keys beside `blocks` are ignored.
-/

namespace Lineage

namespace Blueprint

open Toml (Value Entries)

/-! ## Shape -/

def text? : Value → Option String
  | .text text => some text
  | _ => none

def texts? : Value → Option (List String)
  | .array elements => elements.mapM text?
  | _ => none

/-- The declaration that a value describes. -/
def Declaration.ofValue? : Value → Option Declaration
  | .table _ entries => do
    if entries.all fun entry ↦ entry.1 = "extends" || entry.1 = "classes" then
      let base ← (entries.lookup "extends").mapM text?
      let selectors ← (entries.lookup "classes").mapM texts?
      return ⟨base, selectors.getD []⟩
    else none
  | .array (base :: rest) => do
    let base ← text? base
    let selectors ← rest.head?.mapM texts?
    return ⟨some base, selectors.getD []⟩
  | _ => none

/-- The declarations in the outermost table of a document, by name. -/
def declarations? (entries : Entries) : Option (NameMap Declaration) :=
  match entries.lookup "blocks" with
  | none => some .empty
  | some (.table _ blocks) =>
    blocks.foldlM (fun declarations entry ↦ do
      return declarations.insert entry.1 (← Declaration.ofValue? entry.2)) .empty
  | some _ => none

/-! ## Reading -/

/-- Why a configuration gives no blueprint. -/
inductive ConfigError where
  /-- There is no file, or it holds no text. -/
  | unreadable
  /-- The text is no document, or not one of the shape of a configuration. -/
  | malformed
  | invalid (violation : Violation)
deriving DecidableEq

def ConfigError.message : ConfigError → String
  | unreadable => "IO error"
  | malformed => "Parse error"
  | invalid violation => "Validation error: " ++ violation.message

/-- The declarations that a text holds. -/
def declarationsOfText? (text : String) : Option (NameMap Declaration) := do
  declarations? (← (← Toml.Document.ofText? text).entries?)

/-- The blueprint that a text describes.  Its shape is settled before its declarations are checked. -/
def ofText (text : String) : Except ConfigError Blueprint :=
  match declarationsOfText? text with
  | none => .error .malformed
  | some declarations => (ofDeclarations declarations).mapError .invalid

/-- The blueprint that the bytes of a file describe, if there is a file. -/
def ofFile (content : Option ByteArray) : Except ConfigError Blueprint :=
  match content.bind String.fromUTF8? with
  | none => .error .unreadable
  | some text => ofText text

end Blueprint

end Lineage
