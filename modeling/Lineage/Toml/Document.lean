import Lineage.Toml.Table

/-!
# Documents

A document holds assignments and then sections, each with a header and the assignments under it.
Every assignment and every header takes a line of its own, which only a comment may end.

Arrays go over any number of lines and may have a comma after their last element.  Inline tables
stay on one line, apart from arrays and strings in them, and may not.
-/

namespace Lineage.Toml

open Reader

/-- Values in values may go this deep, and a key has fewer parts than this. -/
def depthLimit : Nat := 80

/-! ## Keys -/

def isBare (c : Char) : Bool := c.isAlphanum || c = '_' || c = '-'

def bareKey : Reader String := do
  return .ofList (← (return (← satisfy isBare) :: (← takeWhile isBare)))

/-- A key: parts separated by dots, with blanks around each part. -/
def key : Reader Key := do
  let part : Reader String := do
    blanks
    let name ← bareKey <|> basicString <|> literalString
    blanks
    return name
  let names ← sepBy1 part (char '.')
  let some last := names.getLast? | failure
  if names.length < depthLimit then return ⟨names.dropLast, last⟩ else failure

/-! ## Values -/

/-- A key, an equals sign and a value. -/
def assignment (value : Reader Value) : Reader Assignment := do
  let key ← key
  char '='
  blanks
  return ⟨key, ← value⟩

def array (element : Reader Value) : Reader Value := do
  let comma : Reader Unit := do
    char ','
    emptyLines
  char '['
  emptyLines
  let elements ← sepEndBy (do let value ← element; emptyLines; return value) comma
  char ']'
  return .array elements

def inlineTable (value : Reader Value) : Reader Value := do
  char '\x7B'
  let assignments ← sepBy (do let entry ← assignment value; blanks; return entry) (char ',')
  blanks
  char '\x7D'
  let entries ← Entries.assignAll [] assignments
  return .table .inline entries

/-- A value in which arrays and inline tables are nested at most `depth` deep. -/
def value : (depth : Nat) → Reader Value
  | 0 => failure
  | depth + 1 =>
    (return .text (← string)) <|> array (value depth) <|> inlineTable (value depth) <|>
      (return .scalar (← scalar))

/-! ## Lines -/

def assignmentLine : Reader Assignment := do
  emptyLines
  let entry ← assignment (value depthLimit)
  lineEnd
  return entry

def header : Reader Header := do
  let element : Reader Header := do
    word "[["
    let key ← key
    word "]]"
    return ⟨key, true⟩
  let table : Reader Header := do
    char '['
    let key ← key
    char ']'
    return ⟨key, false⟩
  element <|> table

def headerLine : Reader Header := do
  emptyLines
  let header ← header
  lineEnd
  return header

def sectionLines : Reader Section := do
  return ⟨← headerLine, ← many assignmentLine⟩

/-! ## Documents -/

/-- The assignments before the first header, and the sections. -/
structure Document where
  body : List Assignment
  sections : List Section

def Document.reader : Reader Document := do
  let _ ← optional (char '\uFEFF')
  let body ← many assignmentLine
  let sections ← many sectionLines
  emptyLines
  let _ ← optional comment
  atEnd
  return ⟨body, sections⟩

/-- The document that a text is. -/
def Document.ofText? (text : String) : Option Document :=
  Document.reader.run' text.toList

/-- The outermost table that a document describes, unless it adds to what it may not. -/
def Document.entries? (document : Document) : Option Entries := do
  document.sections.foldlM Entries.addSection (← Entries.assignAll [] document.body)

end Lineage.Toml
