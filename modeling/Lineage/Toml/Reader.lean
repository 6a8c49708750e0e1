/-!
# Readers

A reader takes a value off the front of a text, or fails.  A failing reader takes nothing, so what
stands after `<|>` starts where the first reader started.

The readers of this format never have to say why they fail: a document is well formed or it is not.
-/

namespace Lineage.Toml

abbrev Reader := StateT (List Char) Option

namespace Reader

variable {α : Type}

/-- A character with a property. -/
def satisfy (accepts : Char → Bool) : Reader Char
  | [] => none
  | c :: rest => if accepts c then some (c, rest) else none

def char (expected : Char) : Reader Unit := do
  let _ ← satisfy (· = expected)

/-- The characters of a word, in order. -/
def word (expected : String) : Reader Unit := expected.toList.forM char

/-- The characters up to the first without a property. -/
def takeWhile (accepts : Char → Bool) : Reader (List Char) := fun text ↦
  some (text.takeWhile accepts, text.dropWhile accepts)

/-- One of some characters. -/
def oneOf (choices : List Char) : Reader Char := satisfy (choices.contains ·)

/-- Read items until one fails.  An item that takes nothing fails. -/
def many (item : Reader α) (text : List Char) : Option (List α × List Char) :=
  match item text with
  | none => some ([], text)
  | some (value, rest) =>
    if _h : rest.length < text.length then do
      let (values, rest) ← many item rest
      return (value :: values, rest)
    else some ([], text)
termination_by text.length

/-- At least one item, with `separator` between one and the next. -/
def sepBy1 (item : Reader α) (separator : Reader Unit) : Reader (List α) := do
  let first ← item
  return first :: (← many (do separator; item))

/-- Any number of items, with `separator` between one and the next. -/
def sepBy (item : Reader α) (separator : Reader Unit) : Reader (List α) :=
  sepBy1 item separator <|> return []

/-- As `sepBy`; after the last item, if there is one, a separator may follow. -/
def sepEndBy (item : Reader α) (separator : Reader Unit) : Reader (List α) :=
  (do
    let items ← sepBy1 item separator
    let _ ← optional separator
    return items) <|> return []

/-- Exactly `count` items. -/
def times (count : Nat) (item : Reader α) : Reader (List α) :=
  (List.range count).mapM fun _ ↦ item

/-- Succeeds at the end of the text only. -/
def atEnd : Reader Unit
  | [] => some ((), [])
  | _ :: _ => none

end Reader

end Lineage.Toml
