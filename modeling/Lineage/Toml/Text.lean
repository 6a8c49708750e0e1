import Lineage.Toml.Reader

/-!
# Blanks, comments and strings

Lines end with a line feed, which a carriage return may precede; a carriage return has no other use.
Blanks are spaces and tabs.  Comments and strings hold any character but control characters, of
which they hold the tab.

Strings are basic, where a backslash escapes, or literal, where it does not; both have a form that
goes over several lines.  There a line end right after the opening quotes is dropped, every other
counts as a line feed, and up to two quotes may stand before the closing ones.
-/

namespace Lineage.Toml

open Reader

/-! ## Blanks and comments -/

def isBlank (c : Char) : Bool := c = ' ' || c = '\t'

def isDecimal (c : Char) : Bool := '0' ≤ c && c ≤ '9'

/-- The characters that comments hold, and strings apart from their quotes and backslashes. -/
def isPlain (c : Char) : Bool := c = '\t' || (' ' ≤ c && c ≠ '\x7F')

def blanks : Reader Unit := do
  let _ ← takeWhile isBlank

def newline : Reader Unit := word "\n" <|> word "\x0D\n"

def comment : Reader Unit := do
  char '#'
  let _ ← takeWhile isPlain

/-- Blanks, comments and line ends, up to the next other character. -/
def emptyLines : Reader Unit := do
  blanks
  let _ ← many do
    let _ ← optional comment
    newline
    blanks

/-- What may follow on a line that is complete. -/
def lineEnd : Reader Unit := do
  blanks
  let _ ← optional comment
  newline <|> atEnd

/-! ## Escapes -/

def hexDigit? (c : Char) : Option Nat :=
  if isDecimal c then some (c.toNat - '0'.toNat)
  else if 'a' ≤ c && c ≤ 'f' then some (c.toNat - 'a'.toNat + 10)
  else if 'A' ≤ c && c ≤ 'F' then some (c.toNat - 'A'.toNat + 10)
  else none

/-- The number written by hexadecimal digits. -/
def hexNumber? (digits : List Char) : Option Nat :=
  digits.foldlM (fun number digit ↦ do return 16 * number + (← hexDigit? digit)) 0

/-- The character whose code point is written by `count` hexadecimal digits. -/
def codePoint (count : Nat) : Reader Char := do
  let digits ← times count (satisfy fun c ↦ (hexDigit? c).isSome)
  let some number := hexNumber? digits | failure
  if number.isValidChar then return .ofNat number else failure

/-- A backslash and what it escapes. -/
def escape : Reader Char := do
  char '\\'
  match ← satisfy fun _ ↦ true with
  | 'b' => return '\x08'
  | 't' => return '\t'
  | 'n' => return '\n'
  | 'f' => return '\x0C'
  | 'r' => return '\x0D'
  | '"' => return '"'
  | '\\' => return '\\'
  | 'u' => codePoint 4
  | 'U' => codePoint 8
  | _ => failure

/-- A backslash at the end of a line, which takes all space up to the next character with it. -/
def escapedLineEnd : Reader Unit := do
  char '\\'
  blanks
  newline
  let _ ← many (newline <|> discard (satisfy isBlank))

/-! ## Strings -/

/-- The text between two equal quotes on one line. -/
def quoted (quote : Char) (item : Reader Char) : Reader String := do
  char quote
  let text ← many item
  char quote
  return .ofList text

/-- One or two quotes that do not close a string of several lines, as another character follows. -/
def innerQuotes (quote : Char) : Reader (List Char)
  | first :: second :: rest =>
    if first ≠ quote then none
    else if second ≠ quote then some ([quote], second :: rest)
    else
      match rest with
      | third :: _ => if third ≠ quote then some ([quote, quote], rest) else none
      | [] => none
  | _ => none

/-- The text between three equal quotes, over any number of lines. -/
def quotedLines (quote : Char) (item : Reader (List Char)) : Reader String := do
  let quotes (count : Nat) : Reader (List Char) := do
    (List.replicate count quote).forM char
    return List.replicate (count - 3) quote
  let _ ← quotes 3
  let _ ← optional newline
  let lines ← many (item <|> (do newline; return ['\n']) <|> innerQuotes quote)
  let last ← quotes 5 <|> quotes 4 <|> quotes 3
  return .ofList (lines.flatten ++ last)

def isBasic (c : Char) : Bool := isPlain c && c ≠ '"' && c ≠ '\\'

def isLiteral (c : Char) : Bool := isPlain c && c ≠ '\''

def basicString : Reader String := quoted '"' (satisfy isBasic <|> escape)

def literalString : Reader String := quoted '\'' (satisfy isLiteral)

def basicLines : Reader String :=
  quotedLines '"' <|
    (return [← satisfy isBasic]) <|> (return [← escape]) <|> (do escapedLineEnd; return [])

def literalLines : Reader String := quotedLines '\'' (return [← satisfy isLiteral])

/-- A string in any of its four forms. -/
def string : Reader String := basicLines <|> basicString <|> literalLines <|> literalString

end Lineage.Toml
