import Lineage.Toml.Scalar

/-!
# Values and tables

A table comes about in one of four ways.  It is *headed* if a header names it, *implied* if it only
stands on the way to what a header names, *dotted* if it stands on the way to a key with dots, and
*inline* if it is written out as a value.  The ways differ in what may still be added:

* a header may turn an implied table into a headed one, and may pass through any table that is not
  inline;
* a key with dots may pass through implied and dotted tables and ends in a dotted one;
* nothing is ever added to an inline table, and no key is assigned twice.

Headers in double brackets add tables to a list; where such a list stands on the way, its last table
is meant.
-/

namespace Lineage.Toml

/-- How a table came about. -/
inductive Form where
  | headed
  | implied
  | dotted
  | inline
deriving DecidableEq

inductive Value where
  | text (text : String)
  | scalar (scalar : Scalar)
  | array (elements : List Value)
  | table (form : Form) (entries : List (String × Value))
  /-- The tables of headers in double brackets, in order. -/
  | tables (elements : List (List (String × Value)))

/-- The values of a table by their keys, which are distinct. -/
abbrev Entries := List (String × Value)

/-- A key with the keys of the tables that it is in. -/
structure Key where
  path : List String
  last : String

structure Assignment where
  key : Key
  value : Value

structure Header where
  key : Key
  /-- Whether the header is in double brackets and adds a table to a list. -/
  isElement : Bool

/-- A header with the assignments under it. -/
structure Section where
  header : Header
  body : List Assignment

namespace Entries

/-- Put a value in the place of that of a key, or after all others if the key is new. -/
def put (entries : Entries) (key : String) (value : Value) : Entries :=
  match entries with
  | [] => [(key, value)]
  | entry :: rest =>
    if entry.1 = key then (key, value) :: rest else entry :: put rest key value

/-- Change the value of a key, or make one. -/
def alter (entries : Entries) (key : String) (change : Option Value → Option Value) :
    Option Entries := do
  return entries.put key (← change (entries.lookup key))

/-- Change the last table of a list of tables. -/
def alterLast (change : Entries → Option Entries) (elements : List Entries) : Option Value := do
  return .tables (elements.dropLast ++ [← change (← elements.getLast?)])

/-! ## Assignments -/

/-- Assign a value to a key in the table at the end of a path. -/
def assignAt (last : String) (value : Value) : List String → Entries → Option Entries
  | [], entries => entries.alter last fun
    | none => some value
    | some _ => none
  | key :: path, entries => entries.alter key fun
    | none => do return .table .dotted (← assignAt last value path [])
    | some (.table .dotted inner) => do return .table .dotted (← assignAt last value path inner)
    | some (.table .implied inner) => do
      if path.isEmpty then none
      else return .table .implied (← assignAt last value path inner)
    | some (.tables elements) =>
      if path.isEmpty then none else alterLast (assignAt last value path) elements
    | some _ => none

def assign (entries : Entries) (assignment : Assignment) : Option Entries :=
  assignAt assignment.key.last assignment.value assignment.key.path entries

def assignAll (entries : Entries) (assignments : List Assignment) : Option Entries :=
  assignments.foldlM assign entries

/-! ## Sections -/

/-- Change the table at the end of a path on which a header passes. -/
def alterUnder (change : Entries → Option Entries) : List String → Entries → Option Entries
  | [], entries => change entries
  | key :: path, entries => entries.alter key fun
    | none => do return .table .implied (← alterUnder change path [])
    | some (.table .inline _) => none
    | some (.table form inner) => do return .table form (← alterUnder change path inner)
    | some (.tables elements) => alterLast (alterUnder change path) elements
    | some _ => none

/-- Add what a section says to the table that it is directly in. -/
def addBody (last : String) (isElement : Bool) (body : List Assignment) (entries : Entries) :
    Option Entries :=
  entries.alter last fun
    | none => do
      let inner ← assignAll [] body
      return if isElement then .tables [inner] else .table .headed inner
    | some (.table .implied inner) => do
      if isElement then none else return .table .headed (← assignAll inner body)
    | some (.tables elements) => do
      if isElement then return .tables (elements ++ [← assignAll [] body]) else none
    | some _ => none

/-- Add what a section says to the outermost table. -/
def addSection (entries : Entries) (added : Section) : Option Entries :=
  alterUnder (addBody added.header.key.last added.header.isElement added.body)
    added.header.key.path entries

end Entries

end Lineage.Toml
