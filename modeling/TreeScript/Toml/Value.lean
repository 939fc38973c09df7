/-
This file holds TOML documents as tables that remember where each key and value
was written. A table also remembers how it came about, because that decides
whether later lines may add to it: by a header of its own, by a header below it,
by a dotted key, or as an inline table, which is closed where it ends.
-/

import TreeScript.Decimal.Double

namespace TreeScript.Toml

open Decimal

/-- A stretch of a text, given by the number of bytes that remain at its start and at its end. -/
structure Span where
  start : Nat
  stop : Nat
deriving DecidableEq, Repr

/-- A key and where it was written. -/
structure Key where
  name : String
  span : Span
deriving DecidableEq, Repr

/-- A number that is not an integer. -/
inductive Real where
  | finite (negative : Bool) (magnitude : Double)
  | infinite (negative : Bool)
  | notANumber
deriving DecidableEq, Repr

/-- How a table came about. -/
inductive Origin where
  | header | belowHeader | dotted | inline
deriving DecidableEq, Repr

inductive Value where
  | string (text : String)
  | integer (value : Int)
  | real (value : Real)
  | boolean (value : Bool)
  | datetime
  /-- The elements in order; only a list of tables made by headers can grow. -/
  | array (ofTables : Bool) (elements : List (Span × Value))
  | table (origin : Origin) (entries : List (Key × Span × Value))
deriving Inhabited

/-- A value and where it was written. -/
abbrev Spanned := Span × Value

abbrev Entries := List (Key × Spanned)

namespace Value

def typeName : Value → String
  | string _ => "string"
  | integer _ => "integer"
  | real _ => "float"
  | boolean _ => "boolean"
  | datetime => "datetime"
  | array .. => "array"
  | table .. => "table"

end Value

/-! ### Building tables -/

namespace Entries

def named? (entries : Entries) (name : String) : Option (Key × Spanned) :=
  List.find? (fun (key, _) => key.name = name) entries

def remove (entries : Entries) (name : String) : Entries :=
  entries.filter fun (key, _) => key.name ≠ name

/-- Puts another value in the place of the one that a name has. -/
def replace (entries : Entries) (name : String) (value : Spanned) : Entries :=
  entries.map fun (key, old) => if key.name = name then (key, value) else (key, old)

end Entries

/-- A change of a table that may be refused. -/
abbrev Change := Origin → Entries → Option Entries

/-- Makes a change to the last table of a list of tables. -/
def changeLast (change : Change) : List Spanned → Option (List Spanned)
  | [] => none
  | [(span, .table origin entries)] => do
    return [(span, .table origin (← change origin entries))]
  | [_] => none
  | element :: elements => do return element :: (← changeLast change elements)

/-- Makes a change to the table at the end of a path. Tables on the way are made if they are
missing. Dotted keys pass only through tables that no header of their own made, and nothing passes
through an inline table. -/
def changeAt (dotted : Bool) (change : Change) : List Key → Change
  | [], origin, entries => change origin entries
  | key :: path, _, entries =>
    let inside : Change := changeAt dotted change path
    match Entries.named? entries key.name with
    | none => do
      let origin : Origin := if dotted then .dotted else .belowHeader
      let table ← inside origin []
      return entries ++ [(key, key.span, .table origin table)]
    | some (_, span, .table origin table) =>
      if origin = .inline ∨ (dotted ∧ origin = .header) then none
      else do
        let table ← inside origin table
        return Entries.replace entries key.name (span, .table origin table)
    | some (_, span, .array true elements) => do
      let elements ← changeLast inside elements
      return Entries.replace entries key.name (span, .array true elements)
    | some _ => none

/-- Adds a value under a new key. A dotted key adds nothing to a table with a header of its own. -/
def define (isDotted : Bool) (key : Key) (value : Spanned) : Change := fun origin entries =>
  if isDotted ∧ origin = .header then none
  else if (Entries.named? entries key.name).isSome then none
  else some (entries ++ [(key, value)])

/-- Makes the table of a header. A table that only exists because of headers below it is taken
over with its entries. -/
def openTable (key : Key) (span : Span) : Change := fun _ entries =>
  match Entries.named? entries key.name with
  | none => some (entries ++ [(key, span, .table .header [])])
  | some (_, _, .table .belowHeader table) =>
    some (Entries.remove entries key.name ++ [(key, span, .table .header table)])
  | some _ => none

/-- Adds a table to the list of tables of a header. -/
def openElement (key : Key) (span : Span) : Change := fun _ entries =>
  let element : Spanned := (span, .table .header [])
  match Entries.named? entries key.name with
  | none => some (entries ++ [(key, span, .array true [element])])
  | some (_, first, .array true elements) =>
    some (Entries.replace entries key.name (first, .array true (elements ++ [element])))
  | some _ => none

end TreeScript.Toml
