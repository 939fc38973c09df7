/-
This file decides which named functions may be memoized. One walk over the tree
records every name that is bound to a function as pure, and takes that back when
the function prints or calls a function that is known to be impure at that
moment. A function found impure only later does not change what was recorded
about its callers. Prints and calls count for the innermost function around them
that was bound by name.
-/

import TreeScript.Arena.Tree

namespace TreeScript

/-- Names of functions in increasing order, each with whether it is pure. -/
structure PurityTable where
  entries : List (String × Bool) := []
deriving DecidableEq, Repr

namespace PurityTable

/-- Records a name among entries in increasing order, in place of what was recorded before. -/
def record (name : String) (pure : Bool) : List (String × Bool) → List (String × Bool)
  | [] => [(name, pure)]
  | (other, known) :: entries =>
    if name = other then (name, pure) :: entries
    else if name < other then (name, pure) :: (other, known) :: entries
    else (other, known) :: record name pure entries

def mark (table : PurityTable) (name : String) (pure : Bool) : PurityTable :=
  ⟨record name pure table.entries⟩

def get? (table : PurityTable) (name : String) : Option Bool :=
  table.entries.lookup name

/-- Names that are not in the table are not pure. -/
def isPure (table : PurityTable) (name : String) : Bool :=
  table.get? name == some true

def isKnownImpure (table : PurityTable) (name : String) : Bool :=
  table.get? name == some false

def contains (table : PurityTable) (name : String) : Bool :=
  (table.get? name).isSome

def size (table : PurityTable) : Nat :=
  table.entries.length

def isEmpty (table : PurityTable) : Bool :=
  table.entries.isEmpty

/-- Takes back that the function around a place is pure. -/
def demote (table : PurityTable) : Option String → PurityTable
  | some name => table.mark name false
  | none => table

/-- Visits an id and everything below it, for at most the given depth. The scope is the innermost
function around it that was bound by name. -/
def visit (tree : TermTree) : Nat → Option String → TermId → PurityTable → PurityTable
  | 0, _, _, table => table
  | depth + 1, scope, id, table =>
    match tree.get? id with
    | none => table
    | some (.letIn name value next) =>
      let table := match tree.get? value with
        | some (.function _ body) => visit tree depth (some name) body (table.mark name true)
        | _ => visit tree depth scope value table
      visit tree depth scope next table
    | some (.print value) => visit tree depth scope value (table.demote scope)
    | some (.call callee arguments) =>
      let table := match tree.get? callee with
        | some (.var name) => if table.isKnownImpure name then table.demote scope else table
        | _ => table
      (callee :: arguments).foldl (fun table child => visit tree depth scope child table) table
    | some node =>
      node.children.foldl (fun table child => visit tree depth scope child table) table

end PurityTable

/-- What is known about the functions of a tree. -/
def TermTree.purity (tree : TermTree) : PurityTable :=
  PurityTable.visit tree (tree.size + 1) none tree.root {}

end TreeScript
