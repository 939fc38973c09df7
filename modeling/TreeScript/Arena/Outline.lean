/-
This file writes a tree as an outline: one line for each linked node, its id and
its kind with what it holds besides its parts, indented by two blanks for each
node around it.
-/

import TreeScript.Arena.Tree
import TreeScript.Text.Quoted

namespace TreeScript

/-- The written form of an id. -/
def TermId.text (id : TermId) : String :=
  s!"t{id}"

namespace Node

/-- What a line of the outline says about a node. -/
def summary : Node → String
  | letIn name _ _ => "Let " ++ name
  | function parameters _ => "Function (" ++ ", ".intercalate parameters ++ ")"
  | var name => "Var " ++ name
  | int value => "Int " ++ toString value.toInt
  | str value => "Str " ++ Text.quoted value
  | bool value => "Bool " ++ toString value
  | binary op _ _ => "Binary " ++ op.name
  | node => node.kind.name

end Node

namespace TermTree

def indent (depth : Nat) : String :=
  String.ofList (List.replicate (2 * depth) ' ')

/-- The line for an id. -/
def outlineLine (tree : TermTree) (depth : Nat) (id : TermId) : String :=
  let summary := match tree.get? id with
    | some node => node.summary
    | none => "<missing>"
  indent depth ++ TermId.text id ++ " " ++ summary ++ "\n"

/-- The lines for an id and everything below it, for at most the given number of levels. -/
def outlineFrom (tree : TermTree) : Nat → Nat → TermId → String
  | 0, _, _ => ""
  | levels + 1, depth, id =>
    tree.outlineLine depth id ++
      String.join ((tree.children id).map (tree.outlineFrom levels (depth + 1)))

/-- The outline of everything that is linked from the root. -/
def outline (tree : TermTree) : String :=
  tree.outlineFrom (tree.size + 1) 0 tree.root

end TermTree

end TreeScript
