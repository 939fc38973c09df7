/-
This file records which terms are returned. The tail of a term is found by going
from each binding to what follows it; a conditional is its own tail. Positions
that were recorded stay recorded.
-/

import TreeScript.Arena.Outline
import TreeScript.Diagnostic

namespace TreeScript.Script

/-- The work during which a missing term was noticed. -/
inductive Stage where
  | tagging | emission
deriving DecidableEq, Repr

def Stage.name : Stage → String
  | tagging => "Return tagging"
  | emission => "JavaScript backend"

/-- A link that leads out of the arena. -/
structure MissingTerm where
  id : TermId
  stage : Stage
deriving DecidableEq, Repr

def MissingTerm.diagnostic (missing : MissingTerm) : Diagnostic where
  category := .compiler
  message := "Term " ++ TermId.text missing.id ++ " not found in the tree"
  stage := some missing.stage.name

/-- The tail of a term, for at most the given number of bindings. -/
def tailFrom (tree : TermTree) : Nat → TermId → Except MissingTerm TermId
  | 0, id => .error ⟨id, .tagging⟩
  | bindings + 1, id =>
    match tree.get? id with
    | some (.letIn _ _ next) => tailFrom tree bindings next
    | some _ => .ok id
    | none => .error ⟨id, .tagging⟩

/-- The id at the end of a chain of bindings. -/
def tail (tree : TermTree) (id : TermId) : Except MissingTerm TermId :=
  tailFrom tree (tree.size + 1) id

/-- The ids whose values are returned, each once. -/
structure TailPositions where
  ids : List TermId := []
deriving DecidableEq, Repr

namespace TailPositions

def isReturning (tails : TailPositions) (id : TermId) : Bool :=
  tails.ids.contains id

def size (tails : TailPositions) : Nat :=
  tails.ids.length

def isEmpty (tails : TailPositions) : Bool :=
  tails.ids.isEmpty

def insert (tails : TailPositions) (id : TermId) : TailPositions :=
  if tails.isReturning id then tails else ⟨id :: tails.ids⟩

/-- Records the tail of a term as returned, and answers it. -/
def tag (tails : TailPositions) (tree : TermTree) (id : TermId) :
    Except MissingTerm (TermId × TailPositions) := do
  let found ← tail tree id
  return (found, tails.insert found)

end TailPositions

end TreeScript.Script
