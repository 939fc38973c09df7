/-
This file compiles: it decodes a source text, lays the program out, removes dead
bindings, infers purity over what is left, and emits the script. The work stops
at the first error, and then there is no script at all.
-/

import TreeScript.Decoding.Program
import TreeScript.Analysis.Elimination
import TreeScript.Script.Emission
import TreeScript.Settings.Basic

namespace TreeScript

namespace Decoding

/-- What a message says in front of a kind that it refuses. -/
def refusalMark : List Char :=
  "unknown variant `".toList

/-- The kind that a message refuses: what follows the mark, up to the next backquote. -/
def refusedKind? (message : String) : Option String :=
  let chars := message.toList
  if refusalMark.isPrefixOf chars then
    let rest := chars.drop refusalMark.length
    if rest.contains '\x60' then some (String.ofList (rest.takeWhile (· ≠ '\x60'))) else none
  else none

/-- What is said about a document that was refused. Whether it is JSON is known from the defect;
which flaw it has is read off the message. -/
def Error.diagnostic (error : Error) : Diagnostic :=
  match error.defect, refusedKind? error.message with
  | .malformed _, _ =>
    { category := .malformedJson
      message := "Syntax tree is not valid JSON: " ++ error.message }
  | .flawed _, some kind =>
    { category := .unsupportedKind
      message := s!"Node kind `{kind}` is not part of the language: {error.message}"
      kindName := some kind }
  | .flawed _, none =>
    { category := .malformedTerm
      message := "Syntax tree has an ill-formed node: " ++ error.message }

end Decoding

/-- What the analyses say about a tree. -/
structure Optimized where
  tree : TermTree
  purity : PurityTable
  warnings : List Warning

/-- Removes dead bindings if asked to, then infers purity over what is left. -/
def TermTree.optimize (tree : TermTree) (eliminateDead : Bool) : Optimized :=
  let (tree, warnings) := if eliminateDead then tree.eliminate else (tree, [])
  ⟨tree, tree.purity, warnings⟩

/-- Why there is no script for a source. -/
inductive CompileError where
  | decoding (error : Decoding.Error)
  | missing (term : Script.MissingTerm)

def CompileError.diagnostic : CompileError → Diagnostic
  | decoding error => error.diagnostic
  | missing term => term.diagnostic

/-- A script and what was noticed on the way to it. -/
structure Compiled where
  source : String
  warnings : List Warning
  memoizedCalls : Nat
deriving DecidableEq, Repr

namespace Settings

def scriptOptions (settings : Settings) : Script.Options :=
  ⟨settings.linkage, settings.memoizePure⟩

/-- Compiles a source text. -/
def compile (settings : Settings) (source : String) : Except CompileError Compiled := do
  let program ← (Program.parse source).mapError .decoding
  let optimized := (TermTree.ofTerm program.expression).optimize settings.eliminateDead
  let script ←
    (Script.emitTree optimized.tree optimized.purity settings.scriptOptions).mapError .missing
  return ⟨script.source, optimized.warnings, script.memoizedCalls⟩

end Settings

end TreeScript
