/-
This file holds what is said about a program: errors, which stop it, and
warnings, which do not. An error has a category, a message, and details that
only some categories have.
-/

import TreeScript.Path

namespace TreeScript

/-! ### Warnings -/

/-- What happened to a binding that nothing reads. -/
inductive Removal where
  /-- The binding is gone. -/
  | unused
  /-- The binding is gone, and with it the prints and calls in its value. -/
  | discardedEffect
deriving DecidableEq, Repr

structure Warning where
  removal : Removal
  name : String
  path : Option Path := none
deriving DecidableEq, Repr

namespace Warning

def inFile (warning : Warning) (path : Path) : Warning :=
  { warning with path := some path }

/-- The path of the file, empty if there is none. -/
def pathText (warning : Warning) : String :=
  (warning.path.map Path.text).getD ""

/-- What happened, after the name of the binding. -/
def outcome (warning : Warning) : String :=
  match warning.removal with
  | .unused => "' was removed"
  | .discardedEffect => "' was removed together with the prints and calls in its value"

/-- A warning on one line. -/
def text (warning : Warning) : String :=
  let file := match warning.path with
    | some path => path.text ++ ": "
    | none => ""
  file ++ "unused binding '" ++ warning.name ++ warning.outcome

end Warning

/-! ### Errors -/

/-- The part of the work that an error belongs to. -/
inductive Category where
  | file | malformedJson | unsupportedKind | malformedTerm | config | compiler
deriving DecidableEq, Repr

def Category.title : Category → String
  | file => "File Error"
  | malformedJson => "Syntax Error"
  | unsupportedKind => "Unsupported Node Kind"
  | malformedTerm => "Malformed Term"
  | config => "Malformed Config"
  | compiler => "Compiler Bug"

structure Diagnostic where
  category : Category
  message : String
  path : Option Path := none
  kindName : Option String := none
  stage : Option String := none
  suggestion : Option String := none
deriving DecidableEq, Repr

namespace Diagnostic

def inFile (diagnostic : Diagnostic) (path : Path) : Diagnostic :=
  { diagnostic with path := some path }

end Diagnostic

/-- Everything that was said during some work, in order. -/
structure Messages where
  errors : List Diagnostic := []
  warnings : List Warning := []
deriving DecidableEq, Repr

def Messages.hasErrors (messages : Messages) : Bool :=
  !messages.errors.isEmpty

end TreeScript
