/-
This file writes errors and warnings for a terminal. An error starts with a
banner for its category, which names the file if there is one, and goes on with
its message and details; an error about a file is only its path and message.
Paths of errors are shown relative to the current directory, paths of warnings
as they are.
-/

import TreeScript.Diagnostic
import TreeScript.Report.Console

namespace TreeScript.Report

/-- The banner around the path of a file; nothing if the path is empty. -/
def banner (before path after : String) : String :=
  if path.isEmpty then "" else line [.plain before, .styled [.dark, .magenta] path, .plain after]

/-- What stands above the message of an error. -/
def heading (category : Category) (path : String) : String :=
  match category with
  | .file => line [.styled [.yellow] "🏚 Can't find/read file or directory: ", .plain path]
  | .malformedJson =>
    banner "\n(╯°□°)╯  🔥🔥 " path " 🔥🔥  Σ(°△°;) " ++ line [.styled [.red] "Syntax"]
  | .unsupportedKind | .malformedTerm =>
    banner "\nヽ(˶°o°)ﾉ  🔥🔥🔥 " path " 🔥🔥🔥  ╰(°□°╰) " ++
      line [.styled [.red] category.title]
  | .config =>
    banner "\n (-_-)  🔥🔥🔥🔥 " path " 🔥🔥🔥🔥  <(^~^)/ " ++
      line [.styled [.yellow] "CONFIG FILE ISSUE - "] ++
      line [.styled [.dark, .yellow]
        "Malformed config file, something doesn't make sense inside the config"]
  | .compiler =>
    banner "\nヽ༼☉ ‿ ⚆༽ﾉ  🔥🔥🔥🔥 " path " 🔥🔥🔥🔥  ╰(° _ o╰) " ++
      line [.styled [.yellow] "COMPILER BUG - "] ++
      line [.styled [.dark, .yellow] "compiler developer skill issue (not your fault)"]

/-- A line that is left out if there is nothing to say. -/
def detail (pieces : String → List Piece) : Option String → String
  | some text => line (pieces text)
  | none => ""

/-- An error as it is shown to someone who works in a directory. -/
def error (directory : Option Path) (diagnostic : Diagnostic) : String :=
  let path := (diagnostic.path.map fun path => path.display directory).getD ""
  let top := heading diagnostic.category path
  match diagnostic.category with
  | .file => top ++ line [.plain diagnostic.message]
  | _ =>
    top ++ line [.styled [.red] diagnostic.message] ++
      detail (fun stage => [.styled [.dark, .magenta] "Stage: ", .plain stage]) diagnostic.stage ++
      detail (fun kind => [.styled [.dark, .magenta] "Node kind: ", .plain kind])
        diagnostic.kindName ++
      detail (fun suggestion => [.styled [.dark, .yellow] suggestion]) diagnostic.suggestion

def warning (warning : Warning) : String :=
  line [.styled [.yellow] "WARNING: "] ++
    detail (fun path => [.plain "File: ", .plain path]) (warning.path.map Path.text) ++
    line [.plain "Unused binding '", .plain warning.name, .plain warning.outcome]

/-- All errors, and after them all warnings if they are wanted. -/
def messages (directory : Option Path) (showWarnings : Bool) (messages : Messages) : String :=
  String.join (messages.errors.map (error directory)) ++
    if showWarnings then String.join (messages.warnings.map warning) else ""

end TreeScript.Report
