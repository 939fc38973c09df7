/-
This file compiles files. A directory among the inputs stands for the syntax
trees directly inside it. A build compiles all inputs before it writes anything;
an input that fails has no script, and what is said about the inputs is said in
their order.
-/

import TreeScript.Compiler
import TreeScript.Files.Access
import TreeScript.Report.Console

namespace TreeScript.Build

open Files FileSystem

variable {m : Type → Type} [Monad m] [FileSystem m]

/-- The error of a file system at a path; `doing` says what could not be done. -/
def fileError (path : Path) (doing : String) (failure : Failure) : Diagnostic where
  category := .file
  message := doing ++ ": " ++ failure.message
  path := some path

/-! ### One input -/

/-- Compiles the text of a file. -/
def compileText (settings : Settings) (path : Path) (source : String) :
    Except Diagnostic Compiled :=
  match settings.compile source with
  | .ok compiled =>
    .ok { compiled with warnings := compiled.warnings.map (·.inFile path) }
  | .error error => .error (error.diagnostic.inFile path)

def compileFile (settings : Settings) (path : Path) : m (Except Diagnostic Compiled) := do
  match ← readText path with
  | .ok source => return compileText settings path source
  | .error failure => return .error (fileError path "Could not read input" failure)

/-! ### Inputs -/

/-- The syntax trees directly inside a directory, by name. -/
def inputsIn (path : Path) : m (Except Diagnostic (List Path)) := do
  match ← entryNames path with
  | .error failure => return .error (fileError path "Could not read directory" failure)
  | .ok names =>
    let names := names.mergeSort fun a b => !decide (b < a)
    let found ← (names.map path.join).filterM fun entry => do
      if entry.extension? = some Settings.inputExtension then isFile entry else return false
    if found.isEmpty then
      return .error
        { category := .file
          message := s!"No .{Settings.inputExtension} files found in this directory"
          path := some path }
    else return .ok found

/-- The inputs that paths stand for; what is not a directory is kept as it is. -/
def collectInputs : List Path → m (Except Diagnostic (List Path))
  | [] => return .ok []
  | path :: paths => do
    let found ← if ← isDirectory path then inputsIn path else pure (.ok [path])
    match found with
    | .error diagnostic => return .error diagnostic
    | .ok found => return (← collectInputs paths).map (found ++ ·)

/-! ### Builds -/

/-- What a build did: the files it wrote, what there is to say, and what it printed. -/
structure Result where
  written : List Path := []
  messages : Messages := {}
  output : String := ""

namespace Result

def addError (result : Result) (diagnostic : Diagnostic) : Result :=
  { result with
    messages := { result.messages with errors := result.messages.errors ++ [diagnostic] } }

def addWarnings (result : Result) (warnings : List Warning) : Result :=
  { result with
    messages := { result.messages with warnings := result.messages.warnings ++ warnings } }

def addWritten (result : Result) (path : Path) : Result :=
  { result with written := result.written ++ [path] }

end Result

/-- Writes the script of one input, or reports why there is none. -/
def writeOutput (settings : Settings) (result : Result) :
    Path × Except Diagnostic Compiled → m Result
  | (_, .error diagnostic) => return result.addError diagnostic
  | (input, .ok compiled) => do
    let path := settings.outputPath input
    let result ← match ← writeText path compiled.source with
      | .ok () => pure (result.addWritten path)
      | .error failure => pure (result.addError (fileError path "Error writing file" failure))
    return result.addWarnings compiled.warnings

/-- The directory of the scripts, made if it is missing. -/
def prepareDirectory (settings : Settings) : m (Except Diagnostic Unit) := do
  match settings.outDir with
  | none => return .ok ()
  | some directory =>
    match ← makeDirectories directory with
    | .ok () => return .ok ()
    | .error failure =>
      return .error (fileError directory "Could not create the output directory" failure)

/-- A length of time in the greatest unit of which it holds at least one, without zeros at the end
of its fraction. -/
def durationText (nanoseconds : Nat) : String :=
  let inUnit := fun (digits : Nat) (unit : String) =>
    let fraction := toString (nanoseconds % Nat.pow 10 digits)
    let padded := List.replicate (digits - fraction.length) '0' ++ fraction.toList
    let trimmed := (padded.reverse.dropWhile (· = '0')).reverse
    let point := if trimmed.isEmpty then "" else "."
    toString (nanoseconds / Nat.pow 10 digits) ++ point ++ String.ofList trimmed ++ unit
  if Nat.pow 10 9 ≤ nanoseconds then inUnit 9 "s"
  else if Nat.pow 10 6 ≤ nanoseconds then inUnit 6 "ms"
  else if Nat.pow 10 3 ≤ nanoseconds then inUnit 3 "µs"
  else toString nanoseconds ++ "ns"

/-- The line that sums a build up. -/
def summary (written inputs nanoseconds : Nat) : String :=
  Report.line
    [ .plain "\nBuilt ", .styled [.blue] (toString written), .styled [.reset] " of ",
      .styled [.blue] (toString inputs), .styled [.reset] " files in: ",
      .styled [.green, .bold] (durationText nanoseconds) ]

/-- Compiles all inputs and writes a script for each that succeeds. -/
def buildFiles (inputs : List Path) (settings : Settings) (flags : List Flag) : m Result := do
  let start ← clock
  let compiled ← inputs.mapM fun input => do return (input, ← compileFile settings input)
  match ← prepareDirectory settings with
  | .error diagnostic => return ({} : Result).addError diagnostic
  | .ok () =>
    let result ← compiled.foldlM (writeOutput settings) {}
    if .hideTimers ∈ flags then return result
    else
      let stop ← clock
      return { result with
        output := summary result.written.length inputs.length (stop - start) }

end TreeScript.Build
