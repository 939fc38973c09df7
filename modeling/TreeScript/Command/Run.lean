/-
This file runs the command line. A run answers an exit code and what goes to the
two outputs; the script of a single input is the only thing that shares the
standard output with nothing else. Settings come from the file that an option
names, or else from the usual file if there is one, and flags and options
overrule them.
-/

import TreeScript.Build
import TreeScript.Command.Arguments
import TreeScript.Report.Messages
import TreeScript.Settings.Reading

namespace TreeScript.Command

open Files FileSystem Report

variable {m : Type → Type} [Monad m] [FileSystem m]

/-- What a run leaves behind besides files. -/
structure Outcome where
  succeeded : Bool
  output : String := ""
  errorOutput : String := ""

def Outcome.exitCode (outcome : Outcome) : Nat :=
  if outcome.succeeded then 0 else 1

/-! ### Help -/

/-- The usual name of the file with the settings. -/
def configName : String := "rinhajs.toml"

def usage : String :=
  line [.plain "------------------------------------"] ++
    line [.styled [.green, .bold] "rinhajs - syntax tree to JavaScript compiler"] ++
    line [.plain "Usage: rinhajs <command> <args>"]

def commandList : String :=
  line [.styled [.green, .bold] "Commands:"] ++
    String.join ([
      "  <file.json>              - Compiles a syntax tree and prints the JavaScript",
      "  build <file.json|dir>... - Compiles each file to <name>.js",
      "  help                     - Shows this message"].map fun text => line [.plain text]) ++
    line [.styled [.green, .bold] "Flags:"] ++
    String.join ([
      "  --config <file>          - Reads settings from a TOML file (default: ./" ++
        configName ++ ")",
      "  --runtime <path>         - Requires the runtime module from <path> instead of embedding it",
      "  --out-dir <dir>          - Where build writes its output",
      "  --no-dce                 - Keeps unused let bindings",
      "  --no-memo                - Never memoizes calls to pure functions",
      "  --hide-warnings          - Doesn't print warnings",
      "  --hide-timers            - Doesn't print build timings"].map fun text =>
        line [.plain text])

def help : String :=
  usage ++ commandList

/-! ### Settings -/

def loadSettings (path : Path) : m (Except Diagnostic Settings) := do
  match ← readText path with
  | .error failure =>
    return .error (Build.fileError path "Could not read config file" failure)
  | .ok source =>
    return (Settings.parse source).mapError fun error => (error.diagnostic source).inFile path

/-- The settings before flags and options. -/
def baseSettings (options : Options) : m (Except Diagnostic Settings) := do
  match options.config with
  | some path => loadSettings path
  | none => if ← isFile ⟨configName⟩ then loadSettings ⟨configName⟩ else return .ok {}

/-- Options overrule whatever the settings say. -/
def overrule (options : Options) (settings : Settings) : Settings :=
  { settings with
    linkage := (options.support.map Script.Linkage.require).getD settings.linkage
    outDir := options.outDir <|> settings.outDir }

def resolveSettings (options : Options) (flags : List Flag) :
    m (Except Diagnostic Settings) := do
  return (← baseSettings options).map fun settings =>
    overrule options (settings.applyFlags flags)

/-! ### Running -/

/-- A run that fails with one error. -/
def failure (diagnostic : Diagnostic) : m Outcome := do
  return { succeeded := false, output := error (← currentDirectory) diagnostic }

def runCompile (path : Path) (settings : Settings) (flags : List Flag) : m Outcome := do
  match ← Build.compileFile settings path with
  | .error diagnostic => failure diagnostic
  | .ok compiled =>
    let warnings := if .hideWarnings ∈ flags then [] else compiled.warnings
    return {
      succeeded := true
      output := compiled.source
      errorOutput := String.join (warnings.map fun warning => "warning: " ++ warning.text ++ "\n") }

def runBuild (paths : List Path) (settings : Settings) (flags : List Flag) : m Outcome := do
  match ← Build.collectInputs paths with
  | .error diagnostic => failure diagnostic
  | .ok inputs =>
    let announcement := line
      [ .plain "\nCompiling ", .styled [.blue] (toString inputs.length),
        .styled [.reset] " files" ]
    let result ← Build.buildFiles inputs settings flags
    let shown := messages (← currentDirectory) (.hideWarnings ∉ flags) result.messages
    return {
      succeeded := !result.messages.hasErrors
      output := announcement ++ result.output ++ shown }

/-- Runs a request whose arguments were accepted. -/
def runRequest (request : Request) (options : Options) (flags : List Flag) : m Outcome := do
  match ← resolveSettings options flags with
  | .error diagnostic => failure diagnostic
  | .ok settings =>
    match request with
    | .help => return { succeeded := true, output := help }
    | .compile path => runCompile path settings flags
    | .build paths => runBuild paths settings flags

/-- Runs the arguments after the program's name. -/
def run (arguments : List String) : m Outcome := do
  if arguments.isEmpty then return { succeeded := false, output := help }
  else
    match readRequest arguments with
    | .error usageError =>
      return {
        succeeded := false
        output := line [.styled [.red] usageError.message] ++ commandList }
    | .ok (request, options) => runRequest request options (flags arguments)

end TreeScript.Command
