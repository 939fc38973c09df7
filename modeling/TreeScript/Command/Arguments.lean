/-
This file reads the arguments of the command line. Arguments are options with a
value, flags without one, and paths; nothing else may start with two dashes, and
neither may the value of an option. The first argument may be a command.
-/

import TreeScript.Settings.Basic

namespace TreeScript.Command

inductive Request where
  /-- Prints the script of one input. -/
  | compile (path : Path)
  /-- Writes the scripts of all inputs. -/
  | build (paths : List Path)
  | help
deriving DecidableEq, Repr

/-- Options that take a value, each with the value that was given last. -/
structure Options where
  config : Option Path := none
  support : Option String := none
  outDir : Option Path := none
deriving DecidableEq, Repr

/-- Why arguments are refused. -/
inductive UsageError where
  | nothingGiven
  | nothingToBuild
  | noInput
  | severalInputs
  | unknownFlag (flag : String)
  | missingValue (option : String)
deriving DecidableEq, Repr

def UsageError.message : UsageError → String
  | nothingGiven => "No command or input file given"
  | nothingToBuild => "Build needs at least one input file"
  | noInput => "No input file given"
  | severalInputs =>
    "Printing to stdout takes exactly one input file (use 'build' for several)"
  | unknownFlag flag =>
    "Unknown flag: '" ++ flag ++ "'. Supported flags are --config, --runtime, --out-dir, " ++
      "--no-dce, --no-memo, --hide-warnings, --hide-timers."
  | missingValue option => "Missing value for " ++ option

/-! ### Items -/

def configOption : String := "--config"

def supportOption : String := "--runtime"

def outDirOption : String := "--out-dir"

/-- The option that an argument names, with how its value is taken over. -/
def option? (argument : String) : Option (Options → String → Options) :=
  if argument = configOption then
    some fun options value => { options with config := some ⟨value⟩ }
  else if argument = supportOption then
    some fun options value => { options with support := some value }
  else if argument = outDirOption then
    some fun options value => { options with outDir := some ⟨value⟩ }
  else none

/-- The flag that an argument names. -/
def flag? (argument : String) : Option Flag :=
  if argument = "--no-dce" then some .keepDeadBindings
  else if argument = "--no-memo" then some .noMemoization
  else if argument = "--hide-warnings" then some .hideWarnings
  else if argument = "--hide-timers" then some .hideTimers
  else none

/-- Whether an argument looks like an option or a flag. -/
def isDashed (argument : String) : Bool :=
  ['-', '-'].isPrefixOf argument.toList

/-- Reads items from left to right: the paths, which are kept in reverse, and the options. -/
def readItems (paths : List Path) (options : Options) :
    List String → Except UsageError (List Path × Options)
  | [] => .ok (paths.reverse, options)
  | argument :: rest =>
    match option? argument with
    | some take =>
      match rest with
      | [] => .error (.missingValue argument)
      | value :: rest =>
        if isDashed value then .error (.missingValue argument)
        else readItems paths (take options value) rest
    | none =>
      if (flag? argument).isSome then readItems paths options rest
      else if isDashed argument then .error (.unknownFlag argument)
      else readItems (⟨argument⟩ :: paths) options rest

/-- All flags among the arguments. -/
def flags (arguments : List String) : List Flag :=
  arguments.filterMap flag?

/-! ### Requests -/

def isHelp (argument : String) : Bool :=
  argument = "help" || argument = "--help" || argument = "-h"

def buildName : String := "build"

/-- Reads the arguments of a build. -/
def readBuild (arguments : List String) : Except UsageError (Request × Options) := do
  let (paths, options) ← readItems [] {} arguments
  if paths.isEmpty then throw .nothingToBuild else return (.build paths, options)

/-- Reads the arguments of a compilation. -/
def readCompile (arguments : List String) : Except UsageError (Request × Options) := do
  let (paths, options) ← readItems [] {} arguments
  match paths with
  | [] => throw .noInput
  | [path] => return (.compile path, options)
  | _ => throw .severalInputs

/-- The request that the arguments make. Nothing after a request for help is looked at. -/
def readRequest : List String → Except UsageError (Request × Options)
  | [] => .error .nothingGiven
  | first :: rest =>
    if isHelp first then .ok (.help, {})
    else if first = buildName then readBuild rest
    else readCompile (first :: rest)

end TreeScript.Command
