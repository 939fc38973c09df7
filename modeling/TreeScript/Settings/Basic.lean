/-
This file holds the settings of a compilation, the flags that overrule them, and
the rule for where the script of an input is written.
-/

import TreeScript.Path
import TreeScript.Script.Support

namespace TreeScript

/-- A flag of the command line. -/
inductive Flag where
  | keepDeadBindings | noMemoization | hideWarnings | hideTimers
deriving DecidableEq, Repr

structure Settings where
  /-- Where scripts are written; next to their inputs if there is no such directory. -/
  outDir : Option Path := none
  linkage : Script.Linkage := .inline
  eliminateDead : Bool := true
  memoizePure : Bool := true
deriving DecidableEq, Repr

namespace Settings

/-- Flags only ever switch something off. -/
def applyFlag (settings : Settings) : Flag → Settings
  | .keepDeadBindings => { settings with eliminateDead := false }
  | .noMemoization => { settings with memoizePure := false }
  | .hideWarnings => settings
  | .hideTimers => settings

def applyFlags (settings : Settings) (flags : List Flag) : Settings :=
  flags.foldl applyFlag settings

/-- The extension of inputs. -/
def inputExtension : String := "json"

/-- The extension of scripts. -/
def outputExtension : String := "js"

/-- The path of the script of an input. -/
def outputPath (settings : Settings) (input : Path) : Path :=
  let path := input.withExtension outputExtension
  match settings.outDir, path.fileName? with
  | some directory, some name => directory.join name
  | _, _ => path

end Settings

end TreeScript
