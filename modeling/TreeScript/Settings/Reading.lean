/-
This file reads settings from a TOML document and words what is wrong with a
document that is TOML but does not fit. Keys are looked at in increasing order,
and the first that does not fit is reported with the line it stands on and marks
under what was written there.
-/

import TreeScript.Decimal.Shortest
import TreeScript.Diagnostic
import TreeScript.Settings.Basic
import TreeScript.Text.Quoted
import TreeScript.Toml.Document

namespace TreeScript.Settings

open Toml Decimal

/-! ### What does not fit -/

/-- What is wrong with a key or a value. -/
inductive Misfit where
  | unknownField (name : String)
  | invalidType (found expected : String)
  | unknownLinkage (name : String)
  | linkageWithoutPath
  | neitherTextNorTable
  | noLinkage
  | severalLinkages
  | notEmptyArray
  | notEmptyTable
  | notTable (typeName : String)
  | integerTooLarge
  | realTooLarge

def Misfit.message : Misfit → String
  | unknownField name =>
    s!"unknown field `{name}`, expected one of `out_dir`, `runtime`, " ++
      "`eliminate_dead_bindings`, `memoize_pure_calls`"
  | invalidType found expected => s!"invalid type: {found}, expected {expected}"
  | unknownLinkage name => s!"unknown variant `{name}`, expected `inline` or `require`"
  | linkageWithoutPath => "invalid type: unit variant, expected newtype variant"
  | neitherTextNorTable => "wanted string or table"
  | noLinkage => "wanted exactly 1 element, found 0 elements"
  | severalLinkages => "wanted exactly 1 element, more than 1 element"
  | notEmptyArray => "expected empty array"
  | notEmptyTable => "expected empty table"
  | notTable typeName => s!"expected table, found {typeName}"
  | integerTooLarge => "integer number overflowed"
  | realTooLarge => "floating-point number overflowed"

/-- The misfit of a value that is not of the expected type. -/
def wrongType (value : Value) (expected : String) : Misfit :=
  match value with
  | .string text => .invalidType ("string " ++ Text.quoted text) expected
  | .integer value =>
    if -(Int.pow 2 63) ≤ value ∧ value < Int.pow 2 64 then
      .invalidType s!"integer `{value}`" expected
    else if -(Int.pow 2 127) ≤ value ∧ value < Int.pow 2 127 then
      .invalidType s!"integer `{value}` as i128" expected
    else if 0 ≤ value ∧ value < Int.pow 2 128 then
      .invalidType s!"integer `{value}` as u128" expected
    else .integerTooLarge
  | .real (.finite negative magnitude) =>
    if magnitude.overflows then .realTooLarge
    else
      .invalidType ("floating point `" ++ Layout.plain.double negative magnitude ++ "`") expected
  | .real (.infinite negative) =>
    .invalidType (if negative then "floating point `-inf`" else "floating point `inf`") expected
  | .real .notANumber => .invalidType "floating point `NaN`" expected
  | .boolean value => .invalidType s!"boolean `{value}`" expected
  | .datetime => .invalidType "map" expected
  | .array .. => .invalidType "sequence" expected
  | .table .. => .invalidType "map" expected

/-- Why a document gives no settings. -/
inductive Error where
  | notToml
  | misfit (span : Span) (reason : Misfit)

/-! ### Fitting a document -/

def readText (expected : String) : Spanned → Except Error String
  | (_, .string text) => .ok text
  | (span, value) => .error (.misfit span (wrongType value expected))

def readBool : Spanned → Except Error Bool
  | (_, .boolean value) => .ok value
  | (span, value) => .error (.misfit span (wrongType value "a boolean"))

/-- Linkage without a path may be given as an empty list or table. -/
def readEmpty : Spanned → Except Error Unit
  | (span, .array _ elements) =>
    if elements.isEmpty then .ok () else .error (.misfit span .notEmptyArray)
  | (span, .table _ entries) =>
    if entries.isEmpty then .ok () else .error (.misfit span .notEmptyTable)
  | (span, value) => .error (.misfit span (.notTable value.typeName))

def inlineName : String := "inline"

def requireName : String := "require"

def readLinkage : Spanned → Except Error Script.Linkage
  | (span, .string name) =>
    if name = inlineName then .ok .inline
    else if name = requireName then .error (.misfit span .linkageWithoutPath)
    else .error (.misfit span (.unknownLinkage name))
  | (span, .table _ []) => .error (.misfit span .noLinkage)
  | (_, .table _ [(key, value)]) =>
    if key.name = inlineName then do
      readEmpty value
      return .inline
    else if key.name = requireName then do return .require (← readText "a string" value)
    else .error (.misfit key.span (.unknownLinkage key.name))
  | (span, .table _ _) => .error (.misfit span .severalLinkages)
  | (span, _) => .error (.misfit span .neitherTextNorTable)

/-- Takes over one entry of a document. -/
def readEntry (settings : Settings) : Key × Spanned → Except Error Settings
  | (key, value) =>
    if key.name = "out_dir" then do
      return { settings with outDir := some ⟨← readText "path string" value⟩ }
    else if key.name = "runtime" then do
      return { settings with linkage := ← readLinkage value }
    else if key.name = "eliminate_dead_bindings" then do
      return { settings with eliminateDead := ← readBool value }
    else if key.name = "memoize_pure_calls" then do
      return { settings with memoizePure := ← readBool value }
    else .error (.misfit key.span (.unknownField key.name))

/-- The settings of a document; what it does not mention is left as it is by default. -/
def parse (source : String) : Except Error Settings :=
  match Toml.parse? source with
  | none => .error .notToml
  | some entries => entries.foldlM readEntry {}

/-! ### Messages -/

/-- The number of characters in the first bytes of a line. -/
def charsIn : Nat → List Char → Nat
  | _, [] => 0
  | bytes, c :: cs => if bytes < c.utf8Size then 0 else charsIn (bytes - c.utf8Size) cs + 1

def blanks (count : Nat) : String :=
  String.ofList (List.replicate count ' ')

/-- The place of a misfit: its line, and marks under what was written there. -/
def excerpt (source : String) (span : Span) : String :=
  let text := source.toList
  let total := Text.byteLength text
  let start := total - span.start
  let position := Text.Position.ofOffset text start
  let line := (source.splitOn "\n").getD (position.line - 1) ""
  let column := charsIn position.column line.toList
  let marks := min (span.start - span.stop) (line.utf8ByteSize - column)
  let label := toString position.line
  let gutter := blanks (label.length + 1) ++ "|"
  s!"TOML parse error at line {label}, column {column + 1}\n" ++
    gutter ++ "\n" ++
    label ++ " | " ++ line ++ "\n" ++
    gutter ++ blanks (column + 1) ++ String.ofList (List.replicate (max marks 1) '^') ++ "\n"

/-- The message of an error; a text that is not TOML is not explained further. -/
def Error.message (error : Error) (source : String) : String :=
  match error with
  | .notToml => "Could not read config"
  | .misfit span reason =>
    "Could not read config: " ++ excerpt source span ++ reason.message ++ "\n"

def knownKeys : String :=
  "Known keys are out_dir, runtime, eliminate_dead_bindings and memoize_pure_calls"

def Error.diagnostic (error : Error) (source : String) : Diagnostic where
  category := .config
  message := error.message source
  suggestion := some knownKeys

end TreeScript.Settings
