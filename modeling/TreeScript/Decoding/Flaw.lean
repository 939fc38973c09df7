/-
This file names what can be wrong with a document that is JSON but no program,
and words it. A flaw says what was found and what was expected there; the words
of an expectation are the schema's own names for its parts.
-/

import TreeScript.Term
import TreeScript.Json.Value
import TreeScript.Decimal.Shortest
import TreeScript.Text.Quoted

namespace TreeScript.Decoding

open Decimal

/-- The shape of a value that stands where another one was expected. -/
inductive Found where
  | null
  | bool (value : Bool)
  | integer (value : Int)
  | double (negative : Bool) (magnitude : Double)
  | string (value : String)
  | sequence
  | map

def Found.ofJson : Json → Found
  | .null => null
  | .bool value => bool value
  | .integer value => integer value
  | .double negative magnitude => double negative magnitude
  | .string value => string value
  | .array _ => sequence
  | .object _ => map

def Found.phrase : Found → String
  | null => "null"
  | bool value => s!"boolean `{value}`"
  | integer value => s!"integer `{value}`"
  | double negative magnitude =>
    "floating point `" ++ Layout.compact.double negative magnitude ++ "`"
  | string value => "string " ++ Text.quoted value
  | sequence => "sequence"
  | map => "map"

/-- What a place in the document holds. -/
inductive Expected where
  | program
  | identifier
  | term
  | kind
  | kindIndex
  | integer
  | boolean
  | text
  | sequence
  | programFields
  | identifierFields
  | termFields (kind : Kind) (count : Nat)
  | elements (count : Nat)

def countPhrase (count : Nat) : String :=
  if count = 1 then "1 element" else s!"{count} elements"

def Expected.phrase : Expected → String
  | program => "struct AstFile"
  | identifier => "struct Identifier"
  | term => "internally tagged enum Term"
  | kind => "variant identifier"
  | kindIndex => s!"variant index 0 <= i < {Kind.all.length}"
  | integer => "i64"
  | boolean => "a boolean"
  | text => "a string"
  | sequence => "a sequence"
  | programFields => s!"struct AstFile with {countPhrase 2}"
  | identifierFields => s!"struct Identifier with {countPhrase 1}"
  | termFields owner count => s!"struct variant Term::{owner.name} with {countPhrase count}"
  | elements count => s!"{countPhrase count} in sequence"

/-- What is wrong with a value of a document. -/
inductive Flaw where
  | missingField (name : String)
  | duplicateField (name : String)
  | invalidType (found : Found) (expected : Expected)
  | invalidValue (value : Int) (expected : Expected)
  | invalidLength (count : Nat) (expected : Expected)
  | unknownKind (name : String)
  | unsupportedOperator (text : String)

/-- Names in backquotes, separated by commas. -/
def nameList (names : List String) : String :=
  ", ".intercalate (names.map fun name => s!"`{name}`")

def Flaw.message : Flaw → String
  | missingField name => s!"missing field `{name}`"
  | duplicateField name => s!"duplicate field `{name}`"
  | invalidType found expected => s!"invalid type: {found.phrase}, expected {expected.phrase}"
  | invalidValue value expected =>
    s!"invalid value: integer `{value}`, expected {expected.phrase}"
  | invalidLength count expected => s!"invalid length {count}, expected {expected.phrase}"
  | unknownKind name =>
    s!"unknown variant `{name}`, expected one of {nameList (Kind.all.map Kind.name)}"
  | unsupportedOperator text => BinaryOp.unsupported text

/-- Why a document is refused: it is not JSON, or it is no program. -/
inductive Defect where
  | malformed (cause : Json.Cause)
  | flawed (flaw : Flaw)

def Defect.message : Defect → String
  | malformed cause => cause.message
  | flawed flaw => flaw.message

end TreeScript.Decoding
