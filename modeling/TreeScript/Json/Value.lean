/-
This file holds JSON values as a document gives them: members stay in the order
in which they were written, repeated keys included, and an integer that fits in
64 bits is kept apart from every other number, which is a double. It also holds
what can be wrong with a text that should be JSON.
-/

import TreeScript.Decimal.Double

namespace TreeScript

open Decimal

/-- A JSON value. An `integer` lies between the least signed and the greatest unsigned 64-bit
number. -/
inductive Json where
  | null
  | bool (value : Bool)
  | integer (value : Int)
  | double (negative : Bool) (magnitude : Double)
  | string (value : String)
  | array (elements : List Json)
  | object (members : List (String × Json))
deriving Inhabited

namespace Json

mutual

/-- The number of values inside one another, the outermost included. -/
def depth : Json → Nat
  | array elements => depthElements elements + 1
  | object members => depthMembers members + 1
  | _ => 1

def depthElements : List Json → Nat
  | [] => 0
  | element :: elements => max element.depth (depthElements elements)

def depthMembers : List (String × Json) → Nat
  | [] => 0
  | (_, value) :: members => max value.depth (depthMembers members)

end

/-- Why a text is not JSON. -/
inductive Cause where
  | endInValue
  | endInString
  | endInObject
  | endInList
  | expectedColon
  | expectedObjectCommaOrEnd
  | expectedListCommaOrEnd
  | expectedIdent
  | expectedValue
  | invalidEscape
  | invalidNumber
  | numberOutOfRange
  | controlCharacter
  | keyMustBeString
  | loneSurrogate
  | unexpectedEndOfEscape
  | trailingComma
  | trailingCharacters
deriving DecidableEq, Repr

def Cause.message : Cause → String
  | endInValue => "EOF while parsing a value"
  | endInString => "EOF while parsing a string"
  | endInObject => "EOF while parsing an object"
  | endInList => "EOF while parsing a list"
  | expectedColon => "expected `:`"
  | expectedObjectCommaOrEnd => "expected `,` or `\x7d`"
  | expectedListCommaOrEnd => "expected `,` or `]`"
  | expectedIdent => "expected ident"
  | expectedValue => "expected value"
  | invalidEscape => "invalid escape"
  | invalidNumber => "invalid number"
  | numberOutOfRange => "number out of range"
  | controlCharacter => "control character (\\u0000-\\u001F) found while parsing a string"
  | keyMustBeString => "key must be a string"
  | loneSurrogate => "lone leading surrogate in hex escape"
  | unexpectedEndOfEscape => "unexpected end of hex escape"
  | trailingComma => "trailing comma"
  | trailingCharacters => "trailing characters"

end Json

end TreeScript
