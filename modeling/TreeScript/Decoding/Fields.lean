/-
This file decodes records. A record is written either as an object, whose known
members may come in any order among unknown ones, or as a list of its fields in
their declared order. Members are decoded in the order in which they are
written; a known member that comes twice is a flaw where it comes again, and
missing members are noticed last, in declared order.
-/

import TreeScript.Decoding.Flaw

namespace TreeScript.Decoding

/-- A named part of a record and how its value is decoded. -/
structure Field (α : Type) where
  name : String
  read : Json → Except Flaw α

namespace Field

variable {α : Type}

/-- Decodes a member unless the field was already given. -/
def fill (field : Field α) (given : Option α) (json : Json) : Except Flaw (Option α) :=
  match given with
  | some _ => .error (.duplicateField field.name)
  | none => (field.read json).map some

def require (field : Field α) : Option α → Except Flaw α
  | some value => .ok value
  | none => .error (.missingField field.name)

/-- Decodes the field at a position of a list. -/
def take (field : Field α) (owner : Expected) (position : Nat) :
    List Json → Except Flaw (α × List Json)
  | [] => .error (.invalidLength position owner)
  | json :: rest => (field.read json).map (·, rest)

end Field

/-- The written form of a record. -/
inductive Record where
  | named (members : List (String × Json))
  | positional (elements : List Json)

namespace Record

variable {α β γ : Type}

/-- Refuses elements after the last field. -/
def close (count : Nat) (rest : List Json) : Except Flaw Unit :=
  if rest.isEmpty then .ok () else .error (.invalidLength (count + rest.length) (.elements count))

def one (owner : Nat → Expected) (first : Field α) : Record → Except Flaw α
  | named members => do
    let given ← members.foldlM (fun given (key, json) =>
      if key = first.name then first.fill given json else pure given) none
    first.require given
  | positional elements => do
    let (a, rest) ← first.take (owner 1) 0 elements
    close 1 rest
    return a

def two (owner : Nat → Expected) (first : Field α) (second : Field β) :
    Record → Except Flaw (α × β)
  | named members => do
    let (a, b) ← members.foldlM (fun (a, b) (key, json) => do
      if key = first.name then return (← first.fill a json, b)
      else if key = second.name then return (a, ← second.fill b json)
      else return (a, b)) (none, none)
    return (← first.require a, ← second.require b)
  | positional elements => do
    let (a, rest) ← first.take (owner 2) 0 elements
    let (b, rest) ← second.take (owner 2) 1 rest
    close 2 rest
    return (a, b)

def three (owner : Nat → Expected) (first : Field α) (second : Field β) (third : Field γ) :
    Record → Except Flaw (α × β × γ)
  | named members => do
    let (a, b, c) ← members.foldlM (fun (a, b, c) (key, json) => do
      if key = first.name then return (← first.fill a json, b, c)
      else if key = second.name then return (a, ← second.fill b json, c)
      else if key = third.name then return (a, b, ← third.fill c json)
      else return (a, b, c)) (none, none, none)
    return (← first.require a, ← second.require b, ← third.require c)
  | positional elements => do
    let (a, rest) ← first.take (owner 3) 0 elements
    let (b, rest) ← second.take (owner 3) 1 rest
    let (c, rest) ← third.take (owner 3) 2 rest
    close 3 rest
    return (a, b, c)

end Record

/-! ### Simple values -/

def readText : Json → Except Flaw String
  | .string value => .ok value
  | json => .error (.invalidType (.ofJson json) .text)

def readBool : Json → Except Flaw Bool
  | .bool value => .ok value
  | json => .error (.invalidType (.ofJson json) .boolean)

/-- An integer of the language; larger unsigned ones are told apart from values of another type. -/
def readInteger : Json → Except Flaw Int64
  | .integer value =>
    if value ≤ Int64.maxValue.toInt then .ok (.ofInt value)
    else .error (.invalidValue value .integer)
  | json => .error (.invalidType (.ofJson json) .integer)

def readOperator (json : Json) : Except Flaw BinaryOp := do
  let text ← readText json
  match BinaryOp.ofName? text with
  | some op => return op
  | none => .error (.unsupportedOperator text)

def readList {α : Type} (read : Json → Except Flaw α) : Json → Except Flaw (List α)
  | .array elements => elements.mapM read
  | json => .error (.invalidType (.ofJson json) .sequence)

/-- An identifier is a record of its own with the text as its only field. -/
def readIdentifier (json : Json) : Except Flaw String :=
  let fields := Record.one (fun _ => .identifierFields) ⟨"text", readText⟩
  match json with
  | .object members => fields (.named members)
  | .array elements => fields (.positional elements)
  | json => .error (.invalidType (.ofJson json) .identifier)

end TreeScript.Decoding
