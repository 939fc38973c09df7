/-
This file decodes terms from JSON values. The member `kind`, which may stand
anywhere, decides which fields a term has; below the root it may also be given
as the number of the kind. All kinds are settled before the fields of a term are
looked at.
-/

import TreeScript.Decoding.Fields

namespace TreeScript.Decoding

/-- The member that holds the kind of a term. -/
def kindKey : String := "kind"

def readKindName (name : String) : Except Flaw Kind :=
  match Kind.ofName? name with
  | some kind => .ok kind
  | none => .error (.unknownKind name)

/-- A kind by name or by number. -/
def readKind : Json → Except Flaw Kind
  | .string name => readKindName name
  | .integer index =>
    if index < 0 then .error (.invalidType (.integer index) .kind)
    else
      match Kind.ofIndex? index.toNat with
      | some kind => .ok kind
      | none => .error (.invalidValue index .kindIndex)
  | json => .error (.invalidType (.ofJson json) .kind)

/-- Takes the kind out of the members of a term, in their order. -/
def splitKind (kind : Option Kind) (others : List (String × Json)) :
    List (String × Json) → Except Flaw (Kind × Record)
  | [] =>
    match kind with
    | some kind => .ok (kind, .named others.reverse)
    | none => .error (.missingField kindKey)
  | (key, json) :: members =>
    if key = kindKey then
      match kind with
      | some _ => .error (.duplicateField kindKey)
      | none => do splitKind (some (← readKind json)) others members
    else splitKind kind ((key, json) :: others) members

/-- The kind of a term and the rest of its record. -/
def readTagged : Json → Except Flaw (Kind × Record)
  | .object members => splitKind none [] members
  | .array [] => .error (.missingField kindKey)
  | .array (tag :: fields) => do return (← readKind tag, .positional fields)
  | json => .error (.invalidType (.ofJson json) .term)

/-- Decodes a term of a known kind, with `read` for the terms inside it. -/
def termOfRecord (read : Json → Except Flaw Term) (kind : Kind) (record : Record) :
    Except Flaw Term := do
  let owner := Expected.termFields kind
  match kind with
  | .letIn =>
    let (name, value, next) ←
      record.three owner ⟨"name", readIdentifier⟩ ⟨"value", read⟩ ⟨"next", read⟩
    return .letIn name value next
  | .function =>
    let (parameters, body) ←
      record.two owner ⟨"parameters", readList readIdentifier⟩ ⟨"value", read⟩
    return .function parameters body
  | .ifElse =>
    let (condition, consequent, alternative) ←
      record.three owner ⟨"condition", read⟩ ⟨"then", read⟩ ⟨"otherwise", read⟩
    return .ifElse condition consequent alternative
  | .print => return .print (← record.one owner ⟨"value", read⟩)
  | .call =>
    let (callee, arguments) ←
      record.two owner ⟨"callee", read⟩ ⟨"arguments", readList read⟩
    return .call callee arguments
  | .var => return .var (← record.one owner ⟨"text", readText⟩)
  | .int => return .int (← record.one owner ⟨"value", readInteger⟩)
  | .str => return .str (← record.one owner ⟨"value", readText⟩)
  | .bool => return .bool (← record.one owner ⟨"value", readBool⟩)
  | .binary =>
    let (lhs, op, rhs) ← record.three owner ⟨"lhs", read⟩ ⟨"op", readOperator⟩ ⟨"rhs", read⟩
    return .binary op lhs rhs
  | .tuple =>
    let (left, right) ← record.two owner ⟨"first", read⟩ ⟨"second", read⟩
    return .tuple left right
  | .first => return .first (← record.one owner ⟨"value", read⟩)
  | .second => return .second (← record.one owner ⟨"value", read⟩)

/-- Decodes terms that are nested at most as deep as the count says. -/
def readTerm : Nat → Json → Except Flaw Term
  | 0, json => .error (.invalidType (.ofJson json) .term)
  | depth + 1, json => do
    let (kind, record) ← readTagged json
    termOfRecord (readTerm depth) kind record

/-- Decodes a term of a known kind with everything inside it. -/
def readRecord (kind : Kind) (record : Record) : Except Flaw Term :=
  let depth := match record with
    | .named members => Json.depthMembers members
    | .positional elements => Json.depthElements elements
  termOfRecord (readTerm depth) kind record

end TreeScript.Decoding
