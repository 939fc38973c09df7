/-
This file decodes programs from text. The outermost record is decoded while the
text is read, so its flaws and defects of the text come out in the order in
which they stand there. The root term is read to its end before it is decoded,
except that its kind, which must be a name, is checked as soon as it has been
read. A flaw of the outermost record is located where reading goes on after the
record has been closed as far as its text allows.
-/

import TreeScript.Json.Reader
import TreeScript.Decoding.Term

namespace TreeScript

namespace Decoding

open Text

abbrev Fault := Text.Fault Defect

def ofJsonReading {α : Type} (reading : Except Json.Fault α) : Except Fault α :=
  reading.mapError (·.map .malformed)

def flawAt {α : Type} (rest : List Char) (flaw : Flaw) : Except Fault α :=
  .error (.before rest (.flawed flaw))

/-- The text after an object has been left, whether it could be closed or not. -/
def leaveObject (text : List Char) : List Char :=
  match Json.skipBlank text with
  | c :: rest => if c = '\x7d' then rest else c :: rest
  | [] => []

/-- The text after a list has been left, whether it could be closed or not. -/
def leaveList (text : List Char) : List Char :=
  match Json.skipBlank text with
  | c :: rest =>
    if c = ']' then rest else if c = ',' then Json.skipBlank rest else c :: rest
  | [] => []

/-- The fault of a value that is not of the expected type. Lists and objects are not looked into;
the text starts with no blank. -/
def unexpected {α : Type} (expected : Expected) (text : List Char) : Except Fault α :=
  match text with
  | '[' :: _ => flawAt text (.invalidType .sequence expected)
  | '\x7b' :: _ => flawAt text (.invalidType .map expected)
  | _ =>
    match Json.scalar text with
    | .ok (json, rest) => flawAt rest (.invalidType (.ofJson json) expected)
    | .error fault => .error (fault.map .malformed)

/-- Reads a string that is expected at this place. -/
def text (expected : Expected) (input : List Char) : Except Fault (String × List Char) :=
  match Json.skipBlank input with
  | [] => .error (.before [] (.malformed .endInValue))
  | '"' :: rest => ofJsonReading (Json.stringBody [] rest)
  | other => unexpected expected other

/-! ### The root term -/

/-- Reads the kind of the root term. -/
def rootKind (input : List Char) : Except Fault (Kind × List Char) := do
  let (name, rest) ← text .kind input
  match readKindName name with
  | .ok kind => return (kind, rest)
  | .error flaw => flawAt rest flaw

/-- Reads the members of the root term up to its closing brace. -/
def rootMembers : Nat → Bool → Option Kind → List (String × Json) → List Char →
    Except Fault ((Kind × Record) × List Char)
  | 0, _, _, _, input => .error (.next input (.malformed .expectedValue))
  | count + 1, isFirst, kind, done, input => do
    match ← ofJsonReading (Json.nextKey isFirst input) with
    | none =>
      match kind with
      | some kind => return ((kind, .named done.reverse), input)
      | none => flawAt (leaveObject input) (.missingField kindKey)
    | some (key, rest) =>
      if key = kindKey then
        if kind.isSome then flawAt (leaveObject rest) (.duplicateField kindKey)
        else
          let (kind, rest) ← rootKind (← ofJsonReading (Json.colon rest))
          rootMembers count false (some kind) done rest
      else
        let (json, rest) ← ofJsonReading do Json.value count (← Json.colon rest)
        rootMembers count false kind ((key, json) :: done) rest

/-- Reads the root term to its end, with its kind checked on the way. -/
def rootRecord (input : List Char) : Except Fault ((Kind × Record) × List Char) := do
  let input := Json.skipBlank input
  let count := Json.enough input
  match input with
  | [] => .error (.before [] (.malformed .endInValue))
  | '[' :: rest =>
    match ← ofJsonReading (Json.nextElement true rest) with
    | none => flawAt (leaveList rest) (.missingField kindKey)
    | some rest =>
      let (kind, rest) ← rootKind rest
      let (fields, rest) ← ofJsonReading (Json.elements count false [] rest)
      return ((kind, .positional fields), ← ofJsonReading (Json.closeList rest))
  | '\x7b' :: rest =>
    let (tagged, rest) ← rootMembers count true none [] rest
    return (tagged, ← ofJsonReading (Json.closeObject rest))
  | other => unexpected .term other

/-- Reads and decodes the root term; `leave` is how the record around it is left on a flaw. -/
def rootTerm (leave : List Char → List Char) (input : List Char) : Except Fault (Term × List Char) := do
  let ((kind, record), rest) ← rootRecord input
  match readRecord kind record with
  | .ok term => return (term, rest)
  | .error flaw => flawAt (leave rest) flaw

/-! ### The outermost record -/

def nameKey : String := "name"

def expressionKey : String := "expression"

/-- Reads the members of a program up to its closing brace. -/
def programMembers : Nat → Bool → Option String → Option Term → List Char → Except Fault (Program × List Char)
  | 0, _, _, _, input => .error (.next input (.malformed .expectedValue))
  | count + 1, isFirst, name, expression, input => do
    match ← ofJsonReading (Json.nextKey isFirst input) with
    | none =>
      match expression with
      | some expression => return (⟨name.getD "", expression⟩, input)
      | none => flawAt (leaveObject input) (.missingField expressionKey)
    | some (key, rest) =>
      if key = nameKey then
        if name.isSome then flawAt (leaveObject rest) (.duplicateField nameKey)
        else
          let (name, rest) ← text .text (← ofJsonReading (Json.colon rest))
          programMembers count false (some name) expression rest
      else if key = expressionKey then
        if expression.isSome then flawAt (leaveObject rest) (.duplicateField expressionKey)
        else
          let (term, rest) ← rootTerm leaveObject (← ofJsonReading (Json.colon rest))
          programMembers count false name (some term) rest
      else
        let rest ← ofJsonReading do Json.skipValue (Json.enough rest) (← Json.colon rest)
        programMembers count false name expression rest

/-- Reads the elements of a program written as a list. A missing name is empty. -/
def programElements (input : List Char) : Except Fault (Program × List Char) := do
  match ← ofJsonReading (Json.nextElement true input) with
  | none => flawAt (leaveList input) (.invalidLength 1 .programFields)
  | some rest =>
    let (name, rest) ← text .text rest
    match ← ofJsonReading (Json.nextElement false rest) with
    | none => flawAt (leaveList rest) (.invalidLength 1 .programFields)
    | some rest =>
      let (term, rest) ← rootTerm leaveList rest
      return (⟨name, term⟩, rest)

/-- Reads a program, blanks before it included. -/
def program (input : List Char) : Except Fault (Program × List Char) := do
  match Json.skipBlank input with
  | [] => .error (.before [] (.malformed .endInValue))
  | '[' :: rest =>
    let (program, rest) ← programElements rest
    return (program, ← ofJsonReading (Json.closeList rest))
  | '\x7b' :: rest =>
    let (program, rest) ← programMembers (Json.enough rest) true none none rest
    return (program, ← ofJsonReading (Json.closeObject rest))
  | other => unexpected .program other

/-- Reads a program that is the whole of a text. -/
def document (input : List Char) : Except Fault Program := do
  let (program, rest) ← program input
  match Json.skipBlank rest with
  | [] => return program
  | rest => .error (.next rest (.malformed .trailingCharacters))

/-- Why and where a document is refused. -/
structure Error where
  defect : Defect
  position : Position

def Error.message (error : Error) : String :=
  s!"{error.defect.message} at {error.position.text}"

end Decoding

/-- The program that a text holds. -/
def Program.parse (source : String) : Except Decoding.Error Program :=
  let input := source.toList
  (Decoding.document input).mapError fun fault => ⟨fault.cause, fault.position input⟩

end TreeScript
