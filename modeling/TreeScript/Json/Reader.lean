/-
This file reads whole JSON values. Lists and objects are walked by the same two
steps, "is there another element" and "is there another key", which are also
what a caller uses that decodes a document while it is being read. Values that
nobody asks for are skipped by a second, laxer reader that checks their shape
only. Nesting is bounded by a count taken from the length of the text, so it is
never the reason to refuse one.
-/

import TreeScript.Json.Scalar

namespace TreeScript.Json

open Text

/-! ### Steps through lists and objects -/

/-- Moves to the next element of a list, or answers `none` in front of the closing bracket. -/
def nextElement (isFirst : Bool) (text : List Char) : Except Fault (Option (List Char)) :=
  match skipBlank text with
  | [] => .error (.before [] .endInList)
  | c :: rest =>
    if c = ']' then .ok none
    else if c = ',' ∧ ¬isFirst then
      match skipBlank rest with
      | [] => .error (.before [] .endInValue)
      | c :: rest =>
        if c = ']' then .error (.next (c :: rest) .trailingComma) else .ok (some (c :: rest))
    else if isFirst then .ok (some (c :: rest))
    else .error (.next (c :: rest) .expectedListCommaOrEnd)

/-- Reads the next key of an object, or answers `none` in front of the closing brace. -/
def nextKey (isFirst : Bool) (text : List Char) : Except Fault (Option (String × List Char)) :=
  match skipBlank text with
  | [] => .error (.before [] .endInObject)
  | c :: rest =>
    if c = '\x7d' then .ok none
    else if c = ',' ∧ ¬isFirst then
      match skipBlank rest with
      | [] => .error (.before [] .endInValue)
      | c :: rest =>
        if c = '"' then (stringBody [] rest).map some
        else if c = '\x7d' then .error (.next (c :: rest) .trailingComma)
        else .error (.next (c :: rest) .keyMustBeString)
    else if isFirst then
      if c = '"' then (stringBody [] rest).map some
      else .error (.next (c :: rest) .keyMustBeString)
    else .error (.next (c :: rest) .expectedObjectCommaOrEnd)

/-- Takes the colon between a key and its value. -/
def colon (text : List Char) : Except Fault (List Char) :=
  match skipBlank text with
  | [] => .error (.before [] .endInObject)
  | c :: rest => if c = ':' then .ok rest else .error (.next (c :: rest) .expectedColon)

/-- Takes the closing bracket of a list. -/
def closeList (text : List Char) : Except Fault (List Char) :=
  match skipBlank text with
  | [] => .error (.before [] .endInList)
  | c :: rest =>
    if c = ']' then .ok rest
    else if c = ',' then
      match skipBlank rest with
      | d :: more => if d = ']' then .error (.next (d :: more) .trailingComma)
        else .error (.next (d :: more) .trailingCharacters)
      | [] => .error (.next [] .trailingCharacters)
    else .error (.next (c :: rest) .trailingCharacters)

/-- Takes the closing brace of an object. -/
def closeObject (text : List Char) : Except Fault (List Char) :=
  match skipBlank text with
  | [] => .error (.before [] .endInObject)
  | c :: rest =>
    if c = '\x7d' then .ok rest
    else if c = ',' then .error (.next (c :: rest) .trailingComma)
    else .error (.next (c :: rest) .trailingCharacters)

/-! ### Values -/

/-- Reads a scalar; the text starts with a character that is neither a blank nor a bracket. -/
def scalar (text : List Char) : Except Fault (Json × List Char) :=
  match text with
  | [] => .error (.before [] .endInValue)
  | c :: rest =>
    if c = 'n' then (literal ['u', 'l', 'l'] rest).map (Json.null, ·)
    else if c = 't' then (literal ['r', 'u', 'e'] rest).map (Json.bool true, ·)
    else if c = 'f' then (literal ['a', 'l', 's', 'e'] rest).map (Json.bool false, ·)
    else if c = '"' then (stringBody [] rest).map fun (value, rest) => (.string value, rest)
    else if c = '-' then number true rest
    else if isDigit c then number false text
    else .error (.next text .expectedValue)

mutual

/-- Reads one value, blanks before it included. -/
def value : Nat → List Char → Except Fault (Json × List Char)
  | 0, text => .error (.next text .expectedValue)
  | count + 1, text =>
    match skipBlank text with
    | [] => .error (.before [] .endInValue)
    | c :: rest =>
      if c = '[' then do
        let (items, rest) ← elements count true [] rest
        return (.array items, ← closeList rest)
      else if c = '\x7b' then do
        let (fields, rest) ← members count true [] rest
        return (.object fields, ← closeObject rest)
      else scalar (c :: rest)

/-- Reads the elements of a list up to its closing bracket. -/
def elements : Nat → Bool → List Json → List Char → Except Fault (List Json × List Char)
  | 0, _, _, text => .error (.next text .expectedValue)
  | count + 1, isFirst, done, text => do
    match ← nextElement isFirst text with
    | none => return (done.reverse, text)
    | some text =>
      let (item, rest) ← value count text
      elements count false (item :: done) rest

/-- Reads the members of an object up to its closing brace. -/
def members : Nat → Bool → List (String × Json) → List Char → Except Fault (List (String × Json) × List Char)
  | 0, _, _, text => .error (.next text .expectedValue)
  | count + 1, isFirst, done, text => do
    match ← nextKey isFirst text with
    | none => return (done.reverse, text)
    | some (key, rest) =>
      let (item, rest) ← value count (← colon rest)
      members count false ((key, item) :: done) rest

end

/-- A count that no value of a text can use up. -/
def enough (text : List Char) : Nat :=
  2 * text.length + 2

/-! ### Skipping

A skipped string may hold lone surrogates and a skipped number may have any
size; a comma at the end of a list or object is noticed as the missing element
or key after it.
-/

/-- Skips a string after its opening quote. -/
def skipString : List Char → Except Fault (List Char)
  | [] => .error (.before [] .endInString)
  | '"' :: rest => .ok rest
  | '\\' :: rest =>
    match rest with
    | [] => .error (.before [] .endInString)
    | 'u' :: escape =>
      match escape with
      | a :: b :: c :: d :: rest =>
        if (hexUnit? a b c d).isSome then skipString rest else .error (hexFault escape)
      | _ => .error (hexFault escape)
    | letter :: rest =>
      if (shortEscape? letter).isSome then skipString rest
      else .error (.next (letter :: rest) .invalidEscape)
  | c :: rest =>
    if c.toNat < 0x20 then .error (.before (c :: rest) .controlCharacter) else skipString rest

/-- Skips a power of ten after its mark. -/
def skipExponent (text : List Char) : Except Fault (List Char) :=
  let digits := match text with
    | c :: rest => if c = '+' ∨ c = '-' then rest else text
    | [] => text
  match digits with
  | c :: rest =>
    if isDigit c then .ok (rest.dropWhile isDigit) else .error (.next digits .invalidNumber)
  | [] => .error (.before [] .invalidNumber)

/-- Skips what may follow the whole digits of a number. -/
def skipFraction (text : List Char) : Except Fault (List Char) :=
  match text with
  | c :: rest =>
    if c = '.' then
      let after := rest.dropWhile isDigit
      if (rest.takeWhile isDigit).isEmpty then .error (.next rest .invalidNumber)
      else match after with
        | c :: more => if c = 'e' ∨ c = 'E' then skipExponent more else .ok after
        | [] => .ok after
    else if c = 'e' ∨ c = 'E' then skipExponent rest
    else .ok text
  | [] => .ok text

/-- Skips a number after its sign. -/
def skipNumber (text : List Char) : Except Fault (List Char) :=
  match text with
  | [] => .error (.before [] .invalidNumber)
  | c :: rest =>
    if c = '0' then
      match rest with
      | d :: _ => if isDigit d then .error (.next rest .invalidNumber) else skipFraction rest
      | [] => skipFraction rest
    else if isDigit c then skipFraction (rest.dropWhile isDigit)
    else .error (.next text .invalidNumber)

def skipScalar (text : List Char) : Except Fault (List Char) :=
  match text with
  | [] => .error (.before [] .endInValue)
  | c :: rest =>
    if c = 'n' then literal ['u', 'l', 'l'] rest
    else if c = 't' then literal ['r', 'u', 'e'] rest
    else if c = 'f' then literal ['a', 'l', 's', 'e'] rest
    else if c = '"' then skipString rest
    else if c = '-' then skipNumber rest
    else if isDigit c then skipNumber text
    else .error (.next text .expectedValue)

/-- Skips a key and its colon. -/
def skipKey (text : List Char) : Except Fault (List Char) :=
  match skipBlank text with
  | [] => .error (.before [] .endInObject)
  | c :: rest =>
    if c = '"' then skipString rest >>= colon
    else .error (.next (c :: rest) .keyMustBeString)

mutual

/-- Skips one value, blanks before it included. -/
def skipValue : Nat → List Char → Except Fault (List Char)
  | 0, text => .error (.next text .expectedValue)
  | count + 1, text =>
    match skipBlank text with
    | [] => .error (.before [] .endInValue)
    | c :: rest =>
      if c = '[' then
        match skipBlank rest with
        | [] => .error (.before [] .endInList)
        | d :: more => if d = ']' then .ok more else skipElements count rest
      else if c = '\x7b' then
        match skipBlank rest with
        | [] => .error (.before [] .endInObject)
        | d :: more => if d = '\x7d' then .ok more else skipMembers count rest
      else skipScalar (c :: rest)

/-- Skips at least one element and the closing bracket. -/
def skipElements : Nat → List Char → Except Fault (List Char)
  | 0, text => .error (.next text .expectedValue)
  | count + 1, text => do
    match skipBlank (← skipValue count text) with
    | [] => .error (.before [] .endInList)
    | c :: rest =>
      if c = ']' then .ok rest
      else if c = ',' then skipElements count rest
      else .error (.next (c :: rest) .expectedListCommaOrEnd)

/-- Skips at least one member and the closing brace. -/
def skipMembers : Nat → List Char → Except Fault (List Char)
  | 0, text => .error (.next text .expectedValue)
  | count + 1, text => do
    match skipBlank (← skipValue count (← skipKey text)) with
    | [] => .error (.before [] .endInObject)
    | c :: rest =>
      if c = '\x7d' then .ok rest
      else if c = ',' then skipMembers count rest
      else .error (.next (c :: rest) .expectedObjectCommaOrEnd)

end

end TreeScript.Json
