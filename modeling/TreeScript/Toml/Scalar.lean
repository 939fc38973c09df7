/-
This file reads the scalars of TOML 1.1 off the front of a text: keys, the four
kinds of strings, numbers, booleans, dates and times. A reader answers a value
with what remains after it, or nothing if the text does not start with one.
-/

import TreeScript.Toml.Value
import TreeScript.Text.Position

namespace TreeScript.Toml

open Text Decimal

def isSpace (c : Char) : Bool :=
  c = ' ' || c = '\t'

def skipSpace (text : List Char) : List Char :=
  text.dropWhile isSpace

/-- Whether a character is a control other than the tab. -/
def isForbidden (c : Char) : Bool :=
  (c.toNat < 0x20 && c ≠ '\t') || c.toNat = 0x7F

/-- Takes a line end off the front. -/
def newline? : List Char → Option (List Char)
  | '\n' :: rest => some rest
  | '\r' :: '\n' :: rest => some rest
  | _ => none

/-- Skips a comment, if there is one, up to the end of its line. -/
def comment? (text : List Char) : Option (List Char) :=
  match text with
  | '#' :: rest =>
    let rest := rest.dropWhile fun c => !isForbidden c
    if rest.isEmpty || (newline? rest).isSome then some rest else none
  | _ => some text

/-- The stretch between two places of a text, given by what remains there. -/
def spanBetween (start stop : List Char) : Span :=
  ⟨byteLength start, byteLength stop⟩

/-! ### Strings -/

def hexValue? (c : Char) : Option Nat :=
  if '0' ≤ c ∧ c ≤ '9' then some (c.toNat - '0'.toNat)
  else if 'a' ≤ c ∧ c ≤ 'f' then some (c.toNat - 'a'.toNat + 10)
  else if 'A' ≤ c ∧ c ≤ 'F' then some (c.toNat - 'A'.toNat + 10)
  else none

/-- Reads a code point written by the given number of digits. -/
def codePoint? (value : Nat) : Nat → List Char → Option (Char × List Char)
  | 0, text => if h : value.isValidChar then some (Char.ofNatAux value h, text) else none
  | count + 1, c :: text => do codePoint? (value * 16 + (← hexValue? c)) count text
  | _ + 1, [] => none

/-- Reads an escape after its backslash. -/
def escape? : List Char → Option (Char × List Char)
  | 'b' :: rest => some ('\x08', rest)
  | 't' :: rest => some ('\t', rest)
  | 'n' :: rest => some ('\n', rest)
  | 'f' :: rest => some ('\x0c', rest)
  | 'r' :: rest => some ('\r', rest)
  | 'e' :: rest => some ('\x1b', rest)
  | '"' :: rest => some ('"', rest)
  | '\\' :: rest => some ('\\', rest)
  | 'x' :: rest => codePoint? 0 2 rest
  | 'u' :: rest => codePoint? 0 4 rest
  | 'U' :: rest => codePoint? 0 8 rest
  | _ => none

/-- Reads a string after its opening quote, for at most the given number of characters. -/
def basicBody (done : List Char) : Nat → List Char → Option (String × List Char)
  | _, '"' :: rest => some (String.ofList done.reverse, rest)
  | count + 1, '\\' :: rest => do
    let (c, rest) ← escape? rest
    basicBody (c :: done) count rest
  | count + 1, c :: rest => if isForbidden c then none else basicBody (c :: done) count rest
  | _, _ => none

/-- Reads a string without escapes after its opening quote. -/
def literalBody (text : List Char) : Option (String × List Char) :=
  let body := text.takeWhile fun c => c ≠ '\x27' && !isForbidden c
  match text.drop body.length with
  | '\x27' :: rest => some (String.ofList body, rest)
  | _ => none

/-- Closes a string of several lines at its closing quotes; up to two more quotes before them
belong to the string. -/
def closeLong (quote : Char) (done text : List Char) : Option (String × List Char) :=
  let quotes := (text.takeWhile (· = quote)).length
  if quotes < 3 then none
  else
    let kept := min (quotes - 3) 2
    some (String.ofList (done.reverse ++ List.replicate kept quote), text.drop (kept + 3))

/-- Skips blanks and line ends. -/
def skipLines : List Char → List Char
  | [] => []
  | '\r' :: '\n' :: rest => skipLines rest
  | c :: rest => if isSpace c || c = '\n' then skipLines rest else c :: rest

/-- Reads a string of several lines after its opening quotes and the line end that may follow
them, for at most the given number of characters. Line ends are kept as they are written, and one
after a backslash is dropped with all blanks and line ends after it. -/
def longBody (quote : Char) (escapes : Bool) (done : List Char) :
    Nat → List Char → Option (String × List Char)
  | 0, _ => none
  | count + 1, text =>
    match closeLong quote done text with
    | some result => some result
    | none =>
      match text with
      | [] => none
      | '\n' :: rest => longBody quote escapes ('\n' :: done) count rest
      | '\r' :: '\n' :: rest => longBody quote escapes ('\n' :: '\r' :: done) count rest
      | c :: rest =>
        if c = '\\' ∧ escapes then
          if (newline? (skipSpace rest)).isSome then
            longBody quote escapes done count (skipLines rest)
          else do
            let (c, rest) ← escape? rest
            longBody quote escapes (c :: done) count rest
        else if isForbidden c then none
        else longBody quote escapes (c :: done) count rest

/-- Drops the line end right after the opening quotes. -/
def dropFirstNewline (text : List Char) : List Char :=
  (newline? text).getD text

/-- Reads a string of any kind. -/
def string? (text : List Char) : Option (String × List Char) :=
  let count := text.length + 1
  match text with
  | '"' :: '"' :: '"' :: rest => longBody '"' true [] count (dropFirstNewline rest)
  | '\x27' :: '\x27' :: '\x27' :: rest => longBody '\x27' false [] count (dropFirstNewline rest)
  | '"' :: rest => basicBody [] count rest
  | '\x27' :: rest => literalBody rest
  | _ => none

/-! ### Keys -/

def isBareKeyChar (c : Char) : Bool :=
  c.isAlphanum || c = '_' || c = '-'

/-- Reads a key without dots. -/
def simpleKey? (text : List Char) : Option (Key × List Char) := do
  let (name, rest) ← match text with
    | '"' :: rest => basicBody [] (text.length + 1) rest
    | '\x27' :: rest => literalBody rest
    | _ =>
      let bare := text.takeWhile isBareKeyChar
      if bare.isEmpty then none else some (String.ofList bare, text.drop bare.length)
  return (⟨name, spanBetween text rest⟩, rest)

/-- Reads the parts of a key, of which there may be at most the given number. -/
def keyParts? : Nat → List Char → Option (List Key × List Char)
  | 0, _ => none
  | count + 1, text => do
    let (key, rest) ← simpleKey? text
    match skipSpace rest with
    | '.' :: more =>
      let (keys, rest) ← keyParts? count (skipSpace more)
      return (key :: keys, rest)
    | _ => return ([key], rest)

/-- The greatest depth of a document: of lists and inline tables inside one another, and of the
parts of a key. -/
def depthLimit : Nat := 80

/-- Reads the parts of a key. -/
def keyPath? (text : List Char) : Option (List Key × List Char) :=
  keyParts? depthLimit text

/-! ### Numbers -/

def isDigit (c : Char) : Bool :=
  '0' ≤ c && c ≤ '9'

/-- The digits of a number in which single underscores may stand between digits. -/
def groupedDigits? (isDigit : Char → Bool) : List Char → Option (List Char)
  | [] => none
  | [c] => if isDigit c then some [c] else none
  | c :: '_' :: rest =>
    if isDigit c then (groupedDigits? isDigit rest).map (c :: ·) else none
  | c :: rest => if isDigit c then (groupedDigits? isDigit rest).map (c :: ·) else none

def valueOf (base : Nat) (digits : List Char) : Nat :=
  digits.foldl (fun value c => value * base + (hexValue? c).getD 0) 0

/-- Whole decimal digits, without zeros in front. -/
def wholeDigits? (text : List Char) : Option (List Char) := do
  let digits ← groupedDigits? isDigit text
  if digits.length > 1 && digits.head? == some '0' then none else some digits

/-- Takes a sign off the front. -/
def sign (text : List Char) : Bool × List Char :=
  match text with
  | '-' :: rest => (true, rest)
  | '+' :: rest => (false, rest)
  | _ => (false, text)

/-- An integer in another base, which has no sign. -/
def based? (base : Nat) (isDigit : Char → Bool) (text : List Char) : Option Value := do
  let digits ← groupedDigits? isDigit text
  return .integer (valueOf base digits)

def integer? : List Char → Option Value
  | '0' :: 'x' :: digits => based? 16 (fun c => (hexValue? c).isSome) digits
  | '0' :: 'o' :: digits => based? 8 (fun c => '0' ≤ c && c ≤ '7') digits
  | '0' :: 'b' :: digits => based? 2 (fun c => c = '0' || c = '1') digits
  | text => do
    let (negative, text) := sign text
    let value := valueOf 10 (← wholeDigits? text)
    return .integer (if negative then -(value : Int) else value)

/-- The number of an exponent with its sign. -/
def exponent? (text : List Char) : Option Int := do
  let (negative, text) := sign text
  let value := valueOf 10 (← groupedDigits? isDigit text)
  return if negative then -(value : Int) else value

def isExponentMark (c : Char) : Bool :=
  c = 'e' || c = 'E'

/-- A number with a fraction or an exponent. -/
def real? (text : List Char) : Option Value := do
  let (negative, text) := sign text
  if text = ['i', 'n', 'f'] then return .real (.infinite negative)
  if text = ['n', 'a', 'n'] then return .real .notANumber
  let mantissa := text.takeWhile fun c => !isExponentMark c
  let exponent ← match text.dropWhile fun c => !isExponentMark c with
    | _ :: exponent => exponent? exponent
    | [] => some 0
  let whole ← wholeDigits? (mantissa.takeWhile (· ≠ '.'))
  let fraction ← match mantissa.dropWhile (· ≠ '.') with
    | _ :: fraction => groupedDigits? isDigit fraction
    | [] => if mantissa.length = text.length then none else some []
  let digits := valueOf 10 (whole ++ fraction)
  -- Beyond these bounds every number is too large or rounds to zero.
  let bound : Int := text.length + 5000
  let exponent := max (-bound) (min bound exponent)
  return .real (.finite negative (.ofDecimal digits (exponent - fraction.length)))

/-! ### Dates and times -/

def twoDigits? : List Char → Option (Nat × List Char)
  | a :: b :: rest =>
    if isDigit a && isDigit b then some (valueOf 10 [a, b], rest) else none
  | _ => none

def isLeapYear (year : Nat) : Bool :=
  year % 4 = 0 && (year % 100 ≠ 0 || year % 400 = 0)

def daysInMonth (year month : Nat) : Nat :=
  if month = 2 then if isLeapYear year then 29 else 28
  else if month = 4 ∨ month = 6 ∨ month = 9 ∨ month = 11 then 30
  else 31

/-- Takes a date off the front. -/
def date? (text : List Char) : Option (List Char) := do
  let (century, text) ← twoDigits? text
  let (year, text) ← twoDigits? text
  let '-' :: text := text | none
  let (month, text) ← twoDigits? text
  let '-' :: text := text | none
  let (day, text) ← twoDigits? text
  if 1 ≤ month && month ≤ 12 && 1 ≤ day && day ≤ daysInMonth (century * 100 + year) month then
    some text
  else none

/-- Takes an hour and a minute off the front. -/
def hourMinute? (text : List Char) : Option (List Char) := do
  let (hour, text) ← twoDigits? text
  let ':' :: text := text | none
  let (minute, text) ← twoDigits? text
  if hour < 24 && minute < 60 then some text else none

/-- Takes a time off the front; seconds and their fraction may be missing. -/
def time? (text : List Char) : Option (List Char) := do
  let text ← hourMinute? text
  match text with
  | ':' :: text =>
    let (second, text) ← twoDigits? text
    if 60 < second then none
    else
      match text with
      | '.' :: fraction =>
        if (fraction.takeWhile isDigit).isEmpty then none else some (fraction.dropWhile isDigit)
      | _ => some text
  | _ => some text

/-- Whether a text is the offset of a time, or empty. -/
def isOffset : List Char → Bool
  | [] => true
  | ['Z'] => true
  | ['z'] => true
  | c :: text => (c = '+' || c = '-') && hourMinute? text == some []

/-- A date, a time, or both. -/
def datetime? (text : List Char) : Option Value :=
  match date? text with
  | some [] => some .datetime
  | some (mark :: text) =>
    if mark = 'T' || mark = 't' || mark = ' ' then
      match time? text with
      | some rest => if isOffset rest then some .datetime else none
      | none => none
    else none
  | none => if time? text == some [] then some .datetime else none

/-! ### Scalars -/

def isScalarChar (c : Char) : Bool :=
  c.isAlphanum || c = '_' || c = '-' || c = '+' || c = '.' || c = ':'

/-- The characters of a scalar that is not a string. A date may be divided from its time by a
blank. -/
def scalarChars (text : List Char) : List Char :=
  let first := text.takeWhile isScalarChar
  match text.drop first.length with
  | ' ' :: c :: rest =>
    if date? first == some [] && isDigit c then
      first ++ ' ' :: (c :: rest).takeWhile isScalarChar
    else first
  | _ => first

/-- Reads a scalar. -/
def scalar? (text : List Char) : Option (Value × List Char) :=
  match text with
  | [] => none
  | c :: _ =>
    if c = '"' ∨ c = '\x27' then (string? text).map fun (text, rest) => (.string text, rest)
    else do
      let chars := scalarChars text
      let value ←
        if chars = ['t', 'r', 'u', 'e'] then some (.boolean true)
        else if chars = ['f', 'a', 'l', 's', 'e'] then some (.boolean false)
        else integer? chars <|> real? chars <|> datetime? chars
      return (value, text.drop chars.length)

end TreeScript.Toml
