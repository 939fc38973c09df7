/-
This file reads the scalars of JSON off the front of a text: blanks, literals,
strings and numbers. Each reader takes the characters that remain and gives back
a value with what remains after it, or the fault at which it stopped. A number
is read as 64-bit digits: digits that no longer fit only move the decimal point,
and what is not a plain integer becomes a double by scaling in steps.
-/

import TreeScript.Json.Value
import TreeScript.Text.Position

namespace TreeScript.Json

open Text Decimal

abbrev Fault := Text.Fault Cause

def isBlank (c : Char) : Bool :=
  c = ' ' || c = '\n' || c = '\t' || c = '\r'

def skipBlank (text : List Char) : List Char :=
  text.dropWhile isBlank

/-! ### Literals -/

/-- Takes the given characters off the front. -/
def literal : List Char → List Char → Except Fault (List Char)
  | [], text => .ok text
  | _ :: _, [] => .error (.before [] .endInValue)
  | expected :: others, c :: text =>
    if c = expected then literal others text else .error (.next (c :: text) .expectedIdent)

/-! ### Strings -/

/-- The value of a hexadecimal digit. -/
def hexDigit? (c : Char) : Option Nat :=
  if '0' ≤ c ∧ c ≤ '9' then some (c.toNat - '0'.toNat)
  else if 'a' ≤ c ∧ c ≤ 'f' then some (c.toNat - 'a'.toNat + 10)
  else if 'A' ≤ c ∧ c ≤ 'F' then some (c.toNat - 'A'.toNat + 10)
  else none

/-- The number written by four hexadecimal digits. -/
def hexUnit? (a b c d : Char) : Option Nat := do
  let a ← hexDigit? a
  let b ← hexDigit? b
  let c ← hexDigit? c
  let d ← hexDigit? d
  return ((a * 16 + b) * 16 + c) * 16 + d

/-- The fault of a text that does not start with four hexadecimal digits: four bytes are looked
at, whatever characters they belong to. -/
def hexFault (text : List Char) : Fault :=
  if byteLength text < 4 then .before [] .endInString else ⟨.invalidEscape, text, 4⟩

/-- The character that a letter after a backslash stands for. -/
def shortEscape? (c : Char) : Option Char :=
  if c = '"' then some '"'
  else if c = '\\' then some '\\'
  else if c = '/' then some '/'
  else if c = 'b' then some '\x08'
  else if c = 'f' then some '\x0c'
  else if c = 'n' then some '\n'
  else if c = 'r' then some '\r'
  else if c = 't' then some '\t'
  else none

def isLeadingSurrogate (unit : Nat) : Bool :=
  0xD800 ≤ unit && unit ≤ 0xDBFF

def isTrailingSurrogate (unit : Nat) : Bool :=
  0xDC00 ≤ unit && unit ≤ 0xDFFF

/-- The character of a surrogate pair. -/
def pairedChar (leading trailing : Nat) : Char :=
  Char.ofNat ((leading - 0xD800) * 0x400 + (trailing - 0xDC00) + 0x10000)

/-- Reads a string after its opening quote. The characters read so far are kept in reverse. -/
def stringBody (done : List Char) : List Char → Except Fault (String × List Char)
  | [] => .error (.before [] .endInString)
  | '"' :: rest => .ok (String.ofList done.reverse, rest)
  | '\\' :: rest =>
    match rest with
    | [] => .error (.before [] .endInString)
    | 'u' :: escape =>
      match escape with
      | a :: b :: c :: d :: rest =>
        match hexUnit? a b c d with
        | none => .error (hexFault escape)
        | some unit =>
          if isTrailingSurrogate unit then .error (.before rest .loneSurrogate)
          else if isLeadingSurrogate unit then
            match rest with
            | [] => .error (.before [] .endInString)
            | mark :: more =>
              if mark = '\\' then
                match more with
                | [] => .error (.before [] .endInString)
                | letter :: second =>
                  if letter = 'u' then
                    match second with
                    | a :: b :: c :: d :: rest =>
                      match hexUnit? a b c d with
                      | none => .error (hexFault second)
                      | some trailing =>
                        if isTrailingSurrogate trailing then
                          stringBody (pairedChar unit trailing :: done) rest
                        else .error (.before rest .loneSurrogate)
                    | _ => .error (hexFault second)
                  else .error (.next (letter :: second) .unexpectedEndOfEscape)
              else .error (.next (mark :: more) .unexpectedEndOfEscape)
          else stringBody (Char.ofNat unit :: done) rest
      | _ => .error (hexFault escape)
    | letter :: rest =>
      match shortEscape? letter with
      | some c => stringBody (c :: done) rest
      | none => .error (.next (letter :: rest) .invalidEscape)
  | c :: rest =>
    if c.toNat < 0x20 then .error (.next (c :: rest) .controlCharacter)
    else stringBody (c :: done) rest

/-! ### Numbers -/

def isDigit (c : Char) : Bool :=
  '0' ≤ c && c ≤ '9'

def digitValue (c : Char) : Nat :=
  c.toNat - '0'.toNat

/-- The greatest significand that is kept. -/
def significandLimit : Nat := Nat.pow 2 64 - 1

/-- Appends digits to a significand as long as they fit, and counts those that did. -/
def takeDigits (significand : Nat) : List Char → Nat × Nat
  | [] => (significand, 0)
  | c :: digits =>
    let longer := significand * 10 + digitValue c
    if significandLimit < longer then (significand, 0)
    else
      let (result, count) := takeDigits longer digits
      (result, count + 1)

/-- Whether a number's digits are an integer that is kept as one; the only integer of a sign that
would be lost is minus zero. -/
def keepsInteger (negative : Bool) (significand : Nat) : Bool :=
  !negative || (0 < significand && significand ≤ Nat.pow 2 63)

def scaled (negative : Bool) (significand : Nat) (exponent : Int) (rest : List Char) :
    Except Fault (Json × List Char) :=
  match Double.scale? significand exponent with
  | some magnitude => .ok (.double negative magnitude, rest)
  | none => .error (.before rest .numberOutOfRange)

/-- The greatest power of ten that may be written out. -/
def exponentLimit : Nat := Nat.pow 2 31 - 1

/-- Reads the digits of an exponent up to the limit; the digit that passes it is the last one
taken. -/
def exponentDigits (value : Nat) : List Char → Option Nat × List Char
  | [] => (some value, [])
  | c :: rest =>
    if isDigit c then
      let longer := value * 10 + digitValue c
      if exponentLimit < longer then (none, rest) else exponentDigits longer rest
    else (some value, c :: rest)

/-- Reads a power of ten after its mark and finishes the number. -/
def exponentPart (negative : Bool) (significand : Nat) (scale : Int) (text : List Char) :
    Except Fault (Json × List Char) :=
  let (down, digits) : Bool × List Char := match text with
    | '+' :: digits => (false, digits)
    | '-' :: digits => (true, digits)
    | digits => (false, digits)
  match digits with
  | [] => .error (.before [] .endInValue)
  | c :: _ =>
    if isDigit c then
      match exponentDigits 0 digits with
      | (some power, rest) =>
        scaled negative significand (if down then scale - power else scale + power) rest
      | (none, rest) =>
        if significand ≠ 0 ∧ ¬down then .error (.before rest .numberOutOfRange)
        else .ok (.double negative .zero, rest.dropWhile isDigit)
    else .error (.next digits .invalidNumber)

/-- Reads the digits after a decimal point and finishes the number. -/
def fractionPart (negative : Bool) (significand dropped : Nat) (text : List Char) :
    Except Fault (Json × List Char) :=
  let digits := text.takeWhile isDigit
  let rest := text.dropWhile isDigit
  if digits.isEmpty then
    .error (.next text (if text.isEmpty then .endInValue else .invalidNumber))
  else
    let (significand, count) := takeDigits significand digits
    let scale : Int := dropped - count
    match rest with
    | c :: more =>
      if c = 'e' ∨ c = 'E' then exponentPart negative significand scale more
      else scaled negative significand scale rest
    | [] => scaled negative significand scale rest

/-- Reads a number after its sign. -/
def number (negative : Bool) (text : List Char) : Except Fault (Json × List Char) :=
  match text with
  | [] => .error (.before [] .endInValue)
  | c :: _ =>
    if ¬isDigit c then .error (.next text .invalidNumber)
    else
      let digits := text.takeWhile isDigit
      let rest := text.dropWhile isDigit
      if c = '0' ∧ 1 < digits.length then .error (.next (text.drop 1) .invalidNumber)
      else
        let (significand, count) := takeDigits 0 digits
        let dropped := digits.length - count
        let whole : Except Fault (Json × List Char) :=
          if dropped = 0 ∧ keepsInteger negative significand then
            .ok (.integer (if negative then -(significand : Int) else significand), rest)
          else scaled negative significand dropped rest
        match rest with
        | c :: more =>
          if c = '.' then fractionPart negative significand dropped more
          else if c = 'e' ∨ c = 'E' then exponentPart negative significand dropped more
          else whole
        | [] => whole

end TreeScript.Json
