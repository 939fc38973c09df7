/-
This file says which texts are written forms of a JSON value. A value has many of
them: blanks may stand between any two tokens, every character of a string may be
written as itself, by a letter or by its code units in hexadecimal digits of either
case, and a number may have zeros at its end or a power of ten of any size.

Which numbers may stand in a text, and what they are worth, is left open. The reader
keeps an integer that fits in 64 bits as it is. All other numbers are doubles, which it
reads as fast as possible: digits that do not fit in 64 bits are dropped, and the
significand, the power of ten and their product are rounded one after the other. A number
has no value for the reader where this leaves the range of doubles.
-/

import TreeScript.Json.Scalar

namespace TreeScript.Json

open Decimal

/-- Nothing but blanks. -/
def Blank (text : List Char) : Prop :=
  ∀ c ∈ text, isBlank c = true

instance (text : List Char) : Decidable (Blank text) :=
  List.decidableBAll _ text

/-! ### Strings -/

/-- A character is the hexadecimal digit of a value, as a small or as a capital letter. -/
def HexDigit (value : Nat) (c : Char) : Prop :=
  "0123456789abcdef".toList[value]? = some c ∨ "0123456789ABCDEF".toList[value]? = some c

/-- A code unit is written by four hexadecimal digits. -/
inductive WritesUnit (unit : Nat) : List Char → Prop where
  | intro {a b c d : Char} (first : HexDigit (unit / 0x1000) a)
      (second : HexDigit (unit / 0x100 % 0x10) b) (third : HexDigit (unit / 0x10 % 0x10) c)
      (fourth : HexDigit (unit % 0x10) d) : WritesUnit unit ['\\', 'u', a, b, c, d]

/-- Letters that stand for a character after a backslash. -/
def shortEscapes : List (Char × Char) :=
  [('"', '"'), ('\\', '\\'), ('/', '/'), ('b', '\x08'), ('f', '\x0c'), ('n', '\n'), ('r', '\r'),
    ('t', '\t')]

/-- A character of a string may be written as itself unless it is a control character or has a
meaning, by a letter, or by its one or two code units. -/
inductive WritesChar (c : Char) : List Char → Prop where
  | plain (printable : 0x20 ≤ c.toNat) (notQuote : c ≠ '"') (notBackslash : c ≠ '\\') :
      WritesChar c [c]
  | short {letter : Char} (listed : (letter, c) ∈ shortEscapes) : WritesChar c ['\\', letter]
  | unit {text : List Char} (small : c.toNat < 0x10000) (written : WritesUnit c.toNat text) :
      WritesChar c text
  | pair {leading trailing : List Char} (large : 0x10000 ≤ c.toNat)
      (first : WritesUnit (0xD800 + (c.toNat - 0x10000) / 0x400) leading)
      (second : WritesUnit (0xDC00 + (c.toNat - 0x10000) % 0x400) trailing) :
      WritesChar c (leading ++ trailing)

inductive WritesChars : List Char → List Char → Prop where
  | nil : WritesChars [] []
  | cons {c : Char} {cs text more : List Char} (first : WritesChar c text)
      (others : WritesChars cs more) : WritesChars (c :: cs) (text ++ more)

/-- A string in its quotes. -/
inductive WritesString (value : String) : List Char → Prop where
  | intro {body : List Char} (written : WritesChars value.toList body) :
      WritesString value ('"' :: (body ++ ['"']))

/-! ### Numbers -/

/-- A power of ten as it is written behind a number. -/
structure Power where
  mark : Char
  sign : Option Char
  digits : List Char
  isMark : mark = 'e' ∨ mark = 'E'
  isSign : ∀ c ∈ sign, c = '+' ∨ c = '-'
  nonempty : digits ≠ []
  isDigits : ∀ c ∈ digits, isDigit c = true

/-- The text of a power of ten, or of none. -/
def powerText : Option Power → List Char
  | some power => power.mark :: (power.sign.toList ++ power.digits)
  | none => []

/-- A number as it is written: no needless zeros in front, and digits on both sides of a point. -/
structure Numeral where
  negative : Bool
  whole : List Char
  fraction : Option (List Char)
  power : Option Power
  nonempty : whole ≠ []
  isDigits : ∀ c ∈ whole, isDigit c = true
  zeroAlone : whole.head? = some '0' → whole.length = 1
  fractionNonempty : ∀ digits ∈ fraction, digits ≠ []
  fractionDigits : ∀ digits ∈ fraction, ∀ c ∈ digits, isDigit c = true

namespace Numeral

variable (numeral : Numeral)

def fractionText : List Char :=
  match numeral.fraction with
  | some digits => '.' :: digits
  | none => []

/-- The numeral without its sign. -/
def unsigned : List Char :=
  numeral.whole ++ (numeral.fractionText ++ powerText numeral.power)

def text : List Char :=
  if numeral.negative then '-' :: numeral.unsigned else numeral.unsigned

end Numeral

/-- The number that digits write behind those of another one. -/
def digitsValue (start : Nat) (digits : List Char) : Nat :=
  digits.foldl (fun value c => value * 10 + digitValue c) start

/-- A significand scaled by a power of ten and by the one that is written behind it, if the result
is a double. -/
def scaleBy? (power : Option Power) (significand : Nat) (scale : Int) : Option Double :=
  match power with
  | some power =>
    let exponent := digitsValue 0 power.digits
    if exponentLimit < exponent then
      if significand = 0 ∨ power.sign = some '-' then some .zero else none
    else Double.scale? significand
      (if power.sign = some '-' then scale - exponent else scale + exponent)
  | none => Double.scale? significand scale

namespace Numeral

variable (numeral : Numeral)

/-- How many digits before the point are dropped. -/
def dropped : Nat :=
  numeral.whole.length - (takeDigits 0 numeral.whole).2

/-- The significand that is kept of all digits, and the power of ten to scale it by. -/
def parts : Nat × Int :=
  let significand := (takeDigits 0 numeral.whole).1
  match numeral.fraction with
  | some digits =>
    ((takeDigits significand digits).1, numeral.dropped - (takeDigits significand digits).2)
  | none => (significand, numeral.dropped)

/-- The double that is read, if the result is one. -/
def magnitude? : Option Double :=
  scaleBy? numeral.power numeral.parts.1 numeral.parts.2

/-- The numeral of an integer that is kept as one. -/
def isInteger : Bool :=
  numeral.fraction.isNone && numeral.power.isNone &&
    (digitsValue 0 numeral.whole ≤ significandLimit &&
      keepsInteger numeral.negative (digitsValue 0 numeral.whole))

/-- The value of a numeral whose magnitude as a double is known, if it has one. -/
def jsonOf? (magnitude? : Option Double) : Option Json :=
  if numeral.isInteger then
    some (.integer (if numeral.negative then -(digitsValue 0 numeral.whole : Int)
      else digitsValue 0 numeral.whole))
  else magnitude?.map (.double numeral.negative)

/-- The value of a numeral for the reader, if it has one. -/
def json? : Option Json :=
  numeral.jsonOf? numeral.magnitude?

end Numeral

/-! ### Values -/

section Values

variable (values : Numeral → Option Json)

mutual

/-- A text is a written form of a value, without blanks around it. -/
inductive Writes : Json → List Char → Prop where
  | null : Writes .null ['n', 'u', 'l', 'l']
  | isTrue : Writes (.bool true) ['t', 'r', 'u', 'e']
  | isFalse : Writes (.bool false) ['f', 'a', 'l', 's', 'e']
  | number {numeral : Numeral} {json : Json} (hasValue : values numeral = some json) :
      Writes json numeral.text
  | string {value : String} {text : List Char} (written : WritesString value text) :
      Writes (.string value) text
  | emptyArray {text : List Char} (blank : Blank text) :
      Writes (.array []) ('[' :: (text ++ [']']))
  | array {items : List Json} {text : List Char} (written : WritesElements items text) :
      Writes (.array items) ('[' :: (text ++ [']']))
  | emptyObject {text : List Char} (blank : Blank text) :
      Writes (.object []) ('\x7b' :: (text ++ ['\x7d']))
  | object {fields : List (String × Json)} {text : List Char}
      (written : WritesMembers fields text) :
      Writes (.object fields) ('\x7b' :: (text ++ ['\x7d']))

/-- One element with the blanks around it. -/
inductive WritesElement : Json → List Char → Prop where
  | intro {json : Json} {before text after : List Char} (blankBefore : Blank before)
      (written : Writes json text) (blankAfter : Blank after) :
      WritesElement json (before ++ (text ++ after))

/-- At least one element, with commas between them. -/
inductive WritesElements : List Json → List Char → Prop where
  | last {item : Json} {text : List Char} (written : WritesElement item text) :
      WritesElements [item] text
  | cons {item : Json} {items : List Json} {text more : List Char}
      (first : WritesElement item text) (others : WritesElements items more) :
      WritesElements (item :: items) (text ++ ',' :: more)

/-- One member with the blanks around it, its key and its value. -/
inductive WritesMember : String × Json → List Char → Prop where
  | intro {key : String} {json : Json} {before keyText between space text after : List Char}
      (blankBefore : Blank before) (keyWritten : WritesString key keyText)
      (blankBetween : Blank between) (blankSpace : Blank space) (written : Writes json text)
      (blankAfter : Blank after) :
      WritesMember (key, json)
        (before ++ (keyText ++ (between ++ ':' :: (space ++ (text ++ after)))))

/-- At least one member, with commas between them. -/
inductive WritesMembers : List (String × Json) → List Char → Prop where
  | last {member : String × Json} {text : List Char} (written : WritesMember member text) :
      WritesMembers [member] text
  | cons {member : String × Json} {members : List (String × Json)} {text more : List Char}
      (first : WritesMember member text) (others : WritesMembers members more) :
      WritesMembers (member :: members) (text ++ ',' :: more)

end

/-! ### Forms without blanks and escapes -/

variable {values}

theorem blank_nil : Blank [] :=
  List.forall_mem_nil _

/-- Characters that may all be written as themselves. -/
def Unescaped (text : List Char) : Prop :=
  ∀ c ∈ text, 0x20 ≤ c.toNat ∧ c ≠ '"' ∧ c ≠ '\\'

instance (text : List Char) : Decidable (Unescaped text) :=
  List.decidableBAll _ text

theorem WritesChars.unescaped {text : List Char} (unescaped : Unescaped text) :
    WritesChars text text := by
  induction text with
  | nil => exact .nil
  | cons c text inductionHypothesis =>
    obtain ⟨printable, notQuote, notBackslash⟩ := unescaped c List.mem_cons_self
    exact .cons (.plain printable notQuote notBackslash)
      (inductionHypothesis fun c member => unescaped c (List.mem_cons_of_mem _ member))

theorem WritesString.unescaped {value : String} (unescaped : Unescaped value.toList) :
    WritesString value ('"' :: (value.toList ++ ['"'])) :=
  .intro (.unescaped unescaped)

theorem WritesElement.tight {json : Json} {text : List Char} (written : Writes values json text) :
    WritesElement values json text := by
  simpa using WritesElement.intro blank_nil written blank_nil

theorem WritesMember.tight {key : String} (keyUnescaped : Unescaped key.toList) {json : Json}
    {text : List Char} (written : Writes values json text) :
    WritesMember values (key, json) ('"' :: (key.toList ++ '"' :: ':' :: text)) := by
  simpa using
    WritesMember.intro blank_nil (.unescaped keyUnescaped) blank_nil blank_nil written blank_nil

end Values

end TreeScript.Json
