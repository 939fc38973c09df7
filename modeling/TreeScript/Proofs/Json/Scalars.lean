/-
This file reads strings and numbers back. Whatever form a scalar is written in, the
reader takes exactly that form off the front of a text and gives the value. A string
ends with its quote, so anything may follow it; a number ends where the text does not
go on with a digit, a point or the mark of a power of ten. A scalar that is skipped
is left at the same place as one that is read.
-/

import TreeScript.Json.Reader
import TreeScript.Proofs.Json.Writing
import Mathlib.Data.List.Basic
import Mathlib.Tactic.IntervalCases

namespace TreeScript.Json

open Decimal

/-! ### Blanks -/

theorem skipBlank_append {before text : List Char} (blank : Blank before) :
    skipBlank (before ++ text) = skipBlank text :=
  List.dropWhile_append_of_pos blank

theorem skipBlank_cons {c : Char} {text : List Char} (notBlank : isBlank c = false) :
    skipBlank (c :: text) = c :: text :=
  List.dropWhile_cons_of_neg (by simp [notBlank])

theorem skipBlank_append_cons {before text : List Char} {c : Char} (blank : Blank before)
    (notBlank : isBlank c = false) : skipBlank (before ++ c :: text) = c :: text := by
  rw [skipBlank_append blank, skipBlank_cons notBlank]

theorem isBlank_quote : isBlank '"' = false := by decide

theorem isBlank_comma : isBlank ',' = false := by decide

theorem isBlank_colon : isBlank ':' = false := by decide

theorem isBlank_bracket : isBlank '[' = false := by decide

theorem isBlank_closingBracket : isBlank ']' = false := by decide

theorem isBlank_brace : isBlank '\x7b' = false := by decide

theorem isBlank_closingBrace : isBlank '\x7d' = false := by decide

/-! ### Strings -/

theorem hexDigit?_of_hexDigit {value : Nat} {c : Char} (isDigit : HexDigit value c) :
    hexDigit? c = some value := by
  rcases isDigit with small | capital
  · have inRange : value < 16 := (List.getElem?_eq_some_iff.mp small).1
    interval_cases value <;> cases small <;> decide
  · have inRange : value < 16 := (List.getElem?_eq_some_iff.mp capital).1
    interval_cases value <;> cases capital <;> decide

theorem hexUnit?_of_writesUnit {unit : Nat} (inRange : unit < 0x10000) {text : List Char}
    (written : WritesUnit unit text) :
    ∃ a b c d, text = ['\\', 'u', a, b, c, d] ∧ hexUnit? a b c d = some unit := by
  obtain @⟨a, b, c, d, first, second, third, fourth⟩ := written
  refine ⟨a, b, c, d, rfl, ?_⟩
  have sum : ((unit / 0x1000 * 16 + unit / 0x100 % 0x10) * 16 + unit / 0x10 % 0x10) * 16 +
      unit % 0x10 = unit := by omega
  simp [hexUnit?, hexDigit?_of_hexDigit first, hexDigit?_of_hexDigit second,
    hexDigit?_of_hexDigit third, hexDigit?_of_hexDigit fourth, sum]

theorem shortEscape?_of_mem {letter c : Char} (listed : (letter, c) ∈ shortEscapes) :
    shortEscape? letter = some c ∧ letter ≠ 'u' := by
  simp only [shortEscapes, List.mem_cons, Prod.mk.injEq, List.not_mem_nil, or_false] at listed
  rcases listed with ⟨rfl, rfl⟩ | ⟨rfl, rfl⟩ | ⟨rfl, rfl⟩ | ⟨rfl, rfl⟩ | ⟨rfl, rfl⟩ | ⟨rfl, rfl⟩ |
    ⟨rfl, rfl⟩ | ⟨rfl, rfl⟩ <;> decide

/-- A character that stands for itself. -/
theorem stringBody_plain {c : Char} (printable : 0x20 ≤ c.toNat) (notQuote : c ≠ '"')
    (notBackslash : c ≠ '\\') (done rest : List Char) :
    stringBody done (c :: rest) = stringBody (c :: done) rest := by
  rw [stringBody, if_neg (Nat.not_lt.mpr printable)]
  · exact fun isQuote => notQuote isQuote
  · exact fun isBackslash => notBackslash isBackslash

theorem stringBody_short {letter c : Char} (known : shortEscape? letter = some c)
    (notUnit : letter ≠ 'u') (done rest : List Char) :
    stringBody done ('\\' :: letter :: rest) = stringBody (c :: done) rest := by
  rw [stringBody]
  simp only [known]
  exact fun isUnit => notUnit isUnit

theorem stringBody_unit {a b c d : Char} {unit : Nat} (known : hexUnit? a b c d = some unit)
    (notTrailing : isTrailingSurrogate unit = false) (notLeading : isLeadingSurrogate unit = false)
    (done rest : List Char) :
    stringBody done ('\\' :: 'u' :: a :: b :: c :: d :: rest) =
      stringBody (Char.ofNat unit :: done) rest := by
  rw [stringBody]
  simp [known, notTrailing, notLeading]

theorem stringBody_pair {a b c d a' b' c' d' : Char} {leading trailing : Nat}
    (first : hexUnit? a b c d = some leading) (second : hexUnit? a' b' c' d' = some trailing)
    (isLeading : isLeadingSurrogate leading = true)
    (isTrailing : isTrailingSurrogate trailing = true) (done rest : List Char) :
    stringBody done
        ('\\' :: 'u' :: a :: b :: c :: d :: '\\' :: 'u' :: a' :: b' :: c' :: d' :: rest) =
      stringBody (pairedChar leading trailing :: done) rest := by
  have notTrailing : isTrailingSurrogate leading = false := by
    simp [isLeadingSurrogate, isTrailingSurrogate] at isLeading ⊢
    omega
  rw [stringBody]
  simp [first, second, notTrailing, isLeading, isTrailing]

/-- However a character is written, it is read. -/
theorem stringBody_char {c : Char} {text : List Char} (written : WritesChar c text)
    (done rest : List Char) : stringBody done (text ++ rest) = stringBody (c :: done) rest := by
  have valid : c.toNat < 0xD800 ∨ 0xDFFF < c.toNat ∧ c.toNat < 0x110000 := c.valid
  cases written with
  | plain printable notQuote notBackslash =>
    exact stringBody_plain printable notQuote notBackslash done rest
  | short listed =>
    obtain ⟨known, notUnit⟩ := shortEscape?_of_mem listed
    exact stringBody_short known notUnit done rest
  | unit small written =>
    obtain ⟨a, b, c', d, rfl, known⟩ := hexUnit?_of_writesUnit small written
    have notTrailing : isTrailingSurrogate c.toNat = false := by
      simp [isTrailingSurrogate]
      omega
    have notLeading : isLeadingSurrogate c.toNat = false := by
      simp [isLeadingSurrogate]
      omega
    rw [← Char.ofNat_toNat c]
    exact stringBody_unit known notTrailing notLeading done rest
  | pair large first second =>
    obtain ⟨a, b, c', d, rfl, known⟩ := hexUnit?_of_writesUnit (by omega) first
    obtain ⟨e, f, g, h, rfl, knownSecond⟩ := hexUnit?_of_writesUnit (by omega) second
    have isLeading : isLeadingSurrogate (0xD800 + (c.toNat - 0x10000) / 0x400) = true := by
      simp [isLeadingSurrogate]
      omega
    have isTrailing : isTrailingSurrogate (0xDC00 + (c.toNat - 0x10000) % 0x400) = true := by
      simp [isTrailingSurrogate]
      omega
    have paired : pairedChar (0xD800 + (c.toNat - 0x10000) / 0x400)
        (0xDC00 + (c.toNat - 0x10000) % 0x400) = c := by
      have sum : (0xD800 + (c.toNat - 0x10000) / 0x400 - 0xD800) * 0x400 +
          (0xDC00 + (c.toNat - 0x10000) % 0x400 - 0xDC00) + 0x10000 = c.toNat := by omega
      rw [pairedChar, sum, Char.ofNat_toNat]
    have read := stringBody_pair known knownSecond isLeading isTrailing done rest
    rwa [paired] at read

theorem stringBody_chars {chars text : List Char} (written : WritesChars chars text)
    (done rest : List Char) :
    stringBody done (text ++ '"' :: rest) = .ok (String.ofList (done.reverse ++ chars), rest) := by
  induction written generalizing done with
  | nil =>
    rw [List.nil_append, stringBody, List.append_nil]
  | cons first others inductionHypothesis =>
    rw [List.append_assoc, stringBody_char first, inductionHypothesis, List.reverse_cons,
      List.append_assoc, List.singleton_append]

/-- A string is read up to its closing quote. -/
theorem stringBody_append {value : String} {text : List Char} (written : WritesString value text)
    (rest : List Char) :
    ∃ body, text ++ rest = '"' :: body ∧ stringBody [] body = .ok (value, rest) := by
  obtain @⟨body, written⟩ := written
  refine ⟨body ++ '"' :: rest, by simp, ?_⟩
  rw [stringBody_chars written, List.reverse_nil, List.nil_append, String.ofList_toList]

theorem skipString_unit {unit : Nat} (inRange : unit < 0x10000) {text : List Char}
    (written : WritesUnit unit text) (rest : List Char) :
    skipString (text ++ rest) = skipString rest := by
  obtain ⟨a, b, c, d, rfl, known⟩ := hexUnit?_of_writesUnit inRange written
  show skipString ('\\' :: 'u' :: a :: b :: c :: d :: rest) = skipString rest
  rw [skipString]
  simp [known]

theorem skipString_char {c : Char} {text : List Char} (written : WritesChar c text)
    (rest : List Char) : skipString (text ++ rest) = skipString rest := by
  have valid : c.toNat < 0xD800 ∨ 0xDFFF < c.toNat ∧ c.toNat < 0x110000 := c.valid
  cases written with
  | plain printable notQuote notBackslash =>
    rw [List.singleton_append, skipString, if_neg (Nat.not_lt.mpr printable)]
    · exact fun isQuote => notQuote isQuote
    · exact fun isBackslash => notBackslash isBackslash
  | @short letter listed =>
    obtain ⟨known, notUnit⟩ := shortEscape?_of_mem listed
    show skipString ('\\' :: letter :: rest) = skipString rest
    rw [skipString]
    · simp [known]
    · exact fun isUnit => notUnit isUnit
  | unit small written => exact skipString_unit small written rest
  | pair large first second =>
    rw [List.append_assoc, skipString_unit (by omega) first, skipString_unit (by omega) second]

theorem skipString_chars {chars text : List Char} (written : WritesChars chars text)
    (rest : List Char) : skipString (text ++ '"' :: rest) = .ok rest := by
  induction written with
  | nil => rw [List.nil_append, skipString]
  | cons first others inductionHypothesis =>
    rw [List.append_assoc, skipString_char first, inductionHypothesis]

/-- A string is skipped up to its closing quote. -/
theorem skipString_append {value : String} {text : List Char} (written : WritesString value text)
    (rest : List Char) :
    ∃ body, text ++ rest = '"' :: body ∧ skipString body = .ok rest := by
  obtain @⟨body, written⟩ := written
  exact ⟨body ++ '"' :: rest, by simp, skipString_chars written rest⟩

/-! ### Digits -/

/-- A text that does not go on with a number. -/
def StopsNumber (rest : List Char) : Prop :=
  ∀ c ∈ rest.head?, isDigit c = false ∧ c ≠ '.' ∧ c ≠ 'e' ∧ c ≠ 'E'

theorem ne_of_isDigit {c d : Char} (digit : isDigit c = true) (noDigit : isDigit d = false) :
    c ≠ d := by
  rintro rfl
  exact Bool.false_ne_true (noDigit.symm.trans digit)

theorem takeWhile_isDigit {digits rest : List Char} (all : ∀ c ∈ digits, isDigit c = true)
    (ends : ∀ c ∈ rest.head?, isDigit c = false) :
    (digits ++ rest).takeWhile isDigit = digits := by
  rw [List.takeWhile_append_of_pos all]
  cases rest with
  | nil => simp
  | cons c rest => simp [ends c rfl]

theorem dropWhile_isDigit {digits rest : List Char} (all : ∀ c ∈ digits, isDigit c = true)
    (ends : ∀ c ∈ rest.head?, isDigit c = false) :
    (digits ++ rest).dropWhile isDigit = rest := by
  rw [List.dropWhile_append_of_pos all]
  cases rest with
  | nil => rfl
  | cons c rest => simp [ends c rfl]

theorem le_digitsValue (start : Nat) (digits : List Char) : start ≤ digitsValue start digits := by
  induction digits generalizing start with
  | nil => exact Nat.le_refl _
  | cons c digits inductionHypothesis =>
    have longer := inductionHypothesis (start * 10 + digitValue c)
    exact Nat.le_trans (by omega) longer

/-- All digits are kept where the whole number fits. -/
theorem takeDigits_of_le {start : Nat} {digits : List Char}
    (fits : digitsValue start digits ≤ significandLimit) :
    takeDigits start digits = (digitsValue start digits, digits.length) := by
  induction digits generalizing start with
  | nil => rfl
  | cons c digits inductionHypothesis =>
    have longer := le_digitsValue (start * 10 + digitValue c) digits
    rw [takeDigits, if_neg (Nat.not_lt.mpr (Nat.le_trans longer fits)), inductionHypothesis fits]
    rfl

/-- Where the whole number does not fit, not all digits are kept. -/
theorem takeDigits_of_lt {start : Nat} {digits : List Char}
    (small : start ≤ significandLimit) (large : significandLimit < digitsValue start digits) :
    (takeDigits start digits).2 < digits.length := by
  induction digits generalizing start with
  | nil => exact absurd large (Nat.not_lt.mpr small)
  | cons c digits inductionHypothesis =>
    rw [takeDigits]
    split
    · exact Nat.succ_pos _
    · rename_i fits
      exact Nat.succ_lt_succ (inductionHypothesis (Nat.not_lt.mp fits) large)

/-- An exponent that is small enough is read as it is written. -/
theorem exponentDigits_of_le {start : Nat} {digits rest : List Char}
    (all : ∀ c ∈ digits, isDigit c = true) (ends : ∀ c ∈ rest.head?, isDigit c = false)
    (fits : digitsValue start digits ≤ exponentLimit) :
    exponentDigits start (digits ++ rest) = (some (digitsValue start digits), rest) := by
  induction digits generalizing start with
  | nil =>
    cases rest with
    | nil => rfl
    | cons c rest =>
      rw [List.nil_append, exponentDigits, if_neg (by simp [ends c rfl])]
      rfl
  | cons c digits inductionHypothesis =>
    have longer := le_digitsValue (start * 10 + digitValue c) digits
    rw [List.cons_append, exponentDigits, if_pos (all c List.mem_cons_self),
      if_neg (Nat.not_lt.mpr (Nat.le_trans longer fits))]
    exact inductionHypothesis (fun c member => all c (List.mem_cons_of_mem _ member)) fits

/-- Of an exponent that is too large at least the last digits are left. -/
theorem exponentDigits_of_lt {start : Nat} {digits : List Char}
    (all : ∀ c ∈ digits, isDigit c = true) (small : start ≤ exponentLimit)
    (large : exponentLimit < digitsValue start digits) (rest : List Char) :
    ∃ others, (∀ c ∈ others, isDigit c = true) ∧
      exponentDigits start (digits ++ rest) = (none, others ++ rest) := by
  induction digits generalizing start with
  | nil => exact absurd large (Nat.not_lt.mpr small)
  | cons c digits inductionHypothesis =>
    have others : ∀ c ∈ digits, isDigit c = true := fun c member =>
      all c (List.mem_cons_of_mem _ member)
    by_cases passes : exponentLimit < start * 10 + digitValue c
    · refine ⟨digits, others, ?_⟩
      rw [List.cons_append, exponentDigits, if_pos (all c List.mem_cons_self), if_pos passes]
    · rw [List.cons_append, exponentDigits, if_pos (all c List.mem_cons_self), if_neg passes]
      exact inductionHypothesis others (Nat.not_lt.mp passes) large

/-! ### Numbers -/

section Numbers

variable {negative : Bool} {significand : Nat} {scale : Int}

theorem scaled_of_some {magnitude : Double}
    (known : Double.scale? significand scale = some magnitude)
    (rest : List Char) :
    scaled negative significand scale rest = .ok (.double negative magnitude, rest) := by
  rw [scaled, known]

/-- A sign in front of the digits of a power of ten, or none. -/
theorem exponentPart_of_some {sign : Option Char} (isSign : ∀ c ∈ sign, c = '+' ∨ c = '-')
    {c : Char} (digit : isDigit c = true) {digits after : List Char} {exponent : Nat}
    (known : exponentDigits 0 (c :: digits) = (some exponent, after)) :
    exponentPart negative significand scale (sign.toList ++ c :: digits) =
      scaled negative significand
        (if sign = some '-' then scale - exponent else scale + exponent) after := by
  cases sign with
  | none =>
    rw [Option.toList_none, List.nil_append, exponentPart]
    · simp [digit, known]
    · rintro _ ⟨⟩
      exact ne_of_isDigit digit (by decide) rfl
    · rintro _ ⟨⟩
      exact ne_of_isDigit digit (by decide) rfl
  | some sign => rcases isSign sign rfl with rfl | rfl <;> simp [exponentPart, digit, known]

theorem exponentPart_of_none {sign : Option Char} (isSign : ∀ c ∈ sign, c = '+' ∨ c = '-')
    {c : Char} (digit : isDigit c = true) {digits after : List Char}
    (known : exponentDigits 0 (c :: digits) = (none, after))
    (vanishes : significand = 0 ∨ sign = some '-') :
    exponentPart negative significand scale (sign.toList ++ c :: digits) =
      .ok (.double negative .zero, after.dropWhile isDigit) := by
  cases sign with
  | none =>
    have isZero : significand = 0 := vanishes.resolve_right (by simp)
    rw [Option.toList_none, List.nil_append, exponentPart]
    · simp [digit, known, isZero]
    · rintro _ ⟨⟩
      exact ne_of_isDigit digit (by decide) rfl
    · rintro _ ⟨⟩
      exact ne_of_isDigit digit (by decide) rfl
  | some sign =>
    rcases isSign sign rfl with rfl | rfl
    · have isZero : significand = 0 := vanishes.resolve_right (by decide)
      simp [exponentPart, digit, known, isZero]
    · simp [exponentPart, digit, known]

/-- A power of ten is read if it leads to a double. -/
theorem exponentPart_append {power : Power} {magnitude : Double}
    (known : scaleBy? (some power) significand scale = some magnitude) {rest : List Char}
    (ends : ∀ c ∈ rest.head?, isDigit c = false) :
    exponentPart negative significand scale (power.sign.toList ++ (power.digits ++ rest)) =
      .ok (.double negative magnitude, rest) := by
  obtain ⟨mark, sign, digits, isMark, isSign, nonempty, isDigits⟩ := power
  obtain ⟨c, others, rfl⟩ := List.exists_cons_of_ne_nil nonempty
  have digit := isDigits c List.mem_cons_self
  simp only [scaleBy?] at known
  by_cases large : exponentLimit < digitsValue 0 (c :: others)
  · rw [if_pos large] at known
    obtain ⟨left, leftDigits, read⟩ := exponentDigits_of_lt isDigits (Nat.zero_le _) large rest
    by_cases vanishes : significand = 0 ∨ sign = some '-'
    · rw [if_pos vanishes] at known
      cases known
      exact (exponentPart_of_none isSign digit read vanishes).trans
        (by rw [dropWhile_isDigit leftDigits ends])
    · rw [if_neg vanishes] at known
      cases known
  · rw [if_neg large] at known
    have read := exponentDigits_of_le isDigits ends (Nat.not_lt.mp large)
    exact (exponentPart_of_some isSign digit read).trans (scaled_of_some known rest)

theorem StopsNumber.noDigit {rest : List Char} (stops : StopsNumber rest) :
    ∀ c ∈ rest.head?, isDigit c = false :=
  fun c member => (stops c member).1

/-- A power of ten starts with no digit. -/
theorem noDigit_powerText (power : Option Power) {rest : List Char} (stops : StopsNumber rest) :
    ∀ c ∈ (powerText power ++ rest).head?, isDigit c = false := by
  cases power with
  | none => exact stops.noDigit
  | some power =>
    rintro c ⟨⟩
    rcases power.isMark with isMark | isMark <;> rw [isMark] <;> decide

/-- The digits after a point are read, and what follows them. -/
theorem fractionPart_append {digits : List Char} (nonempty : digits ≠ [])
    (all : ∀ c ∈ digits, isDigit c = true) {power : Option Power} {dropped : Nat}
    {magnitude : Double}
    (known : scaleBy? power (takeDigits significand digits).1
      (dropped - (takeDigits significand digits).2) = some magnitude)
    {rest : List Char} (stops : StopsNumber rest) :
    fractionPart negative significand dropped (digits ++ (powerText power ++ rest)) =
      .ok (.double negative magnitude, rest) := by
  have ends := noDigit_powerText power stops
  rw [fractionPart]
  simp only [takeWhile_isDigit all ends, dropWhile_isDigit all ends, List.isEmpty_iff, nonempty,
    if_false]
  cases power with
  | none =>
    cases rest with
    | nil => exact scaled_of_some known []
    | cons c rest =>
      obtain ⟨-, -, notSmall, notCapital⟩ := stops c rfl
      simp only [powerText, List.nil_append, notSmall, notCapital, or_self, if_false]
      exact scaled_of_some known (c :: rest)
  | some power =>
    simp only [powerText, List.cons_append, List.append_assoc, power.isMark, if_true]
    exact exponentPart_append known stops.noDigit

end Numbers

namespace Numeral

variable {numeral : Numeral}

/-- What follows the whole digits starts with no digit. -/
theorem noDigit_fractionText (numeral : Numeral) {rest : List Char} (stops : StopsNumber rest) :
    ∀ c ∈ (numeral.fractionText ++ (powerText numeral.power ++ rest)).head?, isDigit c = false := by
  rw [fractionText]
  split
  · rintro c ⟨⟩
    decide
  · exact noDigit_powerText numeral.power stops

theorem magnitude?_of_json? (notInteger : numeral.isInteger = false) {json : Json}
    (hasValue : numeral.json? = some json) :
    ∃ magnitude, numeral.magnitude? = some magnitude ∧
      json = .double numeral.negative magnitude := by
  rw [json?, jsonOf?, notInteger, if_neg Bool.false_ne_true, Option.map_eq_some_iff] at hasValue
  obtain ⟨magnitude, known, rfl⟩ := hasValue
  exact ⟨magnitude, known, rfl⟩

/-- An integer that is kept has kept all its digits. -/
theorem dropped_eq_zero_iff (numeral : Numeral) :
    numeral.dropped = 0 ↔ digitsValue 0 numeral.whole ≤ significandLimit := by
  rw [dropped]
  constructor
  · intro none
    by_contra large
    have := takeDigits_of_lt (Nat.zero_le _) (Nat.not_le.mp large)
    omega
  · intro fits
    rw [takeDigits_of_le fits, Nat.sub_self]

/-- A number without a point and a power of ten. -/
theorem whole_append (noFraction : numeral.fraction = none) (noPower : numeral.power = none)
    {json : Json} (hasValue : numeral.json? = some json) (rest : List Char) :
    (if numeral.dropped = 0 ∧ keepsInteger numeral.negative (takeDigits 0 numeral.whole).1 then
      .ok (.integer (if numeral.negative then -((takeDigits 0 numeral.whole).1 : Int)
        else (takeDigits 0 numeral.whole).1), rest)
    else scaled numeral.negative (takeDigits 0 numeral.whole).1 numeral.dropped rest :
      Except Fault (Json × List Char)) = .ok (json, rest) := by
  have isInteger : numeral.isInteger = true ↔ numeral.dropped = 0 ∧
      keepsInteger numeral.negative (takeDigits 0 numeral.whole).1 := by
    rw [dropped_eq_zero_iff]
    by_cases fits : digitsValue 0 numeral.whole ≤ significandLimit
    · simp [Numeral.isInteger, noFraction, noPower, fits, takeDigits_of_le fits]
    · simp [Numeral.isInteger, fits]
  by_cases kept : numeral.isInteger = true
  · have fits := (dropped_eq_zero_iff numeral).mp (isInteger.mp kept).1
    rw [json?, jsonOf?, if_pos kept] at hasValue
    cases hasValue
    rw [if_pos (isInteger.mp kept), takeDigits_of_le fits]
  · obtain ⟨magnitude, known, rfl⟩ := magnitude?_of_json? (Bool.not_eq_true _ ▸ kept) hasValue
    rw [if_neg fun both => kept (isInteger.mpr both)]
    rw [magnitude?, parts, noFraction, noPower] at known
    exact scaled_of_some known rest

/-- A number is read after its sign. -/
theorem number_append {json : Json} (hasValue : numeral.json? = some json) {rest : List Char}
    (stops : StopsNumber rest) :
    number numeral.negative (numeral.unsigned ++ rest) = .ok (json, rest) := by
  have ends := numeral.noDigit_fractionText stops
  obtain ⟨c, others, isWhole⟩ := List.exists_cons_of_ne_nil numeral.nonempty
  have digit : isDigit c = true := numeral.isDigits c (by simp [isWhole])
  have noZero : ¬(c = '0' ∧ 1 < numeral.whole.length) := by
    rintro ⟨rfl, long⟩
    have alone := numeral.zeroAlone (by simp [isWhole])
    omega
  have written : numeral.unsigned ++ rest =
      numeral.whole ++ (numeral.fractionText ++ (powerText numeral.power ++ rest)) := by
    simp [unsigned]
  rw [written, isWhole, List.cons_append, number]
  simp only [digit, not_true, if_false, ← List.cons_append, ← isWhole,
    takeWhile_isDigit numeral.isDigits ends, dropWhile_isDigit numeral.isDigits ends, noZero]
  cases hasFraction : numeral.fraction with
  | some digits =>
    obtain ⟨magnitude, known, rfl⟩ :=
      magnitude?_of_json? (by simp [isInteger, hasFraction]) hasValue
    rw [magnitude?, parts, hasFraction] at known
    simp only [fractionText, hasFraction, List.cons_append, if_true]
    exact fractionPart_append (numeral.fractionNonempty digits hasFraction)
      (numeral.fractionDigits digits hasFraction) known stops
  | none =>
    cases hasPower : numeral.power with
    | some power =>
      obtain ⟨magnitude, known, rfl⟩ := magnitude?_of_json? (by simp [isInteger, hasPower]) hasValue
      rw [magnitude?, parts, hasFraction, hasPower] at known
      have notPoint : power.mark ≠ '.' := by
        rcases power.isMark with isMark | isMark <;> rw [isMark] <;> decide
      simp only [fractionText, hasFraction, powerText, List.nil_append, List.cons_append,
        List.append_assoc, notPoint, power.isMark, if_false, if_true]
      exact exponentPart_append known stops.noDigit
    | none =>
      have whole := whole_append hasFraction hasPower hasValue rest
      cases rest with
      | nil =>
        simp only [fractionText, hasFraction, powerText, List.nil_append]
        exact whole
      | cons next rest =>
        obtain ⟨-, notPoint, notSmall, notCapital⟩ := stops next rfl
        simp only [fractionText, hasFraction, powerText, List.nil_append, notPoint, notSmall,
          notCapital, or_self, if_false]
        exact whole

end Numeral

theorem skipExponent_append (power : Power) {rest : List Char}
    (ends : ∀ c ∈ rest.head?, isDigit c = false) :
    skipExponent (power.sign.toList ++ (power.digits ++ rest)) = .ok rest := by
  obtain ⟨c, others, isCons⟩ := List.exists_cons_of_ne_nil power.nonempty
  have digit : isDigit c = true := power.isDigits c (by simp [isCons])
  have others_digits : ∀ d ∈ others, isDigit d = true := fun d member =>
    power.isDigits d (by simp [isCons, member])
  have notSign : ¬(c = '+' ∨ c = '-') := by
    rintro (rfl | rfl)
    · exact ne_of_isDigit digit (by decide) rfl
    · exact ne_of_isDigit digit (by decide) rfl
  rw [isCons, List.cons_append]
  cases hasSign : power.sign with
  | none =>
    rw [Option.toList_none, List.nil_append, skipExponent]
    simp only [notSign, if_false, digit, if_true, dropWhile_isDigit others_digits ends]
  | some sign =>
    have isSign := power.isSign sign hasSign
    rw [Option.toList_some, List.singleton_append, skipExponent]
    simp only [isSign, digit, if_true, dropWhile_isDigit others_digits ends]

namespace Numeral

theorem skipFraction_append (numeral : Numeral) {rest : List Char} (stops : StopsNumber rest) :
    skipFraction (numeral.fractionText ++ (powerText numeral.power ++ rest)) = .ok rest := by
  have ends := noDigit_powerText numeral.power stops
  cases hasFraction : numeral.fraction with
  | some digits =>
    have nonempty := numeral.fractionNonempty digits hasFraction
    have all := numeral.fractionDigits digits hasFraction
    rw [fractionText, hasFraction]
    simp only [List.cons_append, skipFraction, if_true, takeWhile_isDigit all ends,
      dropWhile_isDigit all ends, List.isEmpty_iff, nonempty, if_false]
    cases hasPower : numeral.power with
    | some power =>
      simp only [powerText, List.cons_append, List.append_assoc, power.isMark, if_true]
      exact skipExponent_append power stops.noDigit
    | none =>
      cases rest with
      | nil => rfl
      | cons next rest =>
        obtain ⟨-, -, notSmall, notCapital⟩ := stops next rfl
        simp only [powerText, List.nil_append, notSmall, notCapital, or_self, if_false]
  | none =>
    rw [fractionText, hasFraction, List.nil_append]
    cases hasPower : numeral.power with
    | some power =>
      have notPoint : power.mark ≠ '.' := by
        rcases power.isMark with isMark | isMark <;> rw [isMark] <;> decide
      simp only [powerText, List.cons_append, List.append_assoc, skipFraction, notPoint,
        power.isMark, if_false, if_true]
      exact skipExponent_append power stops.noDigit
    | none =>
      cases rest with
      | nil => rfl
      | cons next rest =>
        obtain ⟨-, notPoint, notSmall, notCapital⟩ := stops next rfl
        simp only [powerText, List.nil_append, skipFraction, notPoint, notSmall, notCapital,
          or_self, if_false]

/-- A number is skipped after its sign, whether it has a value or not. -/
theorem skipNumber_append (numeral : Numeral) {rest : List Char} (stops : StopsNumber rest) :
    skipNumber (numeral.unsigned ++ rest) = .ok rest := by
  have ends := numeral.noDigit_fractionText stops
  have skipped := numeral.skipFraction_append stops
  obtain ⟨c, others, isWhole⟩ := List.exists_cons_of_ne_nil numeral.nonempty
  have digit : isDigit c = true := numeral.isDigits c (by simp [isWhole])
  have others_digits : ∀ d ∈ others, isDigit d = true := fun d member =>
    numeral.isDigits d (by simp [isWhole, member])
  have written : numeral.unsigned ++ rest =
      c :: (others ++ (numeral.fractionText ++ (powerText numeral.power ++ rest))) := by
    simp [unsigned, isWhole]
  rw [written]
  unfold skipNumber
  dsimp only
  by_cases isZero : c = '0'
  · have alone := numeral.zeroAlone (by simp [isWhole, isZero])
    obtain rfl : others = [] := by simpa [isWhole] using alone
    rw [if_pos isZero, List.nil_append]
    generalize numeral.fractionText ++ (powerText numeral.power ++ rest) = after at ends skipped
    cases after with
    | nil => exact skipped
    | cons next after =>
      simpa only [ends next rfl, Bool.false_eq_true, if_false] using skipped
  · rw [if_neg isZero, if_pos digit, dropWhile_isDigit others_digits ends]
    exact skipped

end Numeral

end TreeScript.Json
