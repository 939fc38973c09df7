/-
This file compares reading a scalar with reading it in front of more text. A reader
takes characters off the front, so what it leaves is the end of the text. It looks at
most one character further than it takes, and that only where a number ends. So as long
as something is left of a text, more text behind it changes nothing: the same scalar is
read, and the additional text is left too. Literals and strings say themselves where
they end, and what was read of them stays the same even if nothing is left.
-/

import Mathlib.Data.List.TakeWhile
import TreeScript.Proofs.Except
import TreeScript.Proofs.Json.Values

namespace TreeScript

namespace Json

variable {text rest : List Char}

/-! ### Blanks and literals -/

theorem exists_blank_of_skipBlank {c : Char} (found : skipBlank text = c :: rest) :
    ∃ before, Blank before ∧ text = before ++ c :: rest := by
  refine ⟨text.takeWhile isBlank, fun _ member => List.mem_takeWhile_imp member, ?_⟩
  rw [← found, skipBlank, List.takeWhile_append_dropWhile]

theorem skipBlank_eq_nil_iff : skipBlank text = [] ↔ Blank text :=
  List.dropWhile_eq_nil_iff

theorem suffix_of_skipBlank {c : Char} (found : skipBlank text = c :: rest) : rest <:+ text :=
  (List.suffix_cons c rest).trans (found ▸ List.dropWhile_suffix isBlank)

theorem skipBlank_extend {c : Char} (found : skipBlank text = c :: rest) (more : List Char) :
    skipBlank (text ++ more) = c :: (rest ++ more) := by
  rw [skipBlank] at found
  rw [skipBlank, List.dropWhile_append, found]
  rfl

theorem literal_extend {expected : List Char} (read : literal expected text = .ok rest) :
    rest <:+ text ∧ ∀ more, literal expected (text ++ more) = .ok (rest ++ more) := by
  induction expected generalizing text with
  | nil =>
    cases read
    exact ⟨List.suffix_refl _, fun _ => rfl⟩
  | cons first others inductionHypothesis =>
    cases text with
    | nil => cases read
    | cons c text =>
      rw [literal] at read
      split at read
      next same =>
        obtain ⟨isSuffix, extended⟩ := inductionHypothesis read
        refine ⟨isSuffix.trans (List.suffix_cons c text), fun more => ?_⟩
        rw [List.cons_append, literal, if_pos same]
        exact extended more
      next => cases read

/-! ### Strings -/

theorem stringBody_extend {done : List Char} {value : String}
    (read : stringBody done text = .ok (value, rest)) :
    rest <:+ text ∧ ∀ more, stringBody done (text ++ more) = .ok (value, rest ++ more) := by
  fun_induction stringBody done text generalizing rest with
  | case2 done left =>
    cases read
    exact ⟨List.suffix_cons _ _, fun _ => rfl⟩
  | case9 done a b c d leading first notTrailing isLeading a' b' c' d' left trailing second
      isTrailing inductionHypothesis =>
    obtain ⟨isSuffix, extended⟩ := inductionHypothesis read
    refine ⟨isSuffix.trans
      (List.suffix_append ['\\', 'u', a, b, c, d, '\\', 'u', a', b', c', d'] _), fun more => ?_⟩
    exact (stringBody_pair first second isLeading isTrailing done (left ++ more)).trans
      (extended more)
  | case14 done a b c d left unit known notTrailing notLeading inductionHypothesis =>
    obtain ⟨isSuffix, extended⟩ := inductionHypothesis read
    refine ⟨isSuffix.trans (List.suffix_append ['\\', 'u', a, b, c, d] _), fun more => ?_⟩
    exact (stringBody_unit known (Bool.eq_false_iff.mpr notTrailing)
      (Bool.eq_false_iff.mpr notLeading) done (left ++ more)).trans (extended more)
  | case16 done letter left notUnit c known inductionHypothesis =>
    obtain ⟨isSuffix, extended⟩ := inductionHypothesis read
    refine ⟨isSuffix.trans (List.suffix_append ['\\', letter] _), fun more => ?_⟩
    exact (stringBody_short known notUnit done (left ++ more)).trans (extended more)
  | case19 done c left notQuote notBackslash printable inductionHypothesis =>
    obtain ⟨isSuffix, extended⟩ := inductionHypothesis read
    refine ⟨isSuffix.trans (List.suffix_cons c _), fun more => ?_⟩
    exact (stringBody_plain (Nat.le_of_not_lt printable) notQuote notBackslash done
      (left ++ more)).trans (extended more)
  | _ => cases read

theorem skipString_extend (read : skipString text = .ok rest) :
    rest <:+ text ∧ ∀ more, skipString (text ++ more) = .ok (rest ++ more) := by
  fun_induction skipString text with
  | case2 left =>
    cases read
    exact ⟨List.suffix_cons _ _, fun _ => rfl⟩
  | case4 a b c d left known inductionHypothesis =>
    obtain ⟨isSuffix, extended⟩ := inductionHypothesis read
    refine ⟨isSuffix.trans (List.suffix_append ['\\', 'u', a, b, c, d] _), fun more => ?_⟩
    show skipString ('\\' :: 'u' :: a :: b :: c :: d :: (left ++ more)) = _
    rw [skipString, if_pos known]
    exact extended more
  | case7 letter left notUnit known inductionHypothesis =>
    obtain ⟨isSuffix, extended⟩ := inductionHypothesis read
    refine ⟨isSuffix.trans (List.suffix_append ['\\', letter] _), fun more => ?_⟩
    show skipString ('\\' :: letter :: (left ++ more)) = _
    rw [skipString, if_pos known]
    · exact extended more
    · exact notUnit
  | case10 c left notQuote notBackslash printable inductionHypothesis =>
    obtain ⟨isSuffix, extended⟩ := inductionHypothesis read
    refine ⟨isSuffix.trans (List.suffix_cons c _), fun more => ?_⟩
    show skipString (c :: (left ++ more)) = _
    rw [skipString, if_neg printable]
    · exact extended more
    · exact notQuote
    · exact notBackslash
  | _ => cases read

/-! ### Numbers -/

section Digits

variable {test : Char → Bool}

theorem dropWhile_extend (left : text.dropWhile test ≠ []) (more : List Char) :
    (text ++ more).dropWhile test = text.dropWhile test ++ more := by
  rw [List.dropWhile_append, if_neg (by simpa using left)]

theorem takeWhile_extend (left : text.dropWhile test ≠ []) (more : List Char) :
    (text ++ more).takeWhile test = text.takeWhile test := by
  rw [List.takeWhile_append, if_neg]
  intro all
  refine left (List.length_eq_zero_iff.mp ?_)
  have parts := congrArg List.length (List.takeWhile_append_dropWhile (p := test) (l := text))
  rw [List.length_append] at parts
  omega

end Digits

theorem scaled_extend {negative : Bool} {significand : Nat} {exponent : Int} {json : Json}
    {left : List Char} (read : scaled negative significand exponent left = .ok (json, rest)) :
    left = rest ∧ ∀ other, scaled negative significand exponent other = .ok (json, other) := by
  rw [scaled] at read
  split at read
  next magnitude found =>
    cases read
    refine ⟨rfl, fun other => ?_⟩
    rw [scaled, found]
  next => cases read

/-- The digit that passes the limit is the last one taken, so then nothing more is looked at. -/
theorem exponentDigits_extend {value : Nat} {power : Option Nat}
    (read : exponentDigits value text = (power, rest)) :
    rest <:+ text ∧ (power = none ∨ rest ≠ [] →
      ∀ more, exponentDigits value (text ++ more) = (power, rest ++ more)) := by
  induction text generalizing value with
  | nil =>
    cases read
    exact ⟨List.suffix_refl _, by simp⟩
  | cons c text inductionHypothesis =>
    rw [exponentDigits] at read
    by_cases digit : isDigit c = true
    · rw [if_pos digit] at read
      by_cases large : exponentLimit < value * 10 + digitValue c
      · rw [if_pos large] at read
        cases read
        refine ⟨List.suffix_cons _ _, fun _ more => ?_⟩
        rw [List.cons_append, exponentDigits, if_pos digit, if_pos large]
      · rw [if_neg large] at read
        obtain ⟨isSuffix, extended⟩ := inductionHypothesis read
        refine ⟨isSuffix.trans (List.suffix_cons _ _), fun stops more => ?_⟩
        rw [List.cons_append, exponentDigits, if_pos digit, if_neg large]
        exact extended stops more
    · rw [if_neg digit] at read
      cases read
      refine ⟨List.suffix_refl _, fun _ more => ?_⟩
      rw [List.cons_append, exponentDigits, if_neg digit]

/-- The sign of a power of ten and the digits behind it. -/
def exponentSign : List Char → Bool × List Char
  | '+' :: digits => (false, digits)
  | '-' :: digits => (true, digits)
  | digits => (false, digits)

/-- Reads the digits of a power of ten whose sign has been taken off. -/
def signedExponent (negative : Bool) (significand : Nat) (scale : Int) (down : Bool)
    (digits : List Char) : Except Fault (Json × List Char) :=
  match digits with
  | [] => .error (.before [] .endInValue)
  | c :: _ =>
    if isDigit c then
      match exponentDigits 0 digits with
      | (some power, rest) =>
        scaled negative significand (if down then scale - power else scale + power) rest
      | (none, rest) =>
        if significand ≠ 0 ∧ ¬down then .error (.before rest .numberOutOfRange)
        else .ok (.double negative .zero, rest.dropWhile isDigit)
    else .error (.next digits .invalidNumber)

theorem exponentPart_eq (negative : Bool) (significand : Nat) (scale : Int) (text : List Char) :
    exponentPart negative significand scale text =
      signedExponent negative significand scale (exponentSign text).1 (exponentSign text).2 := by
  rfl

/-- Reads what may follow the last digit of a fraction. -/
def fractionTail (negative : Bool) (significand : Nat) (scale : Int) :
    List Char → Except Fault (Json × List Char)
  | [] => scaled negative significand scale []
  | c :: others =>
    if c = 'e' ∨ c = 'E' then exponentPart negative significand scale others
    else scaled negative significand scale (c :: others)

theorem fractionPart_eq (negative : Bool) (significand dropped : Nat)
    (hasDigits : ¬(text.takeWhile isDigit).isEmpty) :
    fractionPart negative significand dropped text =
      fractionTail negative (takeDigits significand (text.takeWhile isDigit)).1
        (dropped - (takeDigits significand (text.takeWhile isDigit)).2)
        (text.dropWhile isDigit) := by
  rw [fractionPart, if_neg hasDigits]
  cases text.dropWhile isDigit with
  | nil => rfl
  | cons c others => rfl

/-- The number whose digits are followed by nothing. -/
def wholeNumber (negative : Bool) (significand dropped : Nat) (rest : List Char) :
    Except Fault (Json × List Char) :=
  if dropped = 0 ∧ keepsInteger negative significand then
    .ok (.integer (if negative then -(significand : Int) else significand), rest)
  else scaled negative significand dropped rest

/-- Reads what may follow the last digit in front of the decimal point. -/
def numberTail (negative : Bool) (significand dropped : Nat) :
    List Char → Except Fault (Json × List Char)
  | [] => wholeNumber negative significand dropped []
  | c :: others =>
    if c = '.' then fractionPart negative significand dropped others
    else if c = 'e' ∨ c = 'E' then exponentPart negative significand dropped others
    else wholeNumber negative significand dropped (c :: others)

theorem number_eq (negative : Bool) {c : Char} {others : List Char} (digit : isDigit c = true)
    (noZero : ¬(c = '0' ∧ 1 < ((c :: others).takeWhile isDigit).length)) :
    number negative (c :: others) =
      numberTail negative (takeDigits 0 ((c :: others).takeWhile isDigit)).1
        (((c :: others).takeWhile isDigit).length -
          (takeDigits 0 ((c :: others).takeWhile isDigit)).2)
        ((c :: others).dropWhile isDigit) := by
  rw [number, if_neg (by simp [digit]), if_neg noZero]
  cases (c :: others).dropWhile isDigit with
  | nil => rfl
  | cons d left => rfl

theorem exponentSign_extend {down : Bool} {digits : List Char}
    (found : exponentSign text = (down, digits)) :
    digits <:+ text ∧
      (digits ≠ [] → ∀ more, exponentSign (text ++ more) = (down, digits ++ more)) := by
  rw [exponentSign.eq_def] at found
  split at found
  next =>
    cases found
    exact ⟨List.suffix_cons _ _, fun _ _ => rfl⟩
  next =>
    cases found
    exact ⟨List.suffix_cons _ _, fun _ _ => rfl⟩
  next notPlus notMinus =>
    cases found
    refine ⟨List.suffix_refl _, fun nonempty more => ?_⟩
    cases text with
    | nil => contradiction
    | cons c left =>
      refine exponentSign.eq_3 _ (fun _ same => notPlus left ?_) (fun _ same => notMinus left ?_)
      · cases same
        rfl
      · cases same
        rfl

theorem signedExponent_extend {negative down : Bool} {significand : Nat} {scale : Int}
    {json : Json} (read : signedExponent negative significand scale down text = .ok (json, rest)) :
    rest <:+ text ∧ (rest ≠ [] →
      ∀ more, signedExponent negative significand scale down (text ++ more) =
        .ok (json, rest ++ more)) := by
  cases text with
  | nil => cases read
  | cons c others =>
    rw [signedExponent] at read
    split at read
    next digit =>
      rcases taken : exponentDigits 0 (c :: others) with ⟨power, left⟩
      obtain ⟨leftSuffix, digitsExtended⟩ := exponentDigits_extend taken
      rw [taken] at read
      simp only [List.cons_append] at digitsExtended ⊢
      cases power with
      | some power =>
        obtain ⟨rfl, scaledAt⟩ := scaled_extend read
        refine ⟨leftSuffix, fun nonempty more => ?_⟩
        rw [signedExponent, if_pos digit, digitsExtended (.inr nonempty) more]
        exact scaledAt _
      | none =>
        dsimp only at read
        split at read
        next => cases read
        next small =>
          cases read
          refine ⟨(List.dropWhile_suffix _).trans leftSuffix, fun nonempty more => ?_⟩
          rw [signedExponent, if_pos digit, digitsExtended (.inl rfl) more]
          simp only [if_neg small, dropWhile_extend nonempty]
    next => cases read

theorem exponentPart_extend {negative : Bool} {significand : Nat} {scale : Int} {json : Json}
    (read : exponentPart negative significand scale text = .ok (json, rest)) :
    rest <:+ text ∧ (rest ≠ [] →
      ∀ more, exponentPart negative significand scale (text ++ more) =
        .ok (json, rest ++ more)) := by
  rcases sign : exponentSign text with ⟨down, digits⟩
  obtain ⟨digitsSuffix, signExtended⟩ := exponentSign_extend sign
  rw [exponentPart_eq, sign] at read
  obtain ⟨isSuffix, extended⟩ := signedExponent_extend read
  refine ⟨isSuffix.trans digitsSuffix, fun nonempty more => ?_⟩
  rw [exponentPart_eq, signExtended (isSuffix.ne_nil nonempty) more]
  exact extended nonempty more

theorem fractionTail_extend {negative : Bool} {significand : Nat} {scale : Int} {json : Json}
    (read : fractionTail negative significand scale text = .ok (json, rest)) :
    rest <:+ text ∧ (rest ≠ [] →
      ∀ more, fractionTail negative significand scale (text ++ more) =
        .ok (json, rest ++ more)) := by
  cases text with
  | nil =>
    obtain ⟨rfl, -⟩ := scaled_extend read
    exact ⟨List.suffix_refl _, fun nonempty => absurd rfl nonempty⟩
  | cons c others =>
    rw [fractionTail] at read
    split at read
    next isMark =>
      obtain ⟨isSuffix, extended⟩ := exponentPart_extend read
      refine ⟨isSuffix.trans (List.suffix_cons c others), fun nonempty more => ?_⟩
      rw [List.cons_append, fractionTail, if_pos isMark]
      exact extended nonempty more
    next noMark =>
      obtain ⟨rfl, scaledAt⟩ := scaled_extend read
      refine ⟨List.suffix_refl _, fun nonempty more => ?_⟩
      rw [List.cons_append, fractionTail, if_neg noMark]
      exact scaledAt _

theorem fractionPart_extend {negative : Bool} {significand dropped : Nat} {json : Json}
    (read : fractionPart negative significand dropped text = .ok (json, rest)) :
    rest <:+ text ∧ (rest ≠ [] →
      ∀ more, fractionPart negative significand dropped (text ++ more) =
        .ok (json, rest ++ more)) := by
  by_cases hasDigits : (text.takeWhile isDigit).isEmpty
  · rw [fractionPart, if_pos hasDigits] at read
    cases read
  · rw [fractionPart_eq _ _ _ hasDigits] at read
    obtain ⟨isSuffix, extended⟩ := fractionTail_extend read
    refine ⟨isSuffix.trans (List.dropWhile_suffix _), fun nonempty more => ?_⟩
    have left : text.dropWhile isDigit ≠ [] := isSuffix.ne_nil nonempty
    rw [fractionPart_eq _ _ _ (by rwa [takeWhile_extend left]), takeWhile_extend left,
      dropWhile_extend left]
    exact extended nonempty more

theorem wholeNumber_extend {negative : Bool} {significand dropped : Nat} {json : Json}
    {left : List Char} (read : wholeNumber negative significand dropped left = .ok (json, rest)) :
    left = rest ∧ ∀ other, wholeNumber negative significand dropped other = .ok (json, other) := by
  rw [wholeNumber] at read
  split at read
  next integer =>
    cases read
    refine ⟨rfl, fun other => ?_⟩
    rw [wholeNumber, if_pos integer]
  next noInteger =>
    obtain ⟨rfl, scaledAt⟩ := scaled_extend read
    refine ⟨rfl, fun other => ?_⟩
    rw [wholeNumber, if_neg noInteger]
    exact scaledAt other

theorem numberTail_extend {negative : Bool} {significand dropped : Nat} {json : Json}
    (read : numberTail negative significand dropped text = .ok (json, rest)) :
    rest <:+ text ∧ (rest ≠ [] →
      ∀ more, numberTail negative significand dropped (text ++ more) =
        .ok (json, rest ++ more)) := by
  cases text with
  | nil =>
    obtain ⟨rfl, -⟩ := wholeNumber_extend read
    exact ⟨List.suffix_refl _, fun nonempty => absurd rfl nonempty⟩
  | cons c others =>
    have step (more : List Char) :=
      numberTail.eq_2 negative significand dropped c (others ++ more)
    rw [numberTail] at read
    split at read
    next isPoint =>
      obtain ⟨isSuffix, extended⟩ := fractionPart_extend read
      refine ⟨isSuffix.trans (List.suffix_cons c others), fun nonempty more => ?_⟩
      rw [List.cons_append, step, if_pos isPoint]
      exact extended nonempty more
    next noPoint =>
      split at read
      next isMark =>
        obtain ⟨isSuffix, extended⟩ := exponentPart_extend read
        refine ⟨isSuffix.trans (List.suffix_cons c others), fun nonempty more => ?_⟩
        rw [List.cons_append, step, if_neg noPoint, if_pos isMark]
        exact extended nonempty more
      next noMark =>
        obtain ⟨rfl, wholeAt⟩ := wholeNumber_extend read
        refine ⟨List.suffix_refl _, fun nonempty more => ?_⟩
        rw [List.cons_append, step, if_neg noPoint, if_neg noMark]
        exact wholeAt _

theorem number_extend {negative : Bool} {json : Json}
    (read : number negative text = .ok (json, rest)) :
    rest <:+ text.tail ∧
      (rest ≠ [] → ∀ more, number negative (text ++ more) = .ok (json, rest ++ more)) := by
  cases text with
  | nil => cases read
  | cons c others =>
    by_cases digit : isDigit c = true
    · by_cases zero : c = '0' ∧ 1 < ((c :: others).takeWhile isDigit).length
      · rw [number, if_neg (by simp [digit]), if_pos zero] at read
        cases read
      · rw [number_eq negative digit zero] at read
        obtain ⟨isSuffix, extended⟩ := numberTail_extend read
        have left (nonempty : rest ≠ []) : (c :: others).dropWhile isDigit ≠ [] :=
          isSuffix.ne_nil nonempty
        rw [List.dropWhile_cons_of_pos digit] at isSuffix
        refine ⟨isSuffix.trans (List.dropWhile_suffix _), fun nonempty more => ?_⟩
        have sameDigits := takeWhile_extend (left nonempty) more
        have sameRest := dropWhile_extend (left nonempty) more
        rw [List.cons_append] at sameDigits sameRest ⊢
        rw [number_eq negative digit (by rwa [sameDigits]), sameDigits, sameRest]
        exact extended nonempty more
    · rw [number, if_pos digit] at read
      cases read

/-! ### Numbers that are skipped -/

theorem skipExponent_extend (read : skipExponent text = .ok rest) :
    rest <:+ text ∧ (rest ≠ [] → ∀ more, skipExponent (text ++ more) = .ok (rest ++ more)) := by
  cases text with
  | nil => cases read
  | cons c others =>
    by_cases isSign : c = '+' ∨ c = '-'
    · cases others with
      | nil => simp [skipExponent, isSign] at read
      | cons d left =>
        simp only [skipExponent, if_pos isSign] at read
        split at read
        next digit =>
          cases read
          refine ⟨(List.dropWhile_suffix _).trans (List.suffix_append [c, d] left),
            fun nonempty more => ?_⟩
          simp only [List.cons_append, skipExponent, if_pos isSign, if_pos digit,
            dropWhile_extend nonempty]
        next => cases read
    · simp only [skipExponent, if_neg isSign] at read
      split at read
      next digit =>
        cases read
        refine ⟨(List.dropWhile_suffix _).trans (List.suffix_cons c others),
          fun nonempty more => ?_⟩
        simp only [List.cons_append, skipExponent, if_neg isSign, if_pos digit,
          dropWhile_extend nonempty]
      next => cases read

/-- Skips what may follow the last digit of a fraction. -/
def skipPower : List Char → Except Fault (List Char)
  | [] => .ok []
  | c :: others => if c = 'e' ∨ c = 'E' then skipExponent others else .ok (c :: others)

theorem skipFraction_of_point {others : List Char}
    (hasDigits : ¬(others.takeWhile isDigit).isEmpty) :
    skipFraction ('.' :: others) = skipPower (others.dropWhile isDigit) := by
  rw [skipFraction, if_pos rfl]
  dsimp only
  rw [if_neg hasDigits]
  cases others.dropWhile isDigit with
  | nil => rfl
  | cons c left => rfl

theorem skipFraction_of_other {c : Char} (notPoint : c ≠ '.') (others : List Char) :
    skipFraction (c :: others) = skipPower (c :: others) := by
  rw [skipFraction, if_neg notPoint]
  rfl

theorem skipPower_extend (read : skipPower text = .ok rest) :
    rest <:+ text ∧ (rest ≠ [] → ∀ more, skipPower (text ++ more) = .ok (rest ++ more)) := by
  cases text with
  | nil =>
    cases read
    exact ⟨List.suffix_refl _, fun nonempty => absurd rfl nonempty⟩
  | cons c others =>
    rw [skipPower] at read
    split at read
    next isMark =>
      obtain ⟨isSuffix, extended⟩ := skipExponent_extend read
      refine ⟨isSuffix.trans (List.suffix_cons c others), fun nonempty more => ?_⟩
      rw [List.cons_append, skipPower, if_pos isMark]
      exact extended nonempty more
    next noMark =>
      cases read
      refine ⟨List.suffix_refl _, fun _ more => ?_⟩
      rw [List.cons_append, skipPower, if_neg noMark]

theorem skipFraction_extend (read : skipFraction text = .ok rest) :
    rest <:+ text ∧ (rest ≠ [] → ∀ more, skipFraction (text ++ more) = .ok (rest ++ more)) := by
  cases text with
  | nil =>
    cases read
    exact ⟨List.suffix_refl _, fun nonempty => absurd rfl nonempty⟩
  | cons c others =>
    by_cases isPoint : c = '.'
    · subst isPoint
      by_cases noDigits : (others.takeWhile isDigit).isEmpty
      · simp only [skipFraction, if_true, if_pos noDigits] at read
        cases read
      · rw [skipFraction_of_point noDigits] at read
        obtain ⟨isSuffix, extended⟩ := skipPower_extend read
        refine ⟨isSuffix.trans ((List.dropWhile_suffix _).trans (List.suffix_cons _ others)),
          fun nonempty more => ?_⟩
        have left : others.dropWhile isDigit ≠ [] := isSuffix.ne_nil nonempty
        rw [List.cons_append, skipFraction_of_point (by rwa [takeWhile_extend left]),
          dropWhile_extend left]
        exact extended nonempty more
    · rw [skipFraction_of_other isPoint] at read
      obtain ⟨isSuffix, extended⟩ := skipPower_extend read
      refine ⟨isSuffix, fun nonempty more => ?_⟩
      rw [List.cons_append, skipFraction_of_other isPoint]
      exact extended nonempty more

theorem skipNumber_extend (read : skipNumber text = .ok rest) :
    rest <:+ text.tail ∧ (rest ≠ [] → ∀ more, skipNumber (text ++ more) = .ok (rest ++ more)) := by
  cases text with
  | nil => cases read
  | cons c others =>
    by_cases zero : c = '0'
    · simp only [skipNumber, if_pos zero] at read
      split at read
      next d left =>
        split at read
        next => cases read
        next noDigit =>
          obtain ⟨isSuffix, extended⟩ := skipFraction_extend read
          refine ⟨isSuffix, fun nonempty more => ?_⟩
          simp only [List.cons_append, skipNumber, if_pos zero, if_neg noDigit]
          exact extended nonempty more
      next =>
        obtain ⟨isSuffix, -⟩ := skipFraction_extend read
        exact ⟨isSuffix, fun nonempty => absurd (List.suffix_nil.mp isSuffix) nonempty⟩
    · by_cases digit : isDigit c = true
      · simp only [skipNumber, if_neg zero, if_pos digit] at read
        obtain ⟨isSuffix, extended⟩ := skipFraction_extend read
        refine ⟨isSuffix.trans (List.dropWhile_suffix _), fun nonempty more => ?_⟩
        simp only [List.cons_append, skipNumber, if_neg zero, if_pos digit,
          dropWhile_extend (isSuffix.ne_nil nonempty)]
        exact extended nonempty more
      · simp only [skipNumber, if_neg zero, if_neg digit] at read
        cases read

/-! ### Scalars -/

theorem map_literal_extend {expected : List Char} {result json : Json}
    (read : (literal expected text).map (result, ·) = .ok (json, rest)) :
    rest <:+ text ∧
      ∀ more, (literal expected (text ++ more)).map (result, ·) = .ok (json, rest ++ more) := by
  obtain ⟨left, taken, same⟩ := exists_of_map_eq_ok read
  cases same
  obtain ⟨isSuffix, extended⟩ := literal_extend taken
  refine ⟨isSuffix, fun more => ?_⟩
  rw [extended]
  rfl

theorem scalar_extend {json : Json} (read : scalar text = .ok (json, rest)) :
    rest <:+ text.tail ∧
      (rest ≠ [] → ∀ more, scalar (text ++ more) = .ok (json, rest ++ more)) := by
  cases text with
  | nil => cases read
  | cons c others =>
    have step (more : List Char) := scalar.eq_2 c (others ++ more)
    simp only [List.cons_append]
    rw [scalar] at read
    split at read
    next isNull =>
      obtain ⟨isSuffix, extended⟩ := map_literal_extend read
      refine ⟨isSuffix, fun _ more => ?_⟩
      rw [step, if_pos isNull, extended]
    next notNull =>
    split at read
    next isTrue =>
      obtain ⟨isSuffix, extended⟩ := map_literal_extend read
      refine ⟨isSuffix, fun _ more => ?_⟩
      rw [step, if_neg notNull, if_pos isTrue, extended]
    next notTrue =>
    split at read
    next isFalse =>
      obtain ⟨isSuffix, extended⟩ := map_literal_extend read
      refine ⟨isSuffix, fun _ more => ?_⟩
      rw [step, if_neg notNull, if_neg notTrue, if_pos isFalse, extended]
    next notFalse =>
    split at read
    next isQuote =>
      obtain ⟨⟨value, left⟩, taken, same⟩ := exists_of_map_eq_ok read
      cases same
      obtain ⟨isSuffix, extended⟩ := stringBody_extend taken
      refine ⟨isSuffix, fun _ more => ?_⟩
      rw [step, if_neg notNull, if_neg notTrue, if_neg notFalse, if_pos isQuote, extended]
      rfl
    next notQuote =>
    split at read
    next isMinus =>
      obtain ⟨isSuffix, extended⟩ := number_extend read
      refine ⟨isSuffix.trans (List.tail_suffix others), fun nonempty more => ?_⟩
      rw [step, if_neg notNull, if_neg notTrue, if_neg notFalse, if_neg notQuote, if_pos isMinus,
        extended nonempty]
    next notMinus =>
    split at read
    next digit =>
      obtain ⟨isSuffix, extended⟩ := number_extend read
      refine ⟨isSuffix, fun nonempty more => ?_⟩
      rw [step, if_neg notNull, if_neg notTrue, if_neg notFalse, if_neg notQuote, if_neg notMinus,
        if_pos digit]
      exact extended nonempty more
    next => cases read

theorem skipScalar_extend (read : skipScalar text = .ok rest) :
    rest <:+ text.tail ∧ (rest ≠ [] → ∀ more, skipScalar (text ++ more) = .ok (rest ++ more)) := by
  cases text with
  | nil => cases read
  | cons c others =>
    have step (more : List Char) := skipScalar.eq_2 c (others ++ more)
    simp only [List.cons_append]
    rw [skipScalar] at read
    split at read
    next isNull =>
      obtain ⟨isSuffix, extended⟩ := literal_extend read
      refine ⟨isSuffix, fun _ more => ?_⟩
      rw [step, if_pos isNull, extended]
    next notNull =>
    split at read
    next isTrue =>
      obtain ⟨isSuffix, extended⟩ := literal_extend read
      refine ⟨isSuffix, fun _ more => ?_⟩
      rw [step, if_neg notNull, if_pos isTrue, extended]
    next notTrue =>
    split at read
    next isFalse =>
      obtain ⟨isSuffix, extended⟩ := literal_extend read
      refine ⟨isSuffix, fun _ more => ?_⟩
      rw [step, if_neg notNull, if_neg notTrue, if_pos isFalse, extended]
    next notFalse =>
    split at read
    next isQuote =>
      obtain ⟨isSuffix, extended⟩ := skipString_extend read
      refine ⟨isSuffix, fun _ more => ?_⟩
      rw [step, if_neg notNull, if_neg notTrue, if_neg notFalse, if_pos isQuote, extended]
    next notQuote =>
    split at read
    next isMinus =>
      obtain ⟨isSuffix, extended⟩ := skipNumber_extend read
      refine ⟨isSuffix.trans (List.tail_suffix others), fun nonempty more => ?_⟩
      rw [step, if_neg notNull, if_neg notTrue, if_neg notFalse, if_neg notQuote, if_pos isMinus,
        extended nonempty]
    next notMinus =>
    split at read
    next digit =>
      obtain ⟨isSuffix, extended⟩ := skipNumber_extend read
      refine ⟨isSuffix, fun nonempty more => ?_⟩
      rw [step, if_neg notNull, if_neg notTrue, if_neg notFalse, if_neg notQuote, if_neg notMinus,
        if_pos digit]
      exact extended nonempty more
    next => cases read

end Json

end TreeScript
