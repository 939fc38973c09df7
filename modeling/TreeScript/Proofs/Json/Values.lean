/-
This file reads whole values back. Whatever form a value is written in, with blanks
in front of it and behind it, the reader gives the value and leaves what follows. The
count that bounds the reader is never used up: twice the length of the text is enough
for it, since a value has at least one character and every step of a list or object
goes past one.

Lists and objects are followed along their written form. Each element or member but
the first has a comma in front of it, which is the one difference that the steps make
between the first one and the others. Skipping follows the same forms.
-/

import TreeScript.Proofs.Json.Scalars

namespace TreeScript.Json

variable {values : Numeral → Option Json}

/-! ### Scalars -/

theorem isBlank_of_isDigit {c : Char} (digit : isDigit c = true) : isBlank c = false := by
  have apart : c ≠ ' ' ∧ c ≠ '\n' ∧ c ≠ '\t' ∧ c ≠ '\r' :=
    ⟨ne_of_isDigit digit (by decide), ne_of_isDigit digit (by decide),
      ne_of_isDigit digit (by decide), ne_of_isDigit digit (by decide)⟩
  simp [isBlank, apart]

/-- The first character of a numeral. -/
theorem Numeral.text_eq_cons (numeral : Numeral) :
    ∃ c others, numeral.text = c :: others ∧
      (numeral.negative = true ∧ c = '-' ∧ others = numeral.unsigned ∨
        numeral.negative = false ∧ isDigit c = true ∧ c :: others = numeral.unsigned) := by
  obtain ⟨c, others, isWhole⟩ := List.exists_cons_of_ne_nil numeral.nonempty
  have digit : isDigit c = true := numeral.isDigits c (by simp [isWhole])
  cases sign : numeral.negative with
  | true => exact ⟨'-', numeral.unsigned, by simp [text, sign], .inl ⟨rfl, rfl, rfl⟩⟩
  | false =>
    refine ⟨c, others ++ (numeral.fractionText ++ powerText numeral.power), ?_,
      .inr ⟨rfl, digit, ?_⟩⟩
    · simp [text, sign, unsigned, isWhole]
    · simp [unsigned, isWhole]

/-- The first character of a numeral tells that it is a number. -/
theorem Numeral.scalar_append (numeral : Numeral) (rest : List Char) :
    scalar (numeral.text ++ rest) = number numeral.negative (numeral.unsigned ++ rest) ∧
      skipScalar (numeral.text ++ rest) = skipNumber (numeral.unsigned ++ rest) := by
  obtain ⟨c, others, written, ⟨sign, rfl, rfl⟩ | ⟨sign, digit, isUnsigned⟩⟩ := numeral.text_eq_cons
  · rw [written, sign]
    exact ⟨rfl, rfl⟩
  · have apart : c ≠ 'n' ∧ c ≠ 't' ∧ c ≠ 'f' ∧ c ≠ '"' ∧ c ≠ '-' :=
      ⟨ne_of_isDigit digit (by decide), ne_of_isDigit digit (by decide),
        ne_of_isDigit digit (by decide), ne_of_isDigit digit (by decide),
        ne_of_isDigit digit (by decide)⟩
    rw [written, sign, ← isUnsigned]
    simp only [List.cons_append, scalar, skipScalar, apart, digit, if_false, if_true, and_self]

theorem scalar_number {numeral : Numeral} {json : Json} (hasValue : numeral.json? = some json)
    {rest : List Char} (stops : StopsNumber rest) :
    scalar (numeral.text ++ rest) = .ok (json, rest) :=
  (numeral.scalar_append rest).1.trans (Numeral.number_append hasValue stops)

theorem skipScalar_number (numeral : Numeral) {rest : List Char} (stops : StopsNumber rest) :
    skipScalar (numeral.text ++ rest) = .ok rest :=
  (numeral.scalar_append rest).2.trans (numeral.skipNumber_append stops)

/-- A string is read and skipped as a scalar. -/
theorem scalar_string {value : String} {text : List Char} (written : WritesString value text)
    (rest : List Char) :
    scalar (text ++ rest) = .ok (.string value, rest) ∧ skipScalar (text ++ rest) = .ok rest := by
  obtain ⟨body, opened, read⟩ := stringBody_append written rest
  obtain ⟨same, sameOpened, skipped⟩ := skipString_append written rest
  obtain rfl : body = same := List.tail_eq_of_cons_eq (opened.symm.trans sameOpened)
  rw [opened]
  constructor
  · show (stringBody [] body).map _ = _
    rw [read]
    rfl
  · exact skipped

/-- The first character of a value tells it apart from blanks, commas and closing brackets. -/
theorem Writes.eq_cons {json : Json} {text : List Char} (written : Writes values json text) :
    ∃ c others, text = c :: others ∧ isBlank c = false ∧ c ≠ ']' ∧ c ≠ '\x7d' := by
  cases written with
  | null | isTrue | isFalse | emptyArray | array | emptyObject | object =>
    exact ⟨_, _, rfl, by decide, by decide, by decide⟩
  | number hasValue =>
    rename_i numeral
    obtain ⟨c, others, written, ⟨-, rfl, -⟩ | ⟨-, digit, -⟩⟩ := numeral.text_eq_cons
    · exact ⟨_, _, written, by decide, by decide, by decide⟩
    · exact ⟨c, others, written, isBlank_of_isDigit digit, ne_of_isDigit digit (by decide),
        ne_of_isDigit digit (by decide)⟩
  | string written =>
    obtain @⟨body, -⟩ := written
    exact ⟨_, _, rfl, by decide, by decide, by decide⟩

theorem Writes.length_pos {json : Json} {text : List Char} (written : Writes values json text) :
    0 < text.length := by
  obtain ⟨c, others, rfl, -⟩ := written.eq_cons
  exact Nat.succ_pos _

/-! ### Steps -/

/-- What stands in front of an element or a member. -/
def separator (isFirst : Bool) : List Char :=
  if isFirst then [] else [',']

theorem StopsNumber.of_blank {text rest : List Char} (blank : Blank text)
    (stops : StopsNumber rest) : StopsNumber (text ++ rest) := by
  cases text with
  | nil => exact stops
  | cons c text =>
    rintro _ ⟨⟩
    have isBlank := blank c List.mem_cons_self
    simp only [Json.isBlank, Bool.or_eq_true, decide_eq_true_eq] at isBlank
    rcases isBlank with ((rfl | rfl) | rfl) | rfl <;> decide

theorem stopsNumber_cons {c : Char} (stops : c = ',' ∨ c = ']' ∨ c = '\x7d') (rest : List Char) :
    StopsNumber (c :: rest) := by
  rintro _ ⟨⟩
  rcases stops with rfl | rfl | rfl <;> decide

section Steps

variable {before between : List Char} (blankBefore : Blank before) (blankBetween : Blank between)

include blankBefore

theorem nextElement_close (isFirst : Bool) (rest : List Char) :
    nextElement isFirst (before ++ ']' :: rest) = .ok none := by
  simp only [nextElement, skipBlank_append_cons blankBefore isBlank_closingBracket, if_true]

theorem closeList_append (rest : List Char) : closeList (before ++ ']' :: rest) = .ok rest := by
  simp only [closeList, skipBlank_append_cons blankBefore isBlank_closingBracket, if_true]

theorem nextKey_close (isFirst : Bool) (rest : List Char) :
    nextKey isFirst (before ++ '\x7d' :: rest) = .ok none := by
  simp only [nextKey, skipBlank_append_cons blankBefore isBlank_closingBrace, if_true]

theorem closeObject_append (rest : List Char) :
    closeObject (before ++ '\x7d' :: rest) = .ok rest := by
  simp only [closeObject, skipBlank_append_cons blankBefore isBlank_closingBrace, if_true]

theorem colon_append (rest : List Char) : colon (before ++ ':' :: rest) = .ok rest := by
  simp only [colon, skipBlank_append_cons blankBefore isBlank_colon, if_true]

include blankBetween

/-- In front of a value there is another element. -/
theorem nextElement_value (isFirst : Bool) {text rest : List Char} {json : Json}
    (written : Writes values json text) :
    nextElement isFirst (before ++ (separator isFirst ++ (between ++ (text ++ rest)))) =
      .ok (some (text ++ rest)) := by
  obtain ⟨c, others, rfl, notBlank, notBracket, -⟩ := written.eq_cons
  cases isFirst with
  | true =>
    simp only [separator, if_true, List.nil_append, List.cons_append, nextElement,
      skipBlank_append blankBefore, skipBlank_append_cons blankBetween notBlank]
    simp [notBracket]
  | false =>
    simp only [separator, List.cons_append, List.nil_append, nextElement, if_neg Bool.false_ne_true,
      skipBlank_append_cons blankBefore isBlank_comma, skipBlank_append_cons blankBetween notBlank]
    simp [notBracket]

/-- In front of a string there is another key. -/
theorem nextKey_string (isFirst : Bool) {text : List Char} {key : String}
    (written : WritesString key text) (rest : List Char) :
    nextKey isFirst (before ++ (separator isFirst ++ (between ++ (text ++ rest)))) =
      .ok (some (key, rest)) := by
  obtain ⟨body, opened, read⟩ := stringBody_append written rest
  rw [opened]
  cases isFirst with
  | true =>
    simp only [separator, if_true, List.nil_append, nextKey, skipBlank_append blankBefore,
      skipBlank_append_cons blankBetween isBlank_quote, read]
    rfl
  | false =>
    simp only [separator, List.cons_append, List.nil_append, nextKey, if_neg Bool.false_ne_true,
      skipBlank_append_cons blankBefore isBlank_comma,
      skipBlank_append_cons blankBetween isBlank_quote, read]
    rfl

end Steps

/-! ### Values -/

/-- A text that a scalar starts with. -/
def OpensScalar (text : List Char) : Prop :=
  ∃ c others, text = c :: others ∧ isBlank c = false ∧ c ≠ '[' ∧ c ≠ '\x7b'

theorem Numeral.opensScalar (numeral : Numeral) : OpensScalar numeral.text := by
  obtain ⟨c, others, written, ⟨-, rfl, -⟩ | ⟨-, digit, -⟩⟩ := numeral.text_eq_cons
  · exact ⟨_, _, written, by decide, by decide, by decide⟩
  · exact ⟨c, others, written, isBlank_of_isDigit digit, ne_of_isDigit digit (by decide),
      ne_of_isDigit digit (by decide)⟩

theorem WritesString.opensScalar {value : String} {text : List Char}
    (written : WritesString value text) : OpensScalar text := by
  obtain @⟨body, -⟩ := written
  exact ⟨_, _, rfl, by decide, by decide, by decide⟩

theorem value_of_scalar {json : Json} {before text rest : List Char} (opens : OpensScalar text)
    (read : scalar (text ++ rest) = .ok (json, rest)) {count : Nat}
    (enough : 2 * text.length ≤ count) (blank : Blank before) :
    value count (before ++ (text ++ rest)) = .ok (json, rest) := by
  obtain ⟨c, others, rfl, notBlank, notBracket, notBrace⟩ := opens
  cases count with
  | zero => simp at enough
  | succ count =>
    rw [List.cons_append] at read ⊢
    simp only [value, skipBlank_append_cons blank notBlank, notBracket, notBrace, if_false, read]

theorem value_of_elements {before inner after rest : List Char} {items : List Json} {count : Nat}
    (blank : Blank before) (blankAfter : Blank after)
    (read : elements count true [] inner = .ok (items, after ++ ']' :: rest)) :
    value (count + 1) (before ++ '[' :: inner) = .ok (.array items, rest) := by
  simp only [value, skipBlank_append_cons blank isBlank_bracket, if_true, read]
  show (closeList (after ++ ']' :: rest) >>= fun rest => Except.ok (Json.array items, rest)) = _
  rw [closeList_append blankAfter]
  rfl

theorem value_of_members {before inner after rest : List Char} {fields : List (String × Json)}
    {count : Nat} (blank : Blank before) (blankAfter : Blank after)
    (read : members count true [] inner = .ok (fields, after ++ '\x7d' :: rest)) :
    value (count + 1) (before ++ '\x7b' :: inner) = .ok (.object fields, rest) := by
  have notBracket : '\x7b' ≠ '[' := by decide
  simp only [value, skipBlank_append_cons blank isBlank_brace, notBracket, if_false, if_true, read]
  show (closeObject (after ++ '\x7d' :: rest) >>= fun rest =>
    Except.ok (Json.object fields, rest)) = _
  rw [closeObject_append blankAfter]
  rfl

theorem elements_close (isFirst : Bool) (done : List Json) {before : List Char}
    (blank : Blank before) (count : Nat) (rest : List Char) :
    elements (count + 1) isFirst done (before ++ ']' :: rest) =
      .ok (done.reverse, before ++ ']' :: rest) := by
  rw [elements, nextElement_close blank]
  rfl

theorem elements_step (isFirst : Bool) (done : List Json) {before between text rest : List Char}
    (blankBefore : Blank before) (blankBetween : Blank between) {json : Json}
    (written : Writes values json text) {count : Nat}
    (read : value count (text ++ rest) = .ok (json, rest)) :
    elements (count + 1) isFirst done
        (before ++ (separator isFirst ++ (between ++ (text ++ rest)))) =
      elements count false (json :: done) rest := by
  rw [elements, nextElement_value blankBefore blankBetween isFirst written]
  show (value count (text ++ rest) >>= fun read => elements count false (read.1 :: done) read.2) = _
  rw [read]
  rfl

theorem members_close (isFirst : Bool) (done : List (String × Json)) {before : List Char}
    (blank : Blank before) (count : Nat) (rest : List Char) :
    members (count + 1) isFirst done (before ++ '\x7d' :: rest) =
      .ok (done.reverse, before ++ '\x7d' :: rest) := by
  rw [members, nextKey_close blank]
  rfl

theorem members_step (isFirst : Bool) (done : List (String × Json))
    {before between keyText space text rest : List Char} (blankBefore : Blank before)
    (blankBetween : Blank between) {key : String} (keyWritten : WritesString key keyText)
    (blankSpace : Blank space) {json : Json} {count : Nat}
    (read : value count text = .ok (json, rest)) :
    members (count + 1) isFirst done (before ++ (separator isFirst ++
        (between ++ (keyText ++ (space ++ ':' :: text))))) =
      members count false ((key, json) :: done) rest := by
  rw [members, nextKey_string blankBefore blankBetween isFirst keyWritten]
  show (colon (space ++ ':' :: text) >>= fun after => value count after >>= fun read =>
    members count false ((key, read.1) :: done) read.2) = _
  rw [colon_append blankSpace]
  show (value count text >>= fun read => members count false ((key, read.1) :: done) read.2) = _
  rw [read]
  rfl

mutual

/-- A value is read and what follows it is left. -/
theorem value_append {json : Json} {text : List Char}
    (written : Writes Numeral.json? json text) {count : Nat} (enough : 2 * text.length ≤ count)
    {before rest : List Char} (blank : Blank before) (stops : StopsNumber rest) :
    value count (before ++ (text ++ rest)) = .ok (json, rest) :=
  match written with
  | .null => value_of_scalar ⟨_, _, rfl, by decide, by decide, by decide⟩ rfl enough blank
  | .isTrue => value_of_scalar ⟨_, _, rfl, by decide, by decide, by decide⟩ rfl enough blank
  | .isFalse => value_of_scalar ⟨_, _, rfl, by decide, by decide, by decide⟩ rfl enough blank
  | .number hasValue =>
    value_of_scalar (Numeral.opensScalar _) (scalar_number hasValue stops) enough blank
  | .string written =>
    value_of_scalar written.opensScalar (scalar_string written rest).1 enough blank
  | .emptyArray inside => by
    obtain ⟨count, rfl⟩ : ∃ less, count = less + 2 := ⟨count - 2, by simp at enough; omega⟩
    rw [List.cons_append, List.append_assoc, List.singleton_append]
    exact value_of_elements blank inside (elements_close true [] inside count rest)
  | .array inside => by
    obtain ⟨count, rfl⟩ : ∃ less, count = less + 1 := ⟨count - 1, by simp at enough; omega⟩
    obtain ⟨after, blankAfter, read⟩ := elements_append inside true
      (by simp at enough; omega : _ ≤ count) [] blank_nil rest
    rw [List.cons_append, List.append_assoc, List.singleton_append]
    exact value_of_elements blank blankAfter read
  | .emptyObject inside => by
    obtain ⟨count, rfl⟩ : ∃ less, count = less + 2 := ⟨count - 2, by simp at enough; omega⟩
    rw [List.cons_append, List.append_assoc, List.singleton_append]
    exact value_of_members blank inside (members_close true [] inside count rest)
  | .object inside => by
    obtain ⟨count, rfl⟩ : ∃ less, count = less + 1 := ⟨count - 1, by simp at enough; omega⟩
    obtain ⟨after, blankAfter, read⟩ := members_append inside true
      (by simp at enough; omega : _ ≤ count) [] blank_nil rest
    rw [List.cons_append, List.append_assoc, List.singleton_append]
    exact value_of_members blank blankAfter read

/-- Elements are read up to the closing bracket of their list. -/
theorem elements_append {items : List Json} {text : List Char}
    (written : WritesElements Numeral.json? items text) (isFirst : Bool) {count : Nat}
    (enough : 2 * text.length + 1 ≤ count) (done : List Json) {before : List Char}
    (blank : Blank before) (rest : List Char) :
    ∃ after, Blank after ∧
      elements count isFirst done (before ++ (separator isFirst ++ (text ++ ']' :: rest))) =
        .ok (done.reverse ++ items, after ++ ']' :: rest) :=
  match written with
  | .last (@WritesElement.intro _ _ _ _ after blankBefore written blankAfter) => by
    have nonempty := written.length_pos
    simp only [List.length_append] at enough
    obtain ⟨count, rfl⟩ : ∃ less, count = less + 2 := ⟨count - 2, by omega⟩
    have read := value_append written (by omega : _ ≤ count + 1) blank_nil
      (StopsNumber.of_blank blankAfter (stopsNumber_cons (.inr (.inl rfl)) rest))
    refine ⟨after, blankAfter, ?_⟩
    simp only [List.append_assoc]
    rw [elements_step isFirst done blank blankBefore written read,
      elements_close false _ blankAfter, List.reverse_cons]
  | @WritesElements.cons _ _ _ _ more
      (@WritesElement.intro _ item _ _ after blankBefore written blankAfter) others => by
    have nonempty := written.length_pos
    simp only [List.length_append, List.length_cons] at enough
    obtain ⟨count, rfl⟩ : ∃ less, count = less + 1 := ⟨count - 1, by omega⟩
    have read := value_append written (by omega : _ ≤ count) blank_nil
      (StopsNumber.of_blank blankAfter (stopsNumber_cons (.inl rfl) (more ++ ']' :: rest)))
    obtain ⟨last, blankLast, readMore⟩ := elements_append others false (by omega : _ ≤ count)
      (item :: done) blankAfter rest
    refine ⟨last, blankLast, ?_⟩
    simp only [List.append_assoc, List.cons_append]
    rw [elements_step isFirst done blank blankBefore written read]
    simpa [separator] using readMore

/-- Members are read up to the closing brace of their object. -/
theorem members_append {fields : List (String × Json)} {text : List Char}
    (written : WritesMembers Numeral.json? fields text) (isFirst : Bool) {count : Nat}
    (enough : 2 * text.length + 1 ≤ count) (done : List (String × Json)) {before : List Char}
    (blank : Blank before) (rest : List Char) :
    ∃ after, Blank after ∧
      members count isFirst done (before ++ (separator isFirst ++ (text ++ '\x7d' :: rest))) =
        .ok (done.reverse ++ fields, after ++ '\x7d' :: rest) :=
  match written with
  | .last (@WritesMember.intro _ _ _ _ _ _ _ _ after blankBefore keyWritten blankBetween blankSpace
      written blankAfter) => by
    have nonempty := written.length_pos
    simp only [List.length_append, List.length_cons] at enough
    obtain ⟨count, rfl⟩ : ∃ less, count = less + 2 := ⟨count - 2, by omega⟩
    have read := value_append written (by omega : _ ≤ count + 1) blankSpace
      (StopsNumber.of_blank blankAfter (stopsNumber_cons (.inr (.inr rfl)) rest))
    refine ⟨after, blankAfter, ?_⟩
    simp only [List.append_assoc, List.cons_append]
    rw [members_step isFirst done blank blankBefore keyWritten blankBetween read,
      members_close false _ blankAfter, List.reverse_cons]
  | @WritesMembers.cons _ _ _ _ more (@WritesMember.intro _ key json _ _ _ _ _ after blankBefore
      keyWritten blankBetween blankSpace written blankAfter) others => by
    have nonempty := written.length_pos
    simp only [List.length_append, List.length_cons] at enough
    obtain ⟨count, rfl⟩ : ∃ less, count = less + 1 := ⟨count - 1, by omega⟩
    have read := value_append written (by omega : _ ≤ count) blankSpace
      (StopsNumber.of_blank blankAfter (stopsNumber_cons (.inl rfl) (more ++ '\x7d' :: rest)))
    obtain ⟨last, blankLast, readMore⟩ := members_append others false (by omega : _ ≤ count)
      ((key, json) :: done) blankAfter rest
    refine ⟨last, blankLast, ?_⟩
    simp only [List.append_assoc, List.cons_append]
    rw [members_step isFirst done blank blankBefore keyWritten blankBetween read]
    simpa [separator] using readMore

end

/-! ### Skipping -/

theorem skipValue_of_scalar {before text rest : List Char} (opens : OpensScalar text)
    (skipped : skipScalar (text ++ rest) = .ok rest) {count : Nat}
    (enough : 2 * text.length ≤ count) (blank : Blank before) :
    skipValue count (before ++ (text ++ rest)) = .ok rest := by
  obtain ⟨c, others, rfl, notBlank, notBracket, notBrace⟩ := opens
  cases count with
  | zero => simp at enough
  | succ count =>
    rw [List.cons_append] at skipped ⊢
    simp only [skipValue, skipBlank_append_cons blank notBlank, notBracket, notBrace, if_false,
      skipped]

/-- Elements start with no closing bracket. -/
theorem WritesElements.opens {items : List Json} {text : List Char}
    (written : WritesElements values items text) :
    ∃ before c others, text = before ++ c :: others ∧ Blank before ∧ isBlank c = false ∧
      c ≠ ']' := by
  cases written with
  | last first =>
    obtain @⟨_, before, _, after, blankBefore, inner, -⟩ := first
    obtain ⟨c, others, rfl, notBlank, notBracket, -⟩ := inner.eq_cons
    exact ⟨before, c, others ++ after, by simp, blankBefore, notBlank, notBracket⟩
  | @cons _ _ _ more first =>
    obtain @⟨_, before, _, after, blankBefore, inner, -⟩ := first
    obtain ⟨c, others, rfl, notBlank, notBracket, -⟩ := inner.eq_cons
    exact ⟨before, c, others ++ (after ++ ',' :: more), by simp, blankBefore, notBlank, notBracket⟩

/-- Members start with a quote. -/
theorem WritesMembers.opens {fields : List (String × Json)} {text : List Char}
    (written : WritesMembers values fields text) :
    ∃ before others, text = before ++ '"' :: others ∧ Blank before := by
  cases written with
  | last first =>
    obtain @⟨_, _, before, _, _, _, _, _, blankBefore, @⟨body, -⟩⟩ := first
    exact ⟨before, _, by rw [List.cons_append], blankBefore⟩
  | cons first =>
    obtain @⟨_, _, before, _, _, _, _, _, blankBefore, @⟨body, -⟩⟩ := first
    exact ⟨before, _, by rw [List.append_assoc, List.cons_append, List.cons_append], blankBefore⟩

theorem skipValue_of_elements {before text rest : List Char} (blank : Blank before)
    {items : List Json} (written : WritesElements values items text) {count : Nat}
    (skipped : skipElements count (text ++ ']' :: rest) = .ok rest) :
    skipValue (count + 1) (before ++ '[' :: (text ++ ']' :: rest)) = .ok rest := by
  obtain ⟨space, c, others, rfl, blankSpace, notBlank, notBracket⟩ := written.opens
  rw [List.append_assoc, List.cons_append] at skipped ⊢
  simp only [skipValue, skipBlank_append_cons blank isBlank_bracket, if_true,
    skipBlank_append_cons blankSpace notBlank, notBracket, if_false, skipped]

theorem skipValue_of_members {before text rest : List Char} (blank : Blank before)
    {fields : List (String × Json)} (written : WritesMembers values fields text) {count : Nat}
    (skipped : skipMembers count (text ++ '\x7d' :: rest) = .ok rest) :
    skipValue (count + 1) (before ++ '\x7b' :: (text ++ '\x7d' :: rest)) = .ok rest := by
  obtain ⟨space, others, rfl, blankSpace⟩ := written.opens
  have notBracket : '\x7b' ≠ '[' := by decide
  have notBrace : '"' ≠ '\x7d' := by decide
  rw [List.append_assoc, List.cons_append] at skipped ⊢
  simp only [skipValue, skipBlank_append_cons blank isBlank_brace, notBracket, if_false, if_true,
    skipBlank_append_cons blankSpace isBlank_quote, notBrace, skipped]

theorem skipElements_close {text after rest : List Char} (blank : Blank after) {count : Nat}
    (skipped : skipValue count text = .ok (after ++ ']' :: rest)) :
    skipElements (count + 1) text = .ok rest := by
  simp only [skipElements, skipped, bind, Except.bind,
    skipBlank_append_cons blank isBlank_closingBracket, if_true]

theorem skipElements_step {text after rest : List Char} (blank : Blank after) {count : Nat}
    (skipped : skipValue count text = .ok (after ++ ',' :: rest)) :
    skipElements (count + 1) text = skipElements count rest := by
  have notBracket : ',' ≠ ']' := by decide
  simp only [skipElements, skipped, bind, Except.bind, skipBlank_append_cons blank isBlank_comma,
    notBracket, if_false, if_true]

theorem skipKey_append {before between text rest : List Char} (blankBefore : Blank before)
    (blankBetween : Blank between) {key : String} (written : WritesString key text) :
    skipKey (before ++ (text ++ (between ++ ':' :: rest))) = .ok rest := by
  obtain ⟨body, opened, skipped⟩ := skipString_append written (between ++ ':' :: rest)
  simp only [opened, skipKey, skipBlank_append_cons blankBefore isBlank_quote, if_true, skipped]
  exact colon_append blankBetween rest

theorem skipMembers_close {keyed text after rest : List Char} (blank : Blank after) {count : Nat}
    (key : skipKey keyed = .ok text)
    (skipped : skipValue count text = .ok (after ++ '\x7d' :: rest)) :
    skipMembers (count + 1) keyed = .ok rest := by
  simp only [skipMembers, key, skipped, bind, Except.bind,
    skipBlank_append_cons blank isBlank_closingBrace, if_true]

theorem skipMembers_step {keyed text after rest : List Char} (blank : Blank after) {count : Nat}
    (key : skipKey keyed = .ok text)
    (skipped : skipValue count text = .ok (after ++ ',' :: rest)) :
    skipMembers (count + 1) keyed = skipMembers count rest := by
  have notBrace : ',' ≠ '\x7d' := by decide
  simp only [skipMembers, key, skipped, bind, Except.bind,
    skipBlank_append_cons blank isBlank_comma, notBrace, if_false, if_true]

mutual

/-- A value is skipped and what follows it is left. -/
theorem skipValue_append {json : Json} {text : List Char}
    (written : Writes values json text) {count : Nat} (enough : 2 * text.length ≤ count)
    {before rest : List Char} (blank : Blank before) (stops : StopsNumber rest) :
    skipValue count (before ++ (text ++ rest)) = .ok rest :=
  match written with
  | .null => skipValue_of_scalar ⟨_, _, rfl, by decide, by decide, by decide⟩ rfl enough blank
  | .isTrue => skipValue_of_scalar ⟨_, _, rfl, by decide, by decide, by decide⟩ rfl enough blank
  | .isFalse => skipValue_of_scalar ⟨_, _, rfl, by decide, by decide, by decide⟩ rfl enough blank
  | .number hasValue =>
    skipValue_of_scalar (Numeral.opensScalar _) (skipScalar_number _ stops) enough blank
  | .string written =>
    skipValue_of_scalar written.opensScalar (scalar_string written rest).2 enough blank
  | .emptyArray inside => by
    obtain ⟨count, rfl⟩ : ∃ less, count = less + 1 := ⟨count - 1, by simp at enough; omega⟩
    simp only [List.cons_append, List.append_assoc, List.nil_append, skipValue,
      skipBlank_append_cons blank isBlank_bracket,
      skipBlank_append_cons inside isBlank_closingBracket, if_true]
  | .array inside => by
    obtain ⟨count, rfl⟩ : ∃ less, count = less + 1 := ⟨count - 1, by simp at enough; omega⟩
    rw [List.cons_append, List.append_assoc, List.singleton_append]
    exact skipValue_of_elements blank inside
      (skipElements_append inside (by simp at enough; omega) rest)
  | .emptyObject inside => by
    obtain ⟨count, rfl⟩ : ∃ less, count = less + 1 := ⟨count - 1, by simp at enough; omega⟩
    have notBracket : '\x7b' ≠ '[' := by decide
    simp only [List.cons_append, List.append_assoc, List.nil_append, skipValue,
      skipBlank_append_cons blank isBlank_brace, skipBlank_append_cons inside isBlank_closingBrace,
      notBracket, if_false, if_true]
  | .object inside => by
    obtain ⟨count, rfl⟩ : ∃ less, count = less + 1 := ⟨count - 1, by simp at enough; omega⟩
    rw [List.cons_append, List.append_assoc, List.singleton_append]
    exact skipValue_of_members blank inside
      (skipMembers_append inside (by simp at enough; omega) rest)

/-- Elements are skipped with the closing bracket of their list. -/
theorem skipElements_append {items : List Json} {text : List Char}
    (written : WritesElements values items text) {count : Nat}
    (enough : 2 * text.length + 1 ≤ count) (rest : List Char) :
    skipElements count (text ++ ']' :: rest) = .ok rest :=
  match written with
  | .last (.intro blankBefore written blankAfter) => by
    have nonempty := written.length_pos
    simp only [List.length_append] at enough
    obtain ⟨count, rfl⟩ : ∃ less, count = less + 1 := ⟨count - 1, by omega⟩
    simp only [List.append_assoc]
    exact skipElements_close blankAfter (skipValue_append written (by omega) blankBefore
      (StopsNumber.of_blank blankAfter (stopsNumber_cons (.inr (.inl rfl)) rest)))
  | @WritesElements.cons _ _ _ _ more (.intro blankBefore written blankAfter) others => by
    have nonempty := written.length_pos
    simp only [List.length_append, List.length_cons] at enough
    obtain ⟨count, rfl⟩ : ∃ less, count = less + 1 := ⟨count - 1, by omega⟩
    simp only [List.append_assoc, List.cons_append]
    rw [skipElements_step blankAfter (skipValue_append written (by omega) blankBefore
      (StopsNumber.of_blank blankAfter (stopsNumber_cons (.inl rfl) (more ++ ']' :: rest))))]
    exact skipElements_append others (by omega) rest

/-- Members are skipped with the closing brace of their object. -/
theorem skipMembers_append {fields : List (String × Json)} {text : List Char}
    (written : WritesMembers values fields text) {count : Nat}
    (enough : 2 * text.length + 1 ≤ count) (rest : List Char) :
    skipMembers count (text ++ '\x7d' :: rest) = .ok rest :=
  match written with
  | .last (.intro blankBefore keyWritten blankBetween blankSpace written blankAfter) => by
    have nonempty := written.length_pos
    simp only [List.length_append, List.length_cons] at enough
    obtain ⟨count, rfl⟩ : ∃ less, count = less + 1 := ⟨count - 1, by omega⟩
    simp only [List.append_assoc, List.cons_append]
    exact skipMembers_close blankAfter (skipKey_append blankBefore blankBetween keyWritten)
      (skipValue_append written (by omega) blankSpace
        (StopsNumber.of_blank blankAfter (stopsNumber_cons (.inr (.inr rfl)) rest)))
  | @WritesMembers.cons _ _ _ _ more
      (.intro blankBefore keyWritten blankBetween blankSpace written blankAfter) others => by
    have nonempty := written.length_pos
    simp only [List.length_append, List.length_cons] at enough
    obtain ⟨count, rfl⟩ : ∃ less, count = less + 1 := ⟨count - 1, by omega⟩
    simp only [List.append_assoc, List.cons_append]
    rw [skipMembers_step blankAfter (skipKey_append blankBefore blankBetween keyWritten)
      (skipValue_append written (by omega) blankSpace
        (StopsNumber.of_blank blankAfter (stopsNumber_cons (.inl rfl) (more ++ '\x7d' :: rest))))]
    exact skipMembers_append others (by omega) rest

end

end TreeScript.Json
