/-
This file parses renderings of programs. A rendering writes a program in any of its
shapes, with blanks and escapes as one likes. Beside the name and the term the outermost
record may hold members that mean nothing, and since their values are skipped there may
be numbers of any size in them. The members fill a name and a term, each at most once;
a member is recorded or skipped, and the text goes on behind it.

The main statement is that every rendering of every program is parsed to that program.
Which numbers may stand in the term is decided by the way the reader computes doubles,
so it is also said that only numbers above the fourth largest double can be refused, and
one of them is.
-/

import TreeScript.Proofs.Decoding.RootTerm
import TreeScript.Proofs.Json.Range
import Mathlib.Tactic.Convert

namespace TreeScript

namespace Decoding

open Json

/-! ### Renderings of programs -/

section Rendering

variable (values : Numeral → Option Json)

/-- A member of the outermost record. One that means nothing may hold any numbers. -/
inductive WritesField : String × Json → List Char → Prop where
  | known {member : String × Json} {text : List Char} (written : WritesMember values member text) :
      WritesField member text
  | other {any : Numeral → Option Json} {member : String × Json} {text : List Char}
      (notName : member.1 ≠ "name") (notExpression : member.1 ≠ "expression")
      (written : WritesMember any member text) : WritesField member text

/-- The members of the outermost record, with commas between them. -/
inductive WritesFields : List (String × Json) → List Char → Prop where
  | last {member : String × Json} {text : List Char} (written : WritesField values member text) :
      WritesFields [member] text
  | cons {member : String × Json} {members : List (String × Json)} {text more : List Char}
      (first : WritesField values member text) (others : WritesFields members more) :
      WritesFields (member :: members) (text ++ ',' :: more)

/-- The outermost record of a program, by name or by position. A name that is not given is
empty. -/
inductive WritesProgram (program : Program) : List Char → Prop where
  | named {members : List (String × Json)} {expression : Json} {text : List Char}
      (name : Once members "name" (.string program.name) ∨
        program.name = "" ∧ ∀ member ∈ members, member.1 ≠ "name")
      (once : Once members "expression" expression)
      (root : EncodesRoot program.expression expression)
      (written : WritesFields values members text) :
      WritesProgram program ('\x7b' :: (text ++ ['\x7d']))
  | positional {expression : Json} {text : List Char}
      (root : EncodesRoot program.expression expression)
      (written : WritesElements values [.string program.name, expression] text) :
      WritesProgram program ('[' :: (text ++ [']']))

/-- A text is a rendering of a program, with blanks around it. -/
inductive Renders (program : Program) : List Char → Prop where
  | intro {before text after : List Char} (blankBefore : Blank before)
      (written : WritesProgram values program text) (blankAfter : Blank after) :
      Renders program (before ++ (text ++ after))

end Rendering

/-! ### The outermost record -/

section Completion

variable {α : Type} {reads : Json → α → Prop} {key : String} {member : String × Json}
  {members : List (String × Json)} {given final : Option α}

/-- What members make of a value that one of them may give. -/
inductive Completes (reads : Json → α → Prop) (key : String) (members : List (String × Json)) :
    Option α → Option α → Prop where
  | absent {given : Option α} (absent : ∀ member ∈ members, member.1 ≠ key) :
      Completes reads key members given given
  | once {json : Json} {value : α} (once : Once members key json) (isValue : reads json value) :
      Completes reads key members none (some value)

theorem Completes.of_ne (completes : Completes reads key (member :: members) given final)
    (different : member.1 ≠ key) : Completes reads key members given final := by
  cases completes with
  | absent absent =>
    exact .absent fun other inside => absent other (List.mem_cons_of_mem _ inside)
  | once once isValue =>
    rw [Once, List.filter_cons_of_neg (by simpa using different)] at once
    exact .once once isValue

theorem Completes.of_eq (completes : Completes reads key (member :: members) given final)
    (same : member.1 = key) :
    given = none ∧ ∃ value, reads member.2 value ∧
      Completes reads key members (some value) final := by
  cases completes with
  | absent absent => exact absurd same (absent member List.mem_cons_self)
  | @once json value once isValue =>
    rw [Once, List.filter_cons_of_pos (by simpa using same), List.cons.injEq] at once
    obtain ⟨rfl, absent⟩ := once
    exact ⟨rfl, value, isValue, .absent fun other inside => by
      simpa using List.filter_eq_nil_iff.mp absent other inside⟩

theorem Completes.eq_of_nil (completes : Completes reads key [] given final) : given = final := by
  cases completes with
  | absent => rfl
  | once once => exact absurd rfl once.ne_nil

end Completion

/-- The members of a program that are still to come give it this name and this term. -/
structure Awaits (members : List (String × Json)) (name : Option String) (term : Option Term)
    (program : Program) : Prop where
  name : ∃ final, Completes (fun json value => json = .string value) nameKey members name final ∧
    final.getD "" = program.name
  term : Completes (fun json term => EncodesRoot term json) expressionKey members term
    (some program.expression)

section Members

variable (isFirst : Bool) (count : Nat) (name : Option String) (term : Option Term)
  {key : String} {json : Json} {text before rest : List Char} (blank : Blank before)
  (stops : StopsNumber rest)

include blank

theorem programMembers_name (isName : key = nameKey) {value : String}
    (written : WritesMember Numeral.json? (key, .string value) text) :
    ∃ after, Blank after ∧
      programMembers (count + 1) isFirst none term
          (before ++ (separator isFirst ++ (text ++ rest))) =
        programMembers count false (some value) term (after ++ rest) := by
  obtain @⟨_, _, _, _, _, _, _, after, blankBefore, keyWritten, blankBetween, blankSpace, inner,
    blankAfter⟩ := written
  refine ⟨after, blankAfter, ?_⟩
  simp only [List.append_assoc, List.cons_append, programMembers,
    nextKey_string blank blankBefore isFirst keyWritten, ofJsonReading_ok, bind, Except.bind,
    colon_append blankBetween]
  rw [if_pos isName, text_append .text blankSpace inner.of_string]
  rfl

theorem programMembers_expression (isExpression : key = expressionKey) {value : Term}
    (root : EncodesRoot value json) (written : WritesMember Numeral.json? (key, json) text) :
    ∃ after, Blank after ∧
      programMembers (count + 1) isFirst name none
          (before ++ (separator isFirst ++ (text ++ rest))) =
        programMembers count false name (some value) (after ++ rest) := by
  obtain @⟨_, _, _, _, _, _, _, after, blankBefore, keyWritten, blankBetween, blankSpace, inner,
    blankAfter⟩ := written
  refine ⟨after, blankAfter, ?_⟩
  have notName : key ≠ nameKey := by
    rw [isExpression]
    decide
  simp only [List.append_assoc, List.cons_append, programMembers,
    nextKey_string blank blankBefore isFirst keyWritten, ofJsonReading_ok, bind, Except.bind,
    colon_append blankBetween]
  rw [if_neg notName, if_pos isExpression, rootTerm_append root inner leaveObject blankSpace]
  rfl

include stops in
theorem programMembers_other {any : Numeral → Option Json} (notName : key ≠ nameKey)
    (notExpression : key ≠ expressionKey) (written : WritesMember any (key, json) text) :
    ∃ after, Blank after ∧
      programMembers (count + 1) isFirst name term
          (before ++ (separator isFirst ++ (text ++ rest))) =
        programMembers count false name term (after ++ rest) := by
  obtain @⟨_, _, _, _, _, _, _, after, blankBefore, keyWritten, blankBetween, blankSpace, inner,
    blankAfter⟩ := written
  refine ⟨after, blankAfter, ?_⟩
  simp only [List.append_assoc, List.cons_append, programMembers,
    nextKey_string blank blankBefore isFirst keyWritten, ofJsonReading_ok, bind, Except.bind,
    colon_append blankBetween]
  rw [if_neg notName, if_neg notExpression, skipValue_append inner (by simp [Json.enough]; omega)
    blankSpace (stops.of_blank blankAfter), ofJsonReading_ok]

variable {name term}

include stops in
/-- Reading one member of a program records what it gives. -/
theorem programMembers_step {member : String × Json}
    (written : WritesField Numeral.json? member text) {fields : List (String × Json)}
    {program : Program}
    (awaits : Awaits (member :: fields) name term program) :
    ∃ nextName nextTerm after, Awaits fields nextName nextTerm program ∧ Blank after ∧
      programMembers (count + 1) isFirst name term
          (before ++ (separator isFirst ++ (text ++ rest))) =
        programMembers count false nextName nextTerm (after ++ rest) := by
  obtain ⟨key, json⟩ := member
  obtain ⟨⟨final, awaitsName, isName⟩, awaitsTerm⟩ := awaits
  cases written with
  | other notName notExpression written =>
    obtain ⟨after, blankAfter, step⟩ :=
      programMembers_other isFirst count name term blank stops notName notExpression written
    exact ⟨name, term, after, ⟨⟨final, awaitsName.of_ne notName, isName⟩,
      awaitsTerm.of_ne notExpression⟩, blankAfter, step⟩
  | known written =>
    by_cases atName : key = nameKey
    · have notExpression : key ≠ expressionKey := by
        rw [atName]
        decide
      obtain ⟨rfl, value, rfl, completes⟩ := awaitsName.of_eq atName
      obtain ⟨after, blankAfter, step⟩ :=
        programMembers_name isFirst count term blank atName written
      exact ⟨some value, term, after, ⟨⟨final, completes, isName⟩,
        awaitsTerm.of_ne notExpression⟩, blankAfter, step⟩
    · by_cases atExpression : key = expressionKey
      · obtain ⟨rfl, value, root, completes⟩ := awaitsTerm.of_eq atExpression
        obtain ⟨after, blankAfter, step⟩ :=
          programMembers_expression isFirst count name blank atExpression root written
        exact ⟨name, some value, after, ⟨⟨final, awaitsName.of_ne atName, isName⟩, completes⟩,
          blankAfter, step⟩
      · obtain ⟨after, blankAfter, step⟩ :=
          programMembers_other isFirst count name term blank stops atName atExpression written
        exact ⟨name, term, after, ⟨⟨final, awaitsName.of_ne atName, isName⟩,
          awaitsTerm.of_ne atExpression⟩, blankAfter, step⟩

end Members

theorem WritesField.length_pos {values : Numeral → Option Json} {member : String × Json}
    {text : List Char} (written : WritesField values member text) : 0 < text.length := by
  cases written with
  | known written => exact written.length_pos
  | other _ _ written => exact written.length_pos

/-- The members of a program are read up to its closing brace. -/
theorem programMembers_append {fields : List (String × Json)} {text : List Char}
    (written : WritesFields Numeral.json? fields text) {name : Option String} {term : Option Term}
    {program : Program} (awaits : Awaits fields name term program) (isFirst : Bool) {count : Nat}
    (enough : 2 * text.length + 1 ≤ count) {before : List Char} (blank : Blank before)
    (rest : List Char) :
    ∃ after, Blank after ∧
      programMembers count isFirst name term
          (before ++ (separator isFirst ++ (text ++ '\x7d' :: rest))) =
        .ok (program, after ++ '\x7d' :: rest) := by
  induction written generalizing name term isFirst count before with
  | last first =>
    have nonempty := first.length_pos
    obtain ⟨count, rfl⟩ : ∃ less, count = less + 2 := ⟨count - 2, by omega⟩
    obtain ⟨name, term, after, ⟨⟨final, awaitsName, isName⟩, awaitsTerm⟩, blankAfter, step⟩ :=
      programMembers_step isFirst (count + 1) blank (stopsNumber_cons (.inr (.inr rfl)) rest) first
        awaits
    obtain rfl := awaitsName.eq_of_nil
    obtain rfl := awaitsTerm.eq_of_nil
    refine ⟨after, blankAfter, ?_⟩
    rw [step, programMembers, nextKey_close blankAfter]
    simp only [ofJsonReading_ok, bind, Except.bind, isName]
    rfl
  | @cons _ _ _ more first others inductionHypothesis =>
    simp only [List.length_append, List.length_cons] at enough
    obtain ⟨count, rfl⟩ : ∃ less, count = less + 1 := ⟨count - 1, by omega⟩
    obtain ⟨name, term, between, awaits, blankBetween, step⟩ := programMembers_step isFirst count
      blank (stopsNumber_cons (.inl rfl) (more ++ '\x7d' :: rest)) first awaits
    obtain ⟨after, blankAfter, read⟩ := inductionHypothesis awaits false (by omega : _ ≤ count)
      blankBetween
    refine ⟨after, blankAfter, ?_⟩
    simp only [List.append_assoc, List.cons_append]
    rw [step]
    simpa [separator] using read

theorem programElements_append {program : Program} {expression : Json}
    (root : EncodesRoot program.expression expression) {text : List Char}
    (written : WritesElements Numeral.json? [.string program.name, expression] text)
    (rest : List Char) :
    ∃ after, Blank after ∧
      programElements (text ++ ']' :: rest) = .ok (program, after ++ ']' :: rest) := by
  cases written with
  | @cons _ _ _ _ first others =>
    cases others with
    | last second =>
      obtain @⟨_, before, nameText, between, blankBefore, isName, blankBetween⟩ := first
      obtain @⟨_, space, termText, after, blankSpace, isTerm, blankAfter⟩ := second
      refine ⟨after, blankAfter, ?_⟩
      have atName : nextElement true (before ++ (nameText ++ (between ++ ',' :: (space ++
          (termText ++ (after ++ ']' :: rest)))))) = _ :=
        nextElement_value blank_nil blankBefore true isName
      have name := text_append .text blank_nil isName.of_string
        (between ++ ',' :: (space ++ (termText ++ (after ++ ']' :: rest))))
      have atTerm : nextElement false (between ++ ',' :: (space ++
          (termText ++ (after ++ ']' :: rest)))) = _ :=
        nextElement_value blankBetween blankSpace false isTerm
      have term := rootTerm_append root isTerm leaveList blank_nil (after ++ ']' :: rest)
      rw [List.nil_append] at name term
      simp only [List.append_assoc, List.cons_append, programElements, atName, ofJsonReading_ok,
        bind, Except.bind, name, atTerm, term]
      rfl
    | cons _ more => cases more

theorem program_append {program : Program} {before text : List Char} (blank : Blank before)
    (written : WritesProgram Numeral.json? program text) (rest : List Char) :
    Decoding.program (before ++ (text ++ rest)) = .ok (program, rest) := by
  cases written with
  | @named members expression inner name once root inside =>
    have awaits : Awaits members none none program := by
      refine ⟨?_, .once once root⟩
      rcases name with named | ⟨isEmpty, absent⟩
      · exact ⟨some program.name, .once named rfl, rfl⟩
      · exact ⟨none, .absent absent, isEmpty.symm⟩
    obtain ⟨after, blankAfter, read⟩ := programMembers_append inside awaits true
      (by simp [Json.enough]; omega : _ ≤ Json.enough (inner ++ '\x7d' :: rest)) blank_nil rest
    simp only [separator, if_true, List.nil_append] at read
    simp only [List.append_assoc, List.cons_append, List.nil_append, Decoding.program,
      skipBlank_append_cons blank isBlank_brace, read, bind, Except.bind,
      closeObject_append blankAfter, ofJsonReading_ok]
    rfl
  | positional root inside =>
    obtain ⟨after, blankAfter, read⟩ := programElements_append root inside rest
    simp only [List.append_assoc, List.cons_append, List.nil_append, Decoding.program,
      skipBlank_append_cons blank isBlank_bracket, read, bind, Except.bind,
      closeList_append blankAfter, ofJsonReading_ok]
    rfl

theorem document_of_renders {program : Program} {text : List Char}
    (renders : Renders Numeral.json? program text) : document text = .ok program := by
  obtain @⟨before, inner, after, blankBefore, written, blankAfter⟩ := renders
  have skipped : skipBlank after = [] := by
    rw [← List.append_nil after, skipBlank_append blankAfter]
    rfl
  rw [document, program_append blankBefore written after]
  simp only [bind, Except.bind, skipped]
  rfl

end Decoding

namespace Program

open Json Decoding

/-! ### A rendering with mixed shapes -/

/-- A numeral without a point. -/
def numeralOf (negative : Bool) (whole : List Char) (power : Option Power)
    (valid : whole ≠ [] ∧ whole.all isDigit = true ∧
      (whole.head? = some '0' → whole.length = 1)) : Numeral where
  negative := negative
  whole := whole
  fraction := none
  power := power
  nonempty := valid.1
  isDigits := List.all_eq_true.mp valid.2.1
  zeroAlone := valid.2.2
  fractionNonempty := by simp
  fractionDigits := by simp

/-- A power of ten without a sign. -/
def powerOf (digits : List Char) (valid : digits ≠ [] ∧ digits.all isDigit = true) : Power where
  mark := 'e'
  sign := none
  digits := digits
  isMark := .inl rfl
  isSign := by simp
  nonempty := valid.1
  isDigits := List.all_eq_true.mp valid.2

def mixedProgram : Program :=
  ⟨"é", .letIn "x" (.int Int64.minValue) (.print (.str "😀\n"))⟩

def mixedSource : String :=
  "\x7b\"big\":1e400, \"expression\":\x7b\"next\":[\"Print\",[\"Str\",\"\\ud83d\\uDE00\\n\"]]," ++
    "\"kind\":\"Let\",\"value\":\x7b\"value\":-9223372036854775808,\"kind\":6\x7d," ++
    "\"name\":\x7b\"at\":1.5e3,\"text\":\"x\"\x7d\x7d,\"name\":\"\\u00e9\"\x7d\n"

def mixedName : Json :=
  .object [("at", .double false ⟨6597069766656000, -42⟩), ("text", .string "x")]

def mixedValue : Json :=
  .object [("value", .integer Int64.minValue.toInt), ("kind", .integer 6)]

def mixedNext : Json :=
  .array [.string "Print", .array [.string "Str", .string "😀\n"]]

def mixedRoot : Json :=
  .object [("next", mixedNext), ("kind", .string "Let"), ("value", mixedValue), ("name", mixedName)]

theorem encodesRoot_mixedRoot : EncodesRoot mixedProgram.expression mixedRoot := by
  have name : EncodesIdentifier "x" mixedName := .named (by simp [Once])
  have value : EncodesTerm (.int Int64.minValue) mixedValue :=
    .intro (.inr ⟨6, rfl, rfl⟩) .int
      (.named (by simp [Once]) (by simp [Once, Kind.fieldNames, Term.kind]))
  have next : EncodesTerm (.print (.str "😀\n")) mixedNext :=
    .intro (.inl rfl) (.print (.intro (.inl rfl) .str .positional)) .positional
  exact ⟨[mixedName, mixedValue, mixedNext], .letIn name value next,
    .named (by simp [Once, mixedProgram, Term.kind, Kind.name])
      (by simp [Once, mixedProgram, Kind.fieldNames, Term.kind])⟩

/-- The numeral 1.5e3. -/
def fifteenHundred : Numeral where
  negative := false
  whole := ['1']
  fraction := some ['5']
  power := some (powerOf ['3'] (by decide))
  nonempty := by decide
  isDigits := List.all_eq_true.mp (by decide)
  zeroAlone := by decide
  fractionNonempty := by simp
  fractionDigits := by
    rintro _ ⟨⟩
    exact List.all_eq_true.mp (by decide)

theorem json?_fifteenHundred :
    fifteenHundred.json? = some (.double false ⟨6597069766656000, -42⟩) := by
  have magnitude : fifteenHundred.magnitude? = some ⟨6597069766656000, -42⟩ := by decide +kernel
  rw [Numeral.json?, magnitude]
  rfl

def leastInteger : Numeral :=
  numeralOf true "9223372036854775808".toList none (by decide)

theorem json?_leastInteger : leastInteger.json? = some (.integer Int64.minValue.toInt) := by
  rfl

theorem renders_mixedSource : Renders Numeral.json? mixedProgram mixedSource.toList := by
  have accented : WritesString "é" ('"' :: ((['\\', 'u', '0', '0', 'e', '9'] ++ []) ++ ['"'])) :=
    .intro (.cons (.unit (by decide) (.intro (.inl rfl) (.inl rfl) (.inl rfl) (.inl rfl))) .nil)
  have paired : WritesString "😀\n" ('"' :: (((['\\', 'u', 'd', '8', '3', 'd'] ++
      ['\\', 'u', 'D', 'E', '0', '0']) ++ (['\\', 'n'] ++ [])) ++ ['"'])) :=
    .intro (.cons (.pair (by decide) (.intro (.inl rfl) (.inl rfl) (.inl rfl) (.inl rfl))
      (.intro (.inr rfl) (.inr rfl) (.inl rfl) (.inl rfl))) (.cons (.short (by decide)) .nil))
  have name : Writes Numeral.json? mixedName _ :=
    .object (.cons (.tight (by decide) (.number json?_fifteenHundred))
      (.last (.tight (by decide) (.string (.unescaped (by decide))))))
  have value : Writes Numeral.json? mixedValue _ :=
    .object (.cons (.tight (by decide) (.number json?_leastInteger))
      (.last (.tight (by decide)
        (@Writes.number _ (numeralOf false ['6'] none (by decide)) _ rfl))))
  have next : Writes Numeral.json? mixedNext _ :=
    .array (.cons (.tight (.string (.unescaped (by decide))))
      (.last (.tight (.array (.cons (.tight (.string (.unescaped (by decide))))
        (.last (.tight (.string paired))))))))
  have root : Writes Numeral.json? mixedRoot _ :=
    .object (.cons (.tight (by decide) next)
      (.cons (.tight (by decide) (.string (.unescaped (by decide))))
        (.cons (.tight (by decide) value)
          (.last (.tight (by decide) name)))))
  have fields : WritesFields Numeral.json?
      [("big", .null), ("expression", mixedRoot), ("name", .string "é")] _ :=
    .cons (.other (by decide) (by decide) (.tight (by decide) (@Writes.number (fun _ => some .null)
        (numeralOf false ['1'] (some (powerOf ['4', '0', '0'] (by decide))) (by decide)) _ rfl)))
      (.cons (.known (.intro (by decide : Blank [' ']) (.unescaped (by decide)) blank_nil blank_nil
          root blank_nil))
        (.last (.known (.tight (by decide) (.string accented)))))
  have rendered := Renders.intro blank_nil (.named (.inl (by simp [Once, mixedProgram]))
    (by simp [Once]) encodesRoot_mixedRoot fields) (by decide : Blank ['\n'])
  convert rendered using 1
  decide +kernel

/-! ### A rendering with a number near the largest double -/

/-- A number between the fourth largest and the largest double. -/
def nearLargest : Numeral :=
  numeralOf false "1797693134862315705".toList (some (powerOf ['2', '9', '0'] (by decide)))
    (by decide)

theorem absolute_nearLargest : nearLargest.absolute ≤ (2 ^ 53 - 1) * 2 ^ 971 := by
  have significand : nearLargest.significand = 1797693134862315705 := by decide
  have exponent : nearLargest.power.elim 0 Power.exponent - nearLargest.decimals.length =
      (290 : ℕ) := by
    decide
  have whole : 1797693134862315705 * 10 ^ 290 ≤ (2 ^ 53 - 1) * 2 ^ 971 := by decide +kernel
  rw [Numeral.absolute, significand, exponent, zpow_natCast]
  have units : (((2 ^ 53 - 1 : ℕ) : ℚ)) = 2 ^ 53 - 1 := by norm_num
  rw [← units]
  exact_mod_cast whole

def largeSource : String :=
  "\x7b\"name\":\"a\",\"expression\":\x7b\"kind\":\"Int\",\"value\":1," ++
    "\"x\":1797693134862315705e290\x7d\x7d"

def largeRoot : Json :=
  .object [("kind", .string "Int"), ("value", .integer 1),
    ("x", .double false (.ofDecimal 1797693134862315705 290))]

theorem encodesRoot_largeRoot : EncodesRoot (.int 1) largeRoot :=
  ⟨[.integer 1], .int, .named (by simp [Once, Term.kind, Kind.name])
    (by simp [Once, Term.kind, Kind.fieldNames])⟩

theorem renders_largeSource : Renders Numeral.nearest? ⟨"a", .int 1⟩ largeSource.toList := by
  have large : nearLargest.nearest? =
      some (.double false (.ofDecimal 1797693134862315705 290)) := by
    rw [Numeral.nearest?, if_pos absolute_nearLargest]
    rfl
  have root : Writes Numeral.nearest? largeRoot _ :=
    .object (.cons (.tight (by decide) (.string (.unescaped (by decide))))
      (.cons (.tight (by decide) (@Writes.number _ (numeralOf false ['1'] none (by decide)) _ rfl))
        (.last (.tight (by decide) (.number large)))))
  have fields : WritesFields Numeral.nearest?
      [("name", .string "a"), ("expression", largeRoot)] _ :=
    .cons (.known (.tight (by decide) (.string (.unescaped (by decide)))))
      (.last (.known (.tight (by decide) root)))
  have rendered : Renders Numeral.nearest? ⟨"a", .int 1⟩ _ := .intro blank_nil
    (.named (.inl (by simp [Once])) (by simp [Once]) encodesRoot_largeRoot fields) blank_nil
  convert rendered using 1
  decide +kernel

/-! ### Parsing -/

/-- Every rendering of every program is parsed to that program, as long as the reader has a value
for the numbers in its term. It has one for all numbers up to the fourth largest double. -/
theorem parse_of_renders :
    (∀ (program : Program) (source : String),
      Renders Numeral.json? program source.toList → Program.parse source = .ok program) ∧
    ∀ numeral : Numeral, numeral.text.length ≤ 2 * 10 ^ 9 →
      numeral.absolute ≤ (2 ^ 53 - 4) * 2 ^ 971 → ∃ json, numeral.json? = some json := by
  refine ⟨fun program source renders => ?_, fun numeral => Numeral.exists_json?⟩
  rw [Program.parse, document_of_renders renders]
  rfl

theorem parse_of_renders_mixedSource :
    Renders Numeral.json? mixedProgram mixedSource.toList ∧
      Program.parse mixedSource = .ok mixedProgram :=
  ⟨renders_mixedSource, parse_of_renders.1 _ _ renders_mixedSource⟩

/-- A reader that rounds once takes a text that the parser refuses. -/
theorem parse_largeSource :
    Renders Numeral.nearest? ⟨"a", .int 1⟩ largeSource.toList ∧
      Program.parse largeSource ≠ .ok ⟨"a", .int 1⟩ := by
  refine ⟨renders_largeSource, fun parsed => ?_⟩
  have refused : (Program.parse largeSource).toBool = false := by decide +kernel
  rw [parsed] at refused
  cases refused

end Program

end TreeScript
