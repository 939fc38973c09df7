/-
This file shows that a script says exactly which program it came from, up to the
way names are spelled. It reads scripts: the first characters of an expression
decide how it goes on, and after an opening parenthesis a few characters more.
What was read for a translated term is the term with its names replaced by their
identifiers, whatever stands behind it. Two programs with the same script are
therefore the same up to this replacement, and the replacement does not change
the script.
-/

import TreeScript.Proofs.Script.Scanning
import TreeScript.Proofs.Script.Translation

namespace TreeScript

open Script Reader

namespace Term

mutual

/-- The term with every name replaced by its identifier. -/
def renamed : Term → Term
  | letIn name value next => letIn (identifier name) value.renamed next.renamed
  | function parameters body => function (parameters.map identifier) body.renamed
  | ifElse condition consequent alternative =>
    ifElse condition.renamed consequent.renamed alternative.renamed
  | print value => print value.renamed
  | call callee arguments => call callee.renamed (renamedAll arguments)
  | var name => var (identifier name)
  | int value => int value
  | str value => str value
  | bool value => bool value
  | binary op lhs rhs => binary op lhs.renamed rhs.renamed
  | tuple left right => tuple left.renamed right.renamed
  | first value => first value.renamed
  | second value => second value.renamed

def renamedAll : List Term → List Term
  | [] => []
  | term :: terms => term.renamed :: renamedAll terms

end

theorem renamedAll_eq_map (terms : List Term) : renamedAll terms = terms.map renamed := by
  induction terms with
  | nil => rw [renamedAll, List.map_nil]
  | cons term terms inductionHypothesis => rw [renamedAll, inductionHypothesis, List.map_cons]

end Term

/-! ### Reading expressions -/

namespace Script.Reader

/-- Whether a list of parameters stands here and not an expression. -/
def isParameterList (input : List Char) : Bool :=
  match input.dropWhile isIdentifierChar with
  | ',' :: _ => true
  | ')' :: ' ' :: _ => true
  | _ => false

/-- An operator and the spaces around it. -/
def operator : Reader BinaryOp := do
  expect " "
  let text := String.ofList (← takeAll (· ≠ ' '))
  expect " "
  BinaryOp.all.find? fun op => operatorText op = text

variable (read : Position → Reader Term)

/-- A binding and what follows it, in braces. -/
def block (returns : Bool) : Reader Term := do
  expect "\x7blet "
  let name ← word
  expect " = "
  let value ← read .value
  expect "; "
  let next ← read (.statement returns)
  expect "\x7d"
  return .letIn name value next

def pair : Reader Term := do
  expect "["
  let left ← read .value
  expect ", "
  let right ← read .value
  expect "]"
  return .tuple left right

/-- A function after its opening parenthesis. -/
def arrow : Reader Term := do
  let parameters ← listed word
  expect " => \x7b"
  let body ← read (.statement true)
  expect "\x7d"
  return .function parameters body

/-- An expression after an opening parenthesis, and what it is for. -/
def wrapped : Reader Term := do
  let value ← read .value
  if ← startsWith ")[0]" then
    expect ")[0]"
    return .first value
  else if ← startsWith ")[1]" then
    expect ")[1]"
    return .second value
  else if ← startsWith ")(" then
    expect ")("
    return .call value (← listed (read .value))
  else
    let op ← operator
    let other ← read .value
    expect ")"
    return .binary op value other

def parenthesized : Reader Term := do
  if ← startsWith "(() => \x7blet " then
    expect "(() => "
    let term ← block read true
    expect ")()"
    return term
  else
    expect "("
    if isParameterList (← get) then arrow read else wrapped read

/-- A call of a helper, after the name of the support module. -/
def helper : Reader Term := do
  if ← startsWith ".print(" then
    expect ".print("
    let value ← read .value
    expect ")"
    return .print value
  else
    expect ".executeIf("
    expect "() => "
    let condition ← read .value
    expect ", "
    expect "() => \x7b"
    let consequent ← read (.statement true)
    expect "\x7d"
    expect ", "
    expect "() => \x7b"
    let alternative ← read (.statement true)
    expect "\x7d"
    expect ")"
    return .ifElse condition consequent alternative

def division : Reader Term := do
  expect ".trunc("
  let lhs ← read .value
  expect " / "
  let rhs ← read .value
  expect ")"
  return .binary .div lhs rhs

/-- A variable, or a call of it. -/
def named (name : String) : Reader Term := do
  if ← startsWith "(" then
    expect "("
    return .call (.var name) (← listed (read .value))
  else return .var name

/-- What follows a word. -/
def afterWord (name : String) : Reader Term :=
  if name = "true" then return .bool true
  else if name = "false" then return .bool false
  else if name = "Math" then division read
  else if name = supportName then helper read
  else named read name

/-- Whether an integer starts with the character. -/
def startsNumber : Option Char → Bool
  | some c => c == '-' || c.isDigit
  | none => false

def expression : Reader Term := do
  let start := (← get).head?
  if start = some '"' then return .str (← stringLiteral)
  else if start = some '[' then pair read
  else if start = some '(' then parenthesized read
  else if startsNumber start then return .int (.ofInt (← integer))
  else afterWord read (← word)

/-- An expression and the end of its statement. -/
def ended : Reader Term := do
  let term ← expression read
  expect ";"
  return term

def statement (returns : Bool) : Reader Term := do
  if ← startsWith "\x7blet " then block read returns
  else if returns then
    expect "return "
    ended read
  else ended read

end Script.Reader

namespace Script

/-- Reads a term at a position, for at most the given depth. -/
def read : Nat → Position → Reader Term
  | 0, _ => failure
  | depth + 1, .value => expression (read depth)
  | depth + 1, .statement returns => statement (read depth) returns

/-! ### How expressions start -/

/-- A text that starts with a word, which is all of it or is followed by a sign that no parameter
is followed by. -/
def Opens (text : List Char) : Prop :=
  ∃ word more, text = word ++ more ∧ (∀ c ∈ word, isIdentifierChar c = true) ∧
    (more = [] ∧ word ≠ [] ∨ ∃ c cs, more = c :: cs ∧ c ∈ ['(', '.', '-', '"', '['])

theorem ne_of_isIdentifierChar {c d : Char} (char : isIdentifierChar c = true)
    (sign : isIdentifierChar d = false) : c ≠ d := by
  rintro rfl
  rw [char] at sign
  cases sign

theorem Opens.eq_cons {text : List Char} (opens : Opens text) :
    ∃ c cs, text = c :: cs ∧ c ≠ ')' ∧ c ≠ '\x7b' := by
  obtain ⟨word, more, rfl, chars, closes⟩ := opens
  cases word with
  | nil =>
    obtain ⟨-, written⟩ | ⟨c, cs, rfl, sign⟩ := closes
    · exact absurd rfl written
    · refine ⟨c, cs, rfl, ?_⟩
      simp only [List.mem_cons, List.not_mem_nil, or_false] at sign
      obtain rfl | rfl | rfl | rfl | rfl := sign <;> decide
  | cons c word =>
    have char := chars c List.mem_cons_self
    exact ⟨c, word ++ more, rfl, ne_of_isIdentifierChar char (by decide),
      ne_of_isIdentifierChar char (by decide)⟩

theorem Opens.isParameterList {text rest : List Char} (opens : Opens text)
    (closes : isParameterList rest = false) : isParameterList (text ++ rest) = false := by
  obtain ⟨word, more, rfl, chars, ⟨rfl, -⟩ | ⟨c, cs, rfl, sign⟩⟩ := opens
  · rw [List.append_nil, Reader.isParameterList, List.dropWhile_append_of_pos chars]
    exact closes
  · rw [Reader.isParameterList, List.append_assoc, List.dropWhile_append_of_pos chars]
    simp only [List.mem_cons, List.not_mem_nil, or_false] at sign
    obtain rfl | rfl | rfl | rfl | rfl := sign <;> rfl

theorem opens_of_head {text : List Char} {c : Char} (head : text.head? = some c)
    (sign : c ∈ ['(', '.', '-', '"', '[']) : Opens text := by
  obtain ⟨cs, rfl⟩ := List.head?_eq_some_iff.mp head
  exact ⟨[], c :: cs, rfl, by simp, .inr ⟨c, cs, rfl, sign⟩⟩

theorem opens_word {word : List Char} (chars : ∀ c ∈ word, isIdentifierChar c = true)
    (written : word ≠ []) : Opens word :=
  ⟨word, [], (List.append_nil _).symm, chars, .inl ⟨rfl, written⟩⟩

theorem opens_word_append {word more : List Char} {c : Char}
    (chars : ∀ c ∈ word, isIdentifierChar c = true) (head : more.head? = some c)
    (sign : c ∈ ['(', '.', '-', '"', '[']) : Opens (word ++ more) := by
  obtain ⟨cs, rfl⟩ := List.head?_eq_some_iff.mp head
  exact ⟨word, c :: cs, rfl, chars, .inr ⟨c, cs, rfl, sign⟩⟩

theorem opens_identifier (name : String) : Opens (identifier name).toList := by
  have isIdentifier := isIdentifier_identifier name
  refine opens_word isIdentifier.chars ?_
  obtain ⟨c, cs, spelled, -⟩ := isIdentifier.start
  rw [spelled]
  exact List.cons_ne_nil c cs

theorem opens_toString (number : Int) : Opens (toString number).toList := by
  by_cases nonnegative : 0 ≤ number
  · rw [toList_toString_of_nonneg nonnegative]
    refine opens_word (fun c member => ?_) Nat.toDigits_ne_nil
    have isDigit := Nat.isDigit_of_mem_toDigits (by decide) (by decide) member
    simp [isIdentifierChar, Char.isAlphanum, isDigit]
  · rw [toList_toString_of_neg nonnegative]
    exact opens_of_head rfl (by decide)

/-- Calls are not memoized. -/
abbrev unmemoized : String → Bool := fun _ => false

theorem opens_translate (term : Term) : Opens (term.translate unmemoized .value).toList := by
  cases term with
  | letIn | function | tuple | first | second =>
    simp only [Term.translate, Position.text, functionText, String.toList_append]
    exact opens_of_head rfl (by decide)
  | ifElse | print =>
    simp only [Term.translate, Position.text, conditionalText, callText, Helper.qualified,
      String.toList_append, List.append_assoc]
    exact opens_word_append (List.all_eq_true.mp (by decide)) rfl (by decide)
  | call callee arguments =>
    simp only [Term.translate, Position.text, callText]
    split
    · simp only [Bool.false_eq_true, if_false, String.toList_append, List.append_assoc]
      exact opens_word_append (isIdentifier_identifier _).chars rfl (by decide)
    · simp only [String.toList_append]
      exact opens_of_head rfl (by decide)
  | var name => exact opens_identifier name
  | int value => exact opens_toString _
  | str value =>
    simp only [Term.translate, Position.text, literal, String.toList_ofList]
    exact opens_of_head rfl (by decide)
  | bool value => cases value <;> exact opens_word (List.all_eq_true.mp (by decide)) (by decide)
  | binary op lhs rhs =>
    simp only [Term.translate, Position.text, binaryText]
    split
    · simp only [String.toList_append, List.append_assoc]
      show Opens ("Math".toList ++ (".trunc(".toList ++ _))
      exact opens_word_append (List.all_eq_true.mp (by decide)) rfl (by decide)
    · simp only [String.toList_append]
      exact opens_of_head rfl (by decide)

/-- A returned statement starts with a brace or with the word for it. -/
theorem statement_eq_cons (term : Term) :
    ∃ c cs, (term.translate unmemoized (.statement true)).toList = c :: cs ∧ c ≠ 'l' := by
  by_cases isLet : term.kind = .letIn
  · cases term with
    | letIn =>
      simp only [Term.translate, blockText, String.toList_append]
      exact ⟨'\x7b', _, rfl, by decide⟩
    | _ => cases isLet
  · rw [Term.translate_statement isLet]
    simp only [statementText, if_true, String.toList_append]
    exact ⟨'r', _, rfl, by decide⟩

/-- What a function that runs a chain of bindings starts with, after its parenthesis. -/
def thunkStart : List Char :=
  ['(', ')', ' ', '=', '>', ' ', '\x7b', 'l', 'e', 't', ' ']

theorem notThunk_of_head {text : List Char} {c : Char} (head : text.head? = some c)
    (differs : c ≠ '(') : thunkStart.isPrefixOf text = false := by
  obtain ⟨cs, rfl⟩ := List.head?_eq_some_iff.mp head
  simp [thunkStart, List.isPrefixOf, differs.symm]

theorem notThunk_of_second {c : Char} {cs : List Char} (differs : c ≠ ')') :
    thunkStart.isPrefixOf ('(' :: c :: cs) = false := by
  simp [thunkStart, List.isPrefixOf, differs.symm]

theorem notThunk_of_opens {text rest : List Char} (opens : Opens text) :
    thunkStart.isPrefixOf ("(".toList ++ (text ++ rest)) = false := by
  obtain ⟨c, cs, rfl, differs, -⟩ := opens.eq_cons
  exact notThunk_of_second differs

theorem notThunk_identifier (name : String) (rest : List Char) :
    thunkStart.isPrefixOf ((identifier name).toList ++ rest) = false := by
  obtain ⟨c, cs, spelled, -⟩ := (isIdentifier_identifier name).start
  have char := (isIdentifier_identifier name).chars c (spelled ▸ List.mem_cons_self)
  rw [spelled]
  exact notThunk_of_head rfl (ne_of_isIdentifierChar char (by decide))

theorem notThunk_function (parameters : List String) (body : Term) (rest : List Char) :
    thunkStart.isPrefixOf (((Term.function parameters body).translate unmemoized .value).toList ++
      rest) = false := by
  simp only [Term.translate, Position.text, functionText, String.toList_append, List.append_assoc]
  cases parameters with
  | nil =>
    obtain ⟨c, cs, spelled, differs⟩ := statement_eq_cons body
    rw [spelled]
    show thunkStart.isPrefixOf
      ('(' :: ')' :: ' ' :: '=' :: '>' :: ' ' :: '\x7b' :: c :: (cs ++ _)) = false
    simp [thunkStart, List.isPrefixOf, differs.symm]
  | cons parameter parameters =>
    obtain ⟨more, whole⟩ := intercalate_eq_append (identifier parameter) (parameters.map identifier)
    rw [List.map_cons, whole, List.append_assoc]
    exact notThunk_of_opens (opens_identifier parameter)

/-- No expression starts like such a function. -/
theorem notThunk_translate (term : Term) (rest : List Char) :
    thunkStart.isPrefixOf ((term.translate unmemoized .value).toList ++ rest) = false := by
  cases term with
  | letIn =>
    simp only [Term.translate, String.toList_append, List.append_assoc]
    exact notThunk_of_second (by decide : '(' ≠ ')')
  | function parameters body => exact notThunk_function parameters body rest
  | ifElse | print | tuple =>
    simp only [Term.translate, Position.text, conditionalText, callText, Helper.qualified,
      String.toList_append, List.append_assoc]
    exact notThunk_of_head rfl (by decide)
  | call callee arguments =>
    simp only [Term.translate, Position.text, callText]
    split
    · simp only [Bool.false_eq_true, if_false, String.toList_append, List.append_assoc]
      exact notThunk_identifier _ _
    · simp only [String.toList_append, List.append_assoc]
      exact notThunk_of_opens (opens_translate callee)
  | var name => exact notThunk_identifier name rest
  | int value =>
    obtain ⟨c, cs, spelled, start⟩ := toString_eq_cons value.toInt
    simp only [Term.translate, Position.text, spelled]
    refine notThunk_of_head rfl ?_
    rintro rfl
    revert start
    decide
  | str value =>
    simp only [Term.translate, Position.text, literal, String.toList_ofList]
    exact notThunk_of_head rfl (by decide)
  | bool value => cases value <;> exact notThunk_of_head rfl (by decide)
  | binary op lhs rhs =>
    simp only [Term.translate, Position.text, binaryText]
    split
    · simp only [String.toList_append, List.append_assoc]
      exact notThunk_of_head rfl (by decide)
    · simp only [String.toList_append, List.append_assoc]
      exact notThunk_of_opens (opens_translate lhs)
  | first value | second value =>
    simp only [Term.translate, Position.text, String.toList_append, List.append_assoc]
    exact notThunk_of_opens (opens_translate value)

end Script

/-! ### Reading what was translated -/

/-- A reader gets a term back from its translation, up to its names. -/
structure ReadsBack (read : Position → Reader Term) (term : Term) : Prop where
  value : ∀ rest, isEnd rest = true →
    read .value ((term.translate unmemoized .value).toList ++ rest) = some (term.renamed, rest)
  statement : ∀ returns rest,
    read (.statement returns) ((term.translate unmemoized (.statement returns)).toList ++ rest) =
      some (term.renamed, rest)

section Reading

variable {read : Position → Reader Term} {rest : List Char}

theorem word_identifier {name : String} {rest : List Char} (ends : endsWord rest = true) :
    word ((identifier name).toList ++ rest) = some (identifier name, rest) :=
  word_append (isIdentifier_identifier name).chars ends

/-! Which reader an expression goes to. -/

theorem expression_word {name : String} {more : List Char}
    (chars : ∀ c ∈ name.toList, isIdentifierChar c = true)
    (start : ∃ c cs, name.toList = c :: cs ∧ c.isDigit = false) (ends : endsWord more = true) :
    expression read (name.toList ++ more) = afterWord read name more := by
  obtain ⟨c, cs, spelled, notDigit⟩ := start
  have char := chars c (spelled ▸ List.mem_cons_self)
  have first : (name.toList ++ more).head? = some c := by
    rw [spelled]
    rfl
  have notNumber : ¬ startsNumber (some c) = true := by
    simpa [startsNumber, notDigit] using ne_of_isIdentifierChar (d := '-') char (by decide)
  rw [expression, bind_of_some (get_apply _), first,
    if_neg (by simpa using ne_of_isIdentifierChar (d := '"') char (by decide)),
    if_neg (by simpa using ne_of_isIdentifierChar (d := '[') char (by decide)),
    if_neg (by simpa using ne_of_isIdentifierChar (d := '(') char (by decide)),
    if_neg notNumber, bind_of_some (word_append chars ends)]

theorem expression_integer (number : Int) (ends : isEnd rest = true) :
    expression read ((toString number).toList ++ rest) = some (.int (.ofInt number), rest) := by
  obtain ⟨c, cs, spelled, start⟩ := toString_eq_cons number
  have isNumber : startsNumber (some c) = true := by
    obtain rfl | isDigit := start
    · rfl
    · simp [startsNumber, isDigit]
  have others : c ≠ '"' ∧ c ≠ '[' ∧ c ≠ '(' := by
    refine ⟨?_, ?_, ?_⟩ <;> rintro rfl <;> exact absurd isNumber (by decide)
  have first : ((toString number).toList ++ rest).head? = some c := by
    rw [spelled]
    rfl
  rw [expression, bind_of_some (get_apply _), first, if_neg (by simpa using others.1),
    if_neg (by simpa using others.2.1), if_neg (by simpa using others.2.2), if_pos isNumber,
    bind_of_some (integer_append number ends)]
  rfl

theorem startsWith_thunk {text : List Char} (notThunk : thunkStart.isPrefixOf text = false) :
    startsWith "(() => \x7blet " ("(".toList ++ text) = some (false, "(".toList ++ text) := by
  show some ('(' == '(' && thunkStart.isPrefixOf text, _) = _
  rw [notThunk, Bool.and_false]

theorem expression_parenthesis {input : List Char} (start : input.head? = some '(') :
    expression read input = parenthesized read input := by
  rw [expression, bind_of_some (get_apply _), start, if_neg (by decide), if_neg (by decide),
    if_pos rfl]

/-- An expression after a parenthesis, where no list of parameters can end. -/
theorem parenthesized_wrapped (term : Term) {more : List Char}
    (closes : isParameterList more = false) :
    parenthesized read ("(".toList ++ ((term.translate unmemoized .value).toList ++ more)) =
      wrapped read ((term.translate unmemoized .value).toList ++ more) := by
  rw [parenthesized, bind_of_some (startsWith_thunk (notThunk_translate term more)),
    if_neg Bool.false_ne_true, bind_of_some (expect_append "(" _), bind_of_some (get_apply _),
    (opens_translate term).isParameterList closes, if_neg Bool.false_ne_true]

/-! One lemma for each construct. -/

theorem block_append {value next : Term} (values : ReadsBack read value)
    (nexts : ReadsBack read next) (name : String) (returns : Bool) :
    block read returns ((blockText (identifier name) (value.translate unmemoized .value)
        (next.translate unmemoized (.statement returns))).toList ++ rest) =
      some ((Term.letIn name value next).renamed, rest) := by
  simp only [blockText, String.toList_append, List.append_assoc]
  rw [block, bind_of_some (expect_append _ _), bind_of_some (word_identifier rfl),
    bind_of_some (expect_append _ _), bind_of_some (values.value _ rfl),
    bind_of_some (expect_append _ _), bind_of_some (nexts.statement returns _),
    bind_of_some (expect_append _ _), Term.renamed]
  rfl

theorem startsWith_block (name value next : String) (more : List Char) :
    startsWith "\x7blet " ((blockText name value next).toList ++ more) =
      some (true, (blockText name value next).toList ++ more) := by
  simp only [blockText, String.toList_append, List.append_assoc]
  exact startsWith_append _ _

theorem startsWith_thunk_block (name value next : String) (more : List Char) :
    startsWith "(() => \x7blet "
        ("(() => ".toList ++ ((blockText name value next).toList ++ more)) =
      some (true, "(() => ".toList ++ ((blockText name value next).toList ++ more)) := by
  simp only [blockText, String.toList_append, List.append_assoc]
  exact startsWith_append "(() => \x7blet " _

theorem expression_letIn {value next : Term} (values : ReadsBack read value)
    (nexts : ReadsBack read next) (name : String) :
    expression read (((Term.letIn name value next).translate unmemoized .value).toList ++ rest) =
      some ((Term.letIn name value next).renamed, rest) := by
  simp only [Term.translate, String.toList_append, List.append_assoc]
  rw [expression_parenthesis rfl, parenthesized, bind_of_some (startsWith_thunk_block _ _ _ _),
    if_pos rfl, bind_of_some (expect_append _ _),
    bind_of_some (block_append values nexts name true), bind_of_some (expect_append _ _)]
  rfl

theorem isParameterList_append (parameters : List String) (more : List Char) :
    isParameterList ((", ".intercalate (parameters.map identifier)).toList ++
      (") => \x7b".toList ++ more)) = true := by
  match parameters with
  | [] => rfl
  | [parameter] =>
    rw [List.map_singleton, String.intercalate_singleton, isParameterList,
      List.dropWhile_append_of_pos (isIdentifier_identifier parameter).chars]
    rfl
  | parameter :: next :: parameters =>
    rw [List.map_cons, List.map_cons, String.intercalate_cons_cons, String.toList_append,
      String.toList_append, List.append_assoc, List.append_assoc, isParameterList,
      List.dropWhile_append_of_pos (isIdentifier_identifier parameter).chars]
    rfl

theorem notThunk_parameters (parameters : List String) (more : List Char) :
    thunkStart.isPrefixOf ((", ".intercalate (parameters.map identifier)).toList ++
      (") => \x7b".toList ++ more)) = false := by
  cases parameters with
  | nil => exact notThunk_of_head rfl (by decide : ')' ≠ '(')
  | cons parameter parameters =>
    obtain ⟨others, whole⟩ :=
      intercalate_eq_append (identifier parameter) (parameters.map identifier)
    rw [List.map_cons, whole, List.append_assoc]
    exact notThunk_identifier parameter _

/-- Parameters are taken back as identifiers. -/
theorem listed_parameters (parameters : List String) (more : List Char) :
    listed word ((", ".intercalate (parameters.map identifier)).toList ++ (")".toList ++ more)) =
      some (parameters.map identifier, more) := by
  refine listed_append (fun parameter _ rest ends => word_identifier (endsWord_of_isEnd ends))
    fun parameter _ => ?_
  obtain ⟨c, cs, spelled, differs, -⟩ := (opens_identifier parameter).eq_cons
  exact ⟨c, cs, spelled, differs⟩

theorem expression_function {body : Term} (bodies : ReadsBack read body)
    (parameters : List String) :
    expression read (((Term.function parameters body).translate unmemoized .value).toList ++ rest) =
      some ((Term.function parameters body).renamed, rest) := by
  have close (more : List Char) :
      ") => \x7b".toList ++ more = ")".toList ++ (" => \x7b".toList ++ more) := rfl
  simp only [Term.translate, Position.text, functionText, String.toList_append, List.append_assoc]
  rw [expression_parenthesis rfl, parenthesized,
    bind_of_some (startsWith_thunk (notThunk_parameters parameters _)),
    if_neg Bool.false_ne_true, bind_of_some (expect_append "(" _), bind_of_some (get_apply _),
    isParameterList_append, if_pos rfl, arrow, close, bind_of_some (listed_parameters parameters _),
    bind_of_some (expect_append _ _), bind_of_some (bodies.statement true _),
    bind_of_some (expect_append _ _), Term.renamed]
  rfl

/-! Expressions that start with a word. -/

theorem expression_identifier (name : String) {more : List Char} (ends : endsWord more = true) :
    expression read ((identifier name).toList ++ more) = named read (identifier name) more := by
  have isIdentifier := isIdentifier_identifier name
  have free {word : String} (reserved : word ∈ reservedWords) : identifier name ≠ word :=
    fun same => isIdentifier.notReserved (same ▸ reserved)
  rw [expression_word isIdentifier.chars isIdentifier.start ends, afterWord,
    if_neg (free (by decide)), if_neg (free (by decide)), if_neg (free (by decide)),
    if_neg isIdentifier.notSupport]

theorem expression_helper {more : List Char} (ends : endsWord more = true) :
    expression read (supportName.toList ++ more) = helper read more := by
  rw [expression_word (List.all_eq_true.mp (by decide)) ⟨'_', _, rfl, by decide⟩ ends,
    afterWord, if_neg (by decide), if_neg (by decide), if_neg (by decide), if_pos rfl]

theorem expression_division {more : List Char} (ends : endsWord more = true) :
    expression read ("Math".toList ++ more) = division read more := by
  rw [expression_word (List.all_eq_true.mp (by decide)) ⟨'M', _, rfl, by decide⟩ ends,
    afterWord, if_neg (by decide), if_neg (by decide), if_pos rfl]

theorem expression_bool (value : Bool) (ends : endsWord rest = true) :
    expression read ((toString value).toList ++ rest) = some (.bool value, rest) := by
  cases value with
  | true =>
    rw [expression_word (List.all_eq_true.mp (by decide)) ⟨'t', _, rfl, by decide⟩ ends,
      afterWord, if_pos (by decide)]
    rfl
  | false =>
    rw [expression_word (List.all_eq_true.mp (by decide)) ⟨'f', _, rfl, by decide⟩ ends,
      afterWord, if_neg (by decide), if_pos (by decide)]
    rfl

theorem startsWith_print (more : List Char) :
    startsWith ".print(" (".executeIf(".toList ++ more) =
      some (false, ".executeIf(".toList ++ more) := rfl

theorem expression_print {value : Term} (values : ReadsBack read value) :
    expression read (((Term.print value).translate unmemoized .value).toList ++ rest) =
      some ((Term.print value).renamed, rest) := by
  have call (more : List Char) : ".".toList ++ ("print".toList ++ ("(".toList ++ more)) =
      ".print(".toList ++ more := rfl
  simp only [Term.translate, Position.text, callText, Helper.qualified, Helper.name,
    String.intercalate_singleton, String.toList_append, List.append_assoc]
  rw [call, expression_helper rfl, helper, bind_of_some (startsWith_append _ _), if_pos rfl,
    bind_of_some (expect_append _ _), bind_of_some (values.value _ rfl),
    bind_of_some (expect_append _ _), Term.renamed]
  rfl

theorem expression_ifElse {condition consequent alternative : Term}
    (conditions : ReadsBack read condition) (consequents : ReadsBack read consequent)
    (alternatives : ReadsBack read alternative) :
    expression read (((Term.ifElse condition consequent alternative).translate unmemoized
        .value).toList ++ rest) =
      some ((Term.ifElse condition consequent alternative).renamed, rest) := by
  have call (more : List Char) : ".".toList ++ ("executeIf".toList ++ ("(".toList ++ more)) =
      ".executeIf(".toList ++ more := rfl
  simp only [Term.translate, Position.text, conditionalText, thunkText, callText, Helper.qualified,
    Helper.name, String.intercalate_cons_cons, String.intercalate_singleton, String.toList_append,
    List.append_assoc]
  rw [call, expression_helper rfl, helper,
    bind_of_some (startsWith_print _), if_neg Bool.false_ne_true,
    bind_of_some (expect_append _ _), bind_of_some (expect_append _ _),
    bind_of_some (conditions.value _ rfl), bind_of_some (expect_append _ _),
    bind_of_some (expect_append _ _), bind_of_some (consequents.statement true _),
    bind_of_some (expect_append _ _), bind_of_some (expect_append _ _),
    bind_of_some (expect_append _ _), bind_of_some (alternatives.statement true _),
    bind_of_some (expect_append _ _), bind_of_some (expect_append _ _), Term.renamed]
  rfl

theorem expression_var (name : String) (ends : isEnd rest = true) :
    expression read ((identifier name).toList ++ rest) = some (.var (identifier name), rest) := by
  have noCall : rest.head? ≠ some '(' := bne_iff_ne.mp (Bool.and_eq_true_iff.mp ends).2
  rw [expression_identifier name (endsWord_of_isEnd ends), named,
    bind_of_some (startsWith_of_head rfl noCall), if_neg Bool.false_ne_true]
  rfl

/-- Arguments are taken back if their terms are. -/
theorem listed_arguments {arguments : List Term}
    (each : ∀ argument ∈ arguments, ReadsBack read argument) :
    listed (read .value) ((", ".intercalate (Term.translateAll unmemoized arguments)).toList ++
        (")".toList ++ rest)) = some (Term.renamedAll arguments, rest) := by
  rw [Term.translateAll_eq_map, Term.renamedAll_eq_map]
  refine listed_append (fun argument member => (each argument member).value) fun argument _ => ?_
  obtain ⟨c, cs, spelled, differs, -⟩ := (opens_translate argument).eq_cons
  exact ⟨c, cs, spelled, differs⟩

theorem expression_call {callee : Term} {arguments : List Term} (callees : ReadsBack read callee)
    (each : ∀ argument ∈ arguments, ReadsBack read argument) :
    expression read (((Term.call callee arguments).translate unmemoized .value).toList ++ rest) =
      some ((Term.call callee arguments).renamed, rest) := by
  simp only [Term.translate, Position.text, callText]
  split
  case h_1 name isVar =>
    obtain rfl := Term.eq_var_of_varName? isVar
    simp only [Bool.false_eq_true, if_false, String.toList_append, List.append_assoc]
    rw [expression_identifier name rfl, named, bind_of_some (startsWith_append _ _), if_pos rfl,
      bind_of_some (expect_append _ _), bind_of_some (listed_arguments each), Term.renamed,
      Term.renamed]
    rfl
  case h_2 =>
    have call (more : List Char) : ")".toList ++ ("(".toList ++ more) = ")(".toList ++ more := rfl
    have notFirst (more : List Char) :
        startsWith ")[0]" (")(".toList ++ more) = some (false, ")(".toList ++ more) := rfl
    have notSecond (more : List Char) :
        startsWith ")[1]" (")(".toList ++ more) = some (false, ")(".toList ++ more) := rfl
    simp only [String.toList_append, List.append_assoc]
    rw [expression_parenthesis rfl, call, parenthesized_wrapped callee rfl, wrapped,
      bind_of_some (callees.value _ rfl), bind_of_some (notFirst _), if_neg Bool.false_ne_true,
      bind_of_some (notSecond _), if_neg Bool.false_ne_true, bind_of_some (startsWith_append _ _),
      if_pos rfl, bind_of_some (expect_append _ _), bind_of_some (listed_arguments each),
      Term.renamed]
    rfl

theorem operator_append (op : BinaryOp) (rest : List Char) :
    operator (" ".toList ++ ((operatorText op).toList ++ (" ".toList ++ rest))) =
      some (op, rest) := by
  have noSpace : ∀ c ∈ (operatorText op).toList, decide (c ≠ ' ') = true :=
    List.all_eq_true.mp (by cases op <;> decide)
  have found :
      BinaryOp.all.find? (fun other => operatorText other = operatorText op) = some op := by
    cases op <;> decide
  rw [operator, bind_of_some (expect_append _ _),
    bind_of_some (takeAll_append noSpace (by rintro c ⟨⟩; rfl)),
    String.ofList_toList, bind_of_some (expect_append _ _), found]
  rfl

theorem expression_binary {lhs rhs : Term} (lefts : ReadsBack read lhs)
    (rights : ReadsBack read rhs) (op : BinaryOp) :
    expression read (((Term.binary op lhs rhs).translate unmemoized .value).toList ++ rest) =
      some ((Term.binary op lhs rhs).renamed, rest) := by
  simp only [Term.translate, Position.text, binaryText]
  split
  · have call (more : List Char) :
        "Math.trunc(".toList ++ more = "Math".toList ++ (".trunc(".toList ++ more) := rfl
    simp only [String.toList_append, List.append_assoc]
    rw [call, expression_division rfl, division, bind_of_some (expect_append _ _),
      bind_of_some (lefts.value _ rfl), bind_of_some (expect_append _ _),
      bind_of_some (rights.value _ rfl), bind_of_some (expect_append _ _), Term.renamed]
    rfl
  · have notClosed {text : String} {more : List Char} (closes : text.toList.head? = some ')') :
        startsWith text (" ".toList ++ more) = some (false, " ".toList ++ more) := by
      obtain ⟨cs, spelled⟩ := List.head?_eq_some_iff.mp closes
      exact startsWith_of_head spelled (by simp)
    simp only [String.toList_append, List.append_assoc]
    rw [expression_parenthesis rfl, parenthesized_wrapped lhs rfl, wrapped,
      bind_of_some (lefts.value _ rfl), bind_of_some (notClosed rfl), if_neg Bool.false_ne_true,
      bind_of_some (notClosed rfl), if_neg Bool.false_ne_true, bind_of_some (notClosed rfl),
      if_neg Bool.false_ne_true, bind_of_some (operator_append op _),
      bind_of_some (rights.value _ rfl), bind_of_some (expect_append _ _), Term.renamed]
    rfl

theorem expression_str (text : String) (rest : List Char) :
    expression read ((literal text).toList ++ rest) = some (.str text, rest) := by
  have start : ((literal text).toList ++ rest).head? = some '"' := by
    rw [literal, String.toList_ofList]
    rfl
  rw [expression, bind_of_some (get_apply _), start, if_pos rfl,
    bind_of_some (stringLiteral_append text rest)]
  rfl

theorem expression_tuple {left right : Term} (lefts : ReadsBack read left)
    (rights : ReadsBack read right) :
    expression read (((Term.tuple left right).translate unmemoized .value).toList ++ rest) =
      some ((Term.tuple left right).renamed, rest) := by
  simp only [Term.translate, Position.text, String.toList_append, List.append_assoc]
  rw [expression, bind_of_some (get_apply _), if_neg (by simp), if_pos (by simp), pair,
    bind_of_some (expect_append _ _), bind_of_some (lefts.value _ rfl),
    bind_of_some (expect_append _ _), bind_of_some (rights.value _ rfl),
    bind_of_some (expect_append _ _), Term.renamed]
  rfl

theorem expression_first {value : Term} (values : ReadsBack read value) :
    expression read (((Term.first value).translate unmemoized .value).toList ++ rest) =
      some ((Term.first value).renamed, rest) := by
  simp only [Term.translate, Position.text, String.toList_append, List.append_assoc]
  rw [expression_parenthesis rfl, parenthesized_wrapped value rfl, wrapped,
    bind_of_some (values.value _ rfl), bind_of_some (startsWith_append _ _), if_pos rfl,
    bind_of_some (expect_append _ _), Term.renamed]
  rfl

theorem expression_second {value : Term} (values : ReadsBack read value) :
    expression read (((Term.second value).translate unmemoized .value).toList ++ rest) =
      some ((Term.second value).renamed, rest) := by
  have notFirst (more : List Char) :
      startsWith ")[0]" (")[1]".toList ++ more) = some (false, ")[1]".toList ++ more) := rfl
  simp only [Term.translate, Position.text, String.toList_append, List.append_assoc]
  rw [expression_parenthesis rfl, parenthesized_wrapped value rfl, wrapped,
    bind_of_some (values.value _ rfl), bind_of_some (notFirst _), if_neg Bool.false_ne_true,
    bind_of_some (startsWith_append _ _), if_pos rfl, bind_of_some (expect_append _ _),
    Term.renamed]
  rfl

/-- An expression is read if its parts are. -/
theorem expression_translate (term : Term) (parts : ∀ part ∈ term.parts, ReadsBack read part)
    (ends : isEnd rest = true) :
    expression read ((term.translate unmemoized .value).toList ++ rest) =
      some (term.renamed, rest) := by
  cases term with
  | letIn name value next =>
    exact expression_letIn (parts value (by simp [Term.parts]))
      (parts next (by simp [Term.parts])) name
  | function parameters body =>
    exact expression_function (parts body (by simp [Term.parts])) parameters
  | ifElse condition consequent alternative =>
    exact expression_ifElse (parts condition (by simp [Term.parts]))
      (parts consequent (by simp [Term.parts])) (parts alternative (by simp [Term.parts]))
  | print value => exact expression_print (parts value (by simp [Term.parts]))
  | call callee arguments =>
    exact expression_call (parts callee (by simp [Term.parts]))
      fun argument member => parts argument (by simp [Term.parts, member])
  | var name => exact expression_var name ends
  | int value =>
    have taken : expression read _ = _ := expression_integer value.toInt ends
    rw [Int64.ofInt_toInt] at taken
    exact taken
  | str value => exact expression_str value rest
  | bool value => exact expression_bool value (endsWord_of_isEnd ends)
  | binary op lhs rhs =>
    exact expression_binary (parts lhs (by simp [Term.parts])) (parts rhs (by simp [Term.parts])) op
  | tuple left right =>
    exact expression_tuple (parts left (by simp [Term.parts])) (parts right (by simp [Term.parts]))
  | first value => exact expression_first (parts value (by simp [Term.parts]))
  | second value => exact expression_second (parts value (by simp [Term.parts]))

theorem ended_translate (term : Term) (parts : ∀ part ∈ term.parts, ReadsBack read part) :
    ended read ((term.translate unmemoized .value).toList ++ (";".toList ++ rest)) =
      some (term.renamed, rest) := by
  rw [ended, bind_of_some (expression_translate term parts rfl), bind_of_some (expect_append _ _)]
  rfl

/-- A statement is read if its parts are. -/
theorem statement_translate (term : Term) (parts : ∀ part ∈ term.parts, ReadsBack read part)
    (returns : Bool) :
    statement read returns ((term.translate unmemoized (.statement returns)).toList ++ rest) =
      some (term.renamed, rest) := by
  by_cases isLet : term.kind = .letIn
  · cases term with
    | letIn name value next =>
      rw [Term.translate, statement, bind_of_some (startsWith_block _ _ _ _), if_pos rfl]
      exact block_append (parts value (by simp [Term.parts])) (parts next (by simp [Term.parts]))
        name returns
    | _ => cases isLet
  · rw [Term.translate_statement isLet, statementText, statement]
    cases returns with
    | true =>
      simp only [if_true, String.toList_append, List.append_assoc]
      rw [bind_of_some (startsWith_of_head (c := '\x7b') rfl (by simp)), if_neg Bool.false_ne_true,
        bind_of_some (expect_append _ _), ended_translate term parts]
    | false =>
      obtain ⟨c, cs, spelled, -, differs⟩ := (opens_translate term).eq_cons
      have notBlock : ((term.translate unmemoized .value).toList ++ (";".toList ++ rest)).head? ≠
          some '\x7b' := by
        rw [spelled]
        simpa using differs
      simp only [Bool.false_eq_true, if_false, String.toList_append, List.append_assoc]
      rw [bind_of_some (startsWith_of_head rfl notBlock), if_neg Bool.false_ne_true,
        ended_translate term parts]

end Reading

/-- Reading gets every term back from its translation, if it may go deep enough. -/
theorem readsBack_read {depth : Nat} {term : Term} (enough : term.size ≤ depth) :
    ReadsBack (Script.read depth) term := by
  induction depth generalizing term with
  | zero => exact absurd term.size_pos (Nat.not_lt.mpr enough)
  | succ depth inductionHypothesis =>
    have parts (part : Term) (member : part ∈ term.parts) : ReadsBack (Script.read depth) part := by
      have smaller := Term.size_le_sizeList member
      rw [term.size_eq_sizeList_parts] at enough
      exact inductionHypothesis (Nat.le_trans smaller (Nat.le_of_succ_le_succ enough))
    exact ⟨fun rest ends => expression_translate term parts ends,
      fun returns rest => statement_translate term parts returns⟩

/-! ### Renaming -/

theorem Term.varName?_renamed (term : Term) :
    term.renamed.varName? = term.varName?.map identifier := by
  cases term <;> simp [renamed, varName?]

mutual

/-- Names enter a script only by their identifiers. -/
theorem Term.translate_renamed (position : Position) (term : Term) :
    term.renamed.translate unmemoized position = term.translate unmemoized position :=
  match term with
  | .letIn name value next => by
    cases position <;> rw [renamed, translate, translate, identifier_identifier,
      translate_renamed _ value, translate_renamed _ next]
  | .function parameters body => by
    rw [renamed, translate, translate, translate_renamed _ body, map_identifier_map]
  | .ifElse condition consequent alternative => by
    rw [renamed, translate, translate, translate_renamed _ condition,
      translate_renamed _ consequent, translate_renamed _ alternative]
  | .print value => by
    rw [renamed, translate, translate, translate_renamed _ value]
  | .call callee arguments => by
    rw [renamed, translate, translate, varName?_renamed, translateAll_renamedAll arguments,
      translate_renamed _ callee]
    cases callee.varName? with
    | none => rfl
    | some name => simp [identifier_identifier]
  | .var name => by
    rw [renamed, translate, translate, identifier_identifier]
  | .int _ => by rw [renamed]
  | .str _ => by rw [renamed]
  | .bool _ => by rw [renamed]
  | .binary op lhs rhs => by
    rw [renamed, translate, translate, translate_renamed _ lhs, translate_renamed _ rhs]
  | .tuple left right => by
    rw [renamed, translate, translate, translate_renamed _ left, translate_renamed _ right]
  | .first value => by
    rw [renamed, translate, translate, translate_renamed _ value]
  | .second value => by
    rw [renamed, translate, translate, translate_renamed _ value]

theorem Term.translateAll_renamedAll (terms : List Term) :
    translateAll unmemoized (renamedAll terms) = translateAll unmemoized terms :=
  match terms with
  | [] => by rw [renamedAll]
  | term :: terms => by
    rw [renamedAll, translateAll, translateAll, translate_renamed _ term,
      translateAll_renamedAll terms]

end

/-- Terms with the same translation are the same up to the spelling of their names. -/
theorem Term.translate_eq_iff (term other : Term) :
    term.translate unmemoized (.statement false) = other.translate unmemoized (.statement false) ↔
      term.renamed = other.renamed := by
  constructor
  · intro same
    have read := (readsBack_read (Nat.le_max_left term.size other.size)).statement false []
    have readOther := (readsBack_read (Nat.le_max_right term.size other.size)).statement false []
    rw [same, readOther] at read
    exact congrArg Prod.fst (Option.some.inj read).symm
  · intro same
    rw [← translate_renamed _ term, same, translate_renamed]

namespace TermTree

/-- Two programs that are emitted with the same linkage and without memoization have the same
script exactly if they are the same once every name is replaced by its identifier. -/
theorem emitTree_source_eq_iff (term other : Term) (purity purity' : PurityTable)
    (linkage : Linkage) :
    ∃ emitted emitted', emitTree (ofTerm term) purity ⟨linkage, false⟩ = .ok emitted ∧
      emitTree (ofTerm other) purity' ⟨linkage, false⟩ = .ok emitted' ∧
      (emitted.source = emitted'.source ↔ term.renamed = other.renamed) := by
  have emits (term : Term) (purity : PurityTable) : ∃ emitted,
      emitTree (ofTerm term) purity ⟨linkage, false⟩ = .ok emitted ∧
      emitted.source =
        linkage.prologue ++ term.translate unmemoized (.statement false) ++ "\n" := by
    obtain ⟨unfolding, unfolds, rooted, rfl, ids⟩ := spells_ofTerm term
    exact ⟨_, unfolds.emitTree_eq rooted (ids ▸ List.nodup_range') purity ⟨linkage, false⟩, rfl⟩
  obtain ⟨emitted, ran, source⟩ := emits term purity
  obtain ⟨emitted', ran', source'⟩ := emits other purity'
  refine ⟨emitted, emitted', ran, ran', ?_⟩
  rw [source, source', ← Term.translate_eq_iff, String.append_left_inj, String.append_right_inj]

end TermTree

end TreeScript
