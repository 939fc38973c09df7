/-
This file takes scripts apart into tokens: words, numbers, strings and signs. A
token is as long as it can be, blanks separate tokens and mean nothing else, and
a text with a comment or with a number that a letter follows has no tokens. This
is the order of things for the language of the scripts, as far as they use it.

The tokens of a translated term are those of its construct and its parts. They
are defined beside the translation and read off its text, whatever follows the
text, as long as no word or number goes on there.
-/

import TreeScript.Proofs.Script.Scanning
import TreeScript.Proofs.Script.Translation
import Mathlib.Data.List.Forall2

namespace TreeScript

namespace Script

/-! ### Tokens -/

inductive Token where
  | word (text : String)
  | number (digits : String)
  | string (value : List Nat)
  | sign (text : String)
deriving DecidableEq

/-- The signs that are made of the characters in scripts, longer ones first. -/
def signs : List String :=
  [ ">>>=", "...", "===", "!==", "**=", "<<=", ">>=", ">>>", "&&=", "||=", "<=", ">=", "==", "!=",
    "**", "++", "--", "<<", ">>", "&&", "||", "+=", "-=", "*=", "/=", "%=", "&=", "|=", "=>",
    "\x7b", "\x7d", "(", ")", "[", "]", ".", ";", ",", "<", ">", "+", "-", "*", "/", "%", "&", "|",
    "!", "=" ]

def commentSigns : List String :=
  ["//", "/*", "<!--", "-->"]

/-- The number at the front of a text. It does not start with a needless zero, and neither a letter
nor a fraction follows it. -/
def number? (input : List Char) : Option (Token × List Char) :=
  let digits := input.takeWhile Char.isDigit
  let rest := input.dropWhile Char.isDigit
  if (digits.head? = some '0' ∧ digits ≠ ['0']) ∨
      rest.head?.any (fun c => isIdentifierChar c || c = '.') then none
  else some (.number (String.ofList digits), rest)

/-- The longest sign at the front of a text. A comment is none, nor is a point that starts a
fraction. -/
def sign? (input : List Char) : Option (Token × List Char) :=
  if commentSigns.any (fun text => text.toList.isPrefixOf input) ∨
      (input.head? = some '.' ∧ input.tail.head?.any Char.isDigit) then none
  else (signs.find? fun text => text.toList.isPrefixOf input).map fun text =>
    (.sign text, input.drop text.toList.length)

/-- The token at the front of a text, and what follows it. -/
def token? : List Char → Option (Token × List Char)
  | [] => none
  | c :: rest =>
    if c = '"' then (quoted? rest).map fun taken => (.string taken.1, taken.2)
    else if c.isDigit then number? (c :: rest)
    else if isIdentifierChar c then
      some (.word (String.ofList ((c :: rest).takeWhile isIdentifierChar)),
        (c :: rest).dropWhile isIdentifierChar)
    else sign? (c :: rest)

/-- Skips a blank or takes a token. A line may end only where the text ends. -/
def next? : List Char → Option (List Token × List Char)
  | [] => none
  | c :: rest =>
    if c = ' ' ∨ (c = '\n' ∧ rest = []) then some ([], rest)
    else (token? (c :: rest)).map fun taken => ([taken.1], taken.2)

/-- The tokens of a text up to some place in it. -/
inductive Reads : List Char → List Token → List Char → Prop where
  | refl (input : List Char) : Reads input [] input
  | next {input middle rest : List Char} {first others : List Token}
      (taken : next? input = some (first, middle)) (reads : Reads middle others rest) :
      Reads input (first ++ others) rest

theorem Reads.trans {input middle rest : List Char} {tokens others : List Token}
    (reads : Reads input tokens middle) (more : Reads middle others rest) :
    Reads input (tokens ++ others) rest := by
  induction reads with
  | refl => exact more
  | next taken _ inductionHypothesis =>
    rw [List.append_assoc]
    exact .next taken (inductionHypothesis more)

/-- What is read of a text up to some place is where all of its tokens start. -/
theorem Reads.split {input rest : List Char} {tokens all : List Token}
    (reads : Reads input tokens rest) (whole : Reads input all []) :
    ∃ others, all = tokens ++ others ∧ Reads rest others [] := by
  induction reads generalizing all with
  | refl => exact ⟨all, rfl, whole⟩
  | next taken _ inductionHypothesis =>
    cases whole with
    | refl => cases taken
    | next wholeTaken whole =>
      cases taken.symm.trans wholeTaken
      obtain ⟨others, rfl, othersRead⟩ := inductionHypothesis whole
      exact ⟨others, (List.append_assoc ..).symm, othersRead⟩

/-- A text has at most one list of tokens. -/
theorem Reads.unique {input : List Char} {tokens others : List Token}
    (reads : Reads input tokens []) (otherReads : Reads input others []) : tokens = others := by
  obtain ⟨more, rfl, moreRead⟩ := reads.split otherReads
  cases moreRead with
  | refl => exact (List.append_nil tokens).symm
  | next taken => cases taken

/-- Takes a number of tokens and blanks. -/
def take? : Nat → List Char → Option (List Token × List Char)
  | 0, input => some ([], input)
  | count + 1, input => do
    let (first, middle) ← next? input
    let (others, rest) ← take? count middle
    return (first ++ others, rest)

theorem reads_of_take? (count : Nat) {input rest : List Char} {tokens : List Token}
    (taken : take? count input = some (tokens, rest)) : Reads input tokens rest := by
  induction count generalizing input tokens with
  | zero =>
    cases taken
    exact .refl _
  | succ count inductionHypothesis =>
    obtain ⟨⟨first, middle⟩, firstTaken, taken⟩ := Option.bind_eq_some_iff.mp taken
    obtain ⟨⟨others, rest⟩, othersTaken, taken⟩ := Option.bind_eq_some_iff.mp taken
    cases taken
    exact .next firstTaken (inductionHypothesis othersTaken)

/-! ### Texts that are read -/

/-- A character that neither a word nor a number goes on with. -/
def isStop (c : Char) : Bool :=
  !isIdentifierChar c && c ≠ '.'

/-- A text is read as given, whatever follows it. -/
def ReadsFixed (text : String) (tokens : List Token) : Prop :=
  ∀ rest, Reads (text.toList ++ rest) tokens rest

/-- A text is read as given if no word or number goes on behind it. -/
def ReadsAs (text : String) (tokens : List Token) : Prop :=
  ∀ rest : List Char, rest.head?.all isStop = true → Reads (text.toList ++ rest) tokens rest

section Texts

variable {text other : String} {tokens others : List Token}

theorem ReadsFixed.readsAs (reads : ReadsFixed text tokens) : ReadsAs text tokens :=
  fun rest _ => reads rest

theorem ReadsFixed.part (reads : ReadsFixed text tokens) (otherReads : ReadsAs other others) :
    ReadsAs (text ++ other) (tokens ++ others) := by
  intro rest stops
  rw [String.toList_append, List.append_assoc]
  exact (reads _).trans (otherReads rest stops)

theorem ReadsAs.fixed (reads : ReadsAs text tokens) (otherReads : ReadsFixed other others)
    (stops : other.toList.head?.any isStop = true) :
    ReadsFixed (text ++ other) (tokens ++ others) := by
  intro rest
  rw [String.toList_append, List.append_assoc]
  refine (reads _ ?_).trans (otherReads rest)
  cases spelled : other.toList with
  | nil =>
    rw [spelled] at stops
    cases stops
  | cons c cs =>
    rw [spelled] at stops
    exact stops

/-- A run of characters of a kind, where none of them follows. -/
theorem takeWhile_append_stop {kind : Char → Bool} {chars rest : List Char}
    (all : ∀ c ∈ chars, kind c = true) (ends : ∀ c ∈ rest.head?, kind c = false) :
    (chars ++ rest).takeWhile kind = chars ∧ (chars ++ rest).dropWhile kind = rest :=
  Prod.mk.inj (Option.some.inj (Reader.takeAll_append all ends))

theorem isStop_head {rest : List Char} (stops : rest.head?.all isStop = true) :
    ∀ c ∈ rest.head?, isIdentifierChar c = false ∧ c ≠ '.' := by
  intro c member
  rw [Option.mem_def.mp member, Option.all_some] at stops
  simpa [isStop] using stops

theorem readsAs_word {text : String} (chars : ∀ c ∈ text.toList, isIdentifierChar c = true)
    (start : ∃ c cs, text.toList = c :: cs ∧ c.isDigit = false) : ReadsAs text [.word text] := by
  intro rest stops
  obtain ⟨c, cs, spelled, notDigit⟩ := start
  obtain ⟨taken, left⟩ := takeWhile_append_stop chars
    fun d member => (isStop_head stops d member).1
  have char : isIdentifierChar c = true := chars c (spelled ▸ List.mem_cons_self)
  have notBlank : c ≠ ' ' ∧ c ≠ '\n' ∧ c ≠ '"' := by
    refine ⟨?_, ?_, ?_⟩
    all_goals
      rintro rfl
      exact absurd char (by decide)
  have read : next? (text.toList ++ rest) = some ([.word text], rest) := by
    rw [spelled, List.cons_append] at taken left ⊢
    rw [next?, if_neg (by simp [notBlank]), token?, if_neg notBlank.2.2, notDigit,
      if_neg Bool.false_ne_true, if_pos char, taken, left, ← spelled, String.ofList_toList]
    rfl
  exact .next read (.refl rest)

theorem readsAs_identifier (name : String) :
    ReadsAs (identifier name) [.word (identifier name)] :=
  readsAs_word (isIdentifier_identifier name).chars (isIdentifier_identifier name).start

/-- Only zero starts with a zero. -/
theorem head?_toDigits {number : Nat} (positive : 0 < number) :
    (Nat.toDigits 10 number).head? ≠ some '0' := by
  induction number using Nat.strongRecOn with
  | _ number inductionHypothesis =>
    rw [Nat.toDigits_eq_if (by decide)]
    split
    case isTrue small =>
      have digits : ∀ digit : Fin 10, digit.val ≠ 0 → Nat.digitChar digit ≠ '0' := by decide
      simpa using digits ⟨number, small⟩ (Nat.ne_of_gt positive)
    case isFalse large =>
      have higher := inductionHypothesis (number / 10) (by omega) (by omega)
      rwa [List.head?_append_of_ne_nil _ Nat.toDigits_ne_nil]

def numberToken (number : Nat) : Token :=
  .number (String.ofList (Nat.toDigits 10 number))

theorem reads_toDigits (number : Nat) {rest : List Char} (stops : rest.head?.all isStop = true) :
    Reads (Nat.toDigits 10 number ++ rest) [numberToken number] rest := by
  obtain ⟨digit, others, spelled, isDigit⟩ := Reader.toDigits_eq_cons number
  have noDigit (c : Char) (member : c ∈ rest.head?) : c.isDigit = false := by
    have notChar := (isStop_head stops c member).1
    simp only [isIdentifierChar, Char.isAlphanum, Bool.or_eq_false_iff] at notChar
    exact notChar.2.2
  obtain ⟨taken, left⟩ := takeWhile_append_stop
    (fun c member => Nat.isDigit_of_mem_toDigits (b := 10) (n := number) (by decide) (by decide)
      member) noDigit
  have noZero : ¬ ((Nat.toDigits 10 number).head? = some '0' ∧ Nat.toDigits 10 number ≠ ['0']) := by
    rintro ⟨zero, notZero⟩
    cases number with
    | zero => exact notZero rfl
    | succ number => exact head?_toDigits (Nat.succ_pos number) zero
  have stopped : rest.head?.any (fun c => isIdentifierChar c || c = '.') = false := by
    cases head : rest.head? with
    | none => rfl
    | some c =>
      obtain ⟨notChar, notPoint⟩ := isStop_head stops c head
      simp [notChar, notPoint]
  have notBlank : digit ≠ ' ' ∧ digit ≠ '\n' ∧ digit ≠ '"' := by
    refine ⟨?_, ?_, ?_⟩
    all_goals
      rintro rfl
      exact absurd isDigit (by decide)
  have counted : number? (Nat.toDigits 10 number ++ rest) = some (numberToken number, rest) := by
    simp only [number?, taken, left, stopped, noZero, Bool.false_eq_true, or_self, if_false]
    rfl
  have read : next? (Nat.toDigits 10 number ++ rest) = some ([numberToken number], rest) := by
    rw [spelled, List.cons_append] at counted ⊢
    rw [next?, if_neg (by simp [notBlank]), token?, if_neg notBlank.2.2, if_pos isDigit, counted]
    rfl
  exact .next read (.refl rest)

theorem next?_minus {digit : Char} (isDigit : digit.isDigit = true) (rest : List Char) :
    next? ('-' :: digit :: rest) = some ([.sign "-"], digit :: rest) := by
  have notMinus : ('-' == digit) = false := by
    rw [beq_eq_false_iff_ne]
    rintro rfl
    exact absurd isDigit (by decide)
  have notEquals : ('=' == digit) = false := by
    rw [beq_eq_false_iff_ne]
    rintro rfl
    exact absurd isDigit (by decide)
  have notChar : isIdentifierChar '-' = false := by decide
  simp [next?, token?, sign?, signs, commentSigns, List.isPrefixOf, notChar, notMinus, notEquals]

/-- The tokens of an integer: its sign is one of its own. -/
def integerTokens (number : Int) : List Token :=
  if 0 ≤ number then [numberToken number.toNat] else [.sign "-", numberToken (-number).toNat]

theorem readsAs_toString (number : Int) : ReadsAs (toString number) (integerTokens number) := by
  intro rest stops
  by_cases nonnegative : 0 ≤ number
  · rw [Reader.toList_toString_of_nonneg nonnegative, integerTokens, if_pos nonnegative]
    exact reads_toDigits _ stops
  · obtain ⟨digit, others, spelled, isDigit⟩ := Reader.toDigits_eq_cons (-number).toNat
    have minus : Reads ("-".toList ++ (Nat.toDigits 10 (-number).toNat ++ rest)) [.sign "-"]
        (Nat.toDigits 10 (-number).toNat ++ rest) := by
      rw [spelled]
      exact .next (next?_minus isDigit _) (.refl _)
    rw [Reader.toList_toString_of_neg nonnegative, integerTokens, if_neg nonnegative,
      List.append_assoc]
    exact minus.trans (reads_toDigits _ stops)

theorem readsFixed_literal (text : String) : ReadsFixed (literal text) [.string (units text)] := by
  intro rest
  have lexed := stringLiteral?_literal text rest
  have read : next? ((literal text).toList ++ rest) = some ([.string (units text)], rest) := by
    rw [literal, String.toList_ofList, List.cons_append] at lexed ⊢
    rw [stringLiteral?] at lexed
    rw [next?, if_neg (by simp), token?, if_pos rfl, lexed]
    rfl
  exact .next read (.refl rest)

end Texts

/-! ### The tokens of the constructs -/

/-- Entries with a comma between them. -/
def listTokens : List (List Token) → List Token
  | [] => []
  | [entry] => entry
  | entry :: next :: entries => entry ++ [.sign ","] ++ listTokens (next :: entries)

def wordTokens (words : List String) : List Token :=
  listTokens (words.map fun word => [.word word])

def blockTokens (name : String) (value next : List Token) : List Token :=
  [.sign "\x7b", .word "let"] ++ [.word name] ++ [.sign "="] ++ value ++ [.sign ";"] ++ next ++
    [.sign "\x7d"]

/-- The parameters of a function and the arrow behind them. -/
def arrowTokens (parameters : List String) : List Token :=
  [.sign "("] ++ wordTokens parameters ++ [.sign ")"] ++ [.sign "=>"]

def functionTokens (parameters : List String) (body : List Token) : List Token :=
  arrowTokens parameters ++ [.sign "\x7b"] ++ body ++ [.sign "\x7d"]

def callTokens (function : List Token) (arguments : List (List Token)) : List Token :=
  function ++ [.sign "("] ++ listTokens arguments ++ [.sign ")"]

def helperTokens (helper : Helper) : List Token :=
  [.word supportName, .sign ".", .word helper.name]

def conditionalTokens (condition consequent alternative : List Token) : List Token :=
  callTokens (helperTokens .executeIf)
    [arrowTokens [] ++ condition, functionTokens [] consequent, functionTokens [] alternative]

def binaryTokens (op : BinaryOp) (lhs rhs : List Token) : List Token :=
  match op with
  | .div => [.word "Math", .sign ".", .word "trunc", .sign "("] ++ lhs ++ [.sign "/"] ++ rhs ++
      [.sign ")"]
  | op => [.sign "("] ++ lhs ++ [.sign (operatorText op)] ++ rhs ++ [.sign ")"]

def statementTokens (returns : Bool) (expression : List Token) : List Token :=
  if returns then [.word "return"] ++ expression ++ [.sign ";"] else expression ++ [.sign ";"]

section Constructs

variable {value next condition consequent alternative : String}
variable {values nexts conditions consequents alternatives : List Token}

/-- A fixed text is read token by token. -/
theorem readsFixed_of_take? (count : Nat) {text : String} {tokens : List Token}
    (taken : ∀ rest, take? count (text.toList ++ rest) = some (tokens, rest)) :
    ReadsFixed text tokens :=
  fun rest => reads_of_take? count (taken rest)

theorem readsFixed_opening : ReadsFixed "(" [.sign "("] :=
  readsFixed_of_take? 1 fun _ => rfl

theorem readsFixed_closing : ReadsFixed ")" [.sign ")"] :=
  readsFixed_of_take? 1 fun _ => rfl

theorem readsFixed_comma : ReadsFixed ", " [.sign ","] :=
  readsFixed_of_take? 2 fun _ => rfl

theorem readsFixed_brace : ReadsFixed "\x7d" [.sign "\x7d"] :=
  readsFixed_of_take? 1 fun _ => rfl

theorem readsAs_intercalate {texts : List String} {entries : List (List Token)}
    (reads : List.Forall₂ ReadsAs texts entries) :
    ReadsAs (", ".intercalate texts) (listTokens entries) := by
  induction reads with
  | nil =>
    rw [String.intercalate_nil]
    exact fun rest _ => .refl rest
  | cons first others inductionHypothesis =>
    cases others with
    | nil =>
      rw [String.intercalate_singleton]
      exact first
    | cons =>
      rw [String.intercalate_cons_cons]
      exact (first.fixed readsFixed_comma rfl).part inductionHypothesis

theorem readsAs_blockText (name : String) (valueReads : ReadsAs value values)
    (nextReads : ReadsAs next nexts) :
    ReadsAs (blockText (identifier name) value next)
      (blockTokens (identifier name) values nexts) := by
  have opened : ReadsFixed "\x7blet " [.sign "\x7b", .word "let"] :=
    readsFixed_of_take? 3 fun _ => rfl
  have equals : ReadsFixed " = " [.sign "="] := readsFixed_of_take? 3 fun _ => rfl
  have semicolon : ReadsFixed "; " [.sign ";"] := readsFixed_of_take? 2 fun _ => rfl
  have bound := (opened.part (readsAs_identifier name)).fixed equals rfl
  have inside := ((bound.part valueReads).fixed semicolon rfl).part nextReads
  exact (inside.fixed readsFixed_brace rfl).readsAs

theorem readsAs_functionText (parameters : List String) (reads : ReadsAs value values) :
    ReadsAs (functionText (parameters.map identifier) value)
      (functionTokens (parameters.map identifier) values) := by
  have names : ReadsAs (", ".intercalate (parameters.map identifier))
      (wordTokens (parameters.map identifier)) := by
    refine readsAs_intercalate ?_
    rw [List.map_map, List.forall₂_map_left_iff, List.forall₂_map_right_iff, List.forall₂_same]
    exact fun name _ => readsAs_identifier name
  have arrow : ReadsFixed ") => \x7b" [.sign ")", .sign "=>", .sign "\x7b"] :=
    readsFixed_of_take? 5 fun _ => rfl
  have inside := ((readsFixed_opening.part names).fixed arrow rfl).part reads
  have whole := inside.fixed readsFixed_brace rfl
  simp only [functionTokens, arrowTokens, List.append_assoc, List.cons_append, List.nil_append]
    at whole ⊢
  exact whole.readsAs

theorem readsAs_callText {function : String} {functions : List Token} {arguments : List String}
    {entries : List (List Token)} (functionReads : ReadsAs function functions)
    (reads : List.Forall₂ ReadsAs arguments entries) :
    ReadsAs (callText function arguments) (callTokens functions entries) := by
  have inside := (functionReads.fixed readsFixed_opening rfl).part (readsAs_intercalate reads)
  exact (inside.fixed readsFixed_closing rfl).readsAs

theorem readsAs_helper (helper : Helper) : ReadsAs helper.qualified (helperTokens helper) := by
  intro rest stops
  have named : ReadsAs helper.name [.word helper.name] := by
    cases helper <;> exact readsAs_word (List.all_eq_true.mp (by decide)) ⟨_, _, rfl, by decide⟩
  have qualified : Reads (helper.qualified.toList ++ rest) [.word supportName, .sign "."]
      (helper.name.toList ++ rest) := by
    cases helper <;> exact reads_of_take? 2 rfl
  exact qualified.trans (named rest stops)

theorem readsAs_thunkText (reads : ReadsAs value values) :
    ReadsAs (thunkText value) (functionTokens [] values) :=
  readsAs_functionText [] reads

theorem readsAs_conditionalText (conditionReads : ReadsAs condition conditions)
    (consequentReads : ReadsAs consequent consequents)
    (alternativeReads : ReadsAs alternative alternatives) :
    ReadsAs (conditionalText condition consequent alternative)
      (conditionalTokens conditions consequents alternatives) := by
  have arrow : ReadsFixed "() => " (arrowTokens []) := readsFixed_of_take? 5 fun _ => rfl
  exact readsAs_callText (readsAs_helper .executeIf) (.cons (arrow.part conditionReads)
    (.cons (readsAs_thunkText consequentReads) (.cons (readsAs_thunkText alternativeReads) .nil)))

theorem readsAs_binaryText (op : BinaryOp) (reads : ReadsAs value values)
    (nextReads : ReadsAs next nexts) :
    ReadsAs (binaryText op value next) (binaryTokens op values nexts) := by
  unfold binaryText binaryTokens
  split
  case h_1 =>
    have opened : ReadsFixed "Math.trunc(" [.word "Math", .sign ".", .word "trunc", .sign "("] :=
      readsFixed_of_take? 4 fun _ => rfl
    have slash : ReadsFixed " / " [.sign "/"] := readsFixed_of_take? 3 fun _ => rfl
    have inside := ((opened.part reads).fixed slash rfl).part nextReads
    exact (inside.fixed readsFixed_closing rfl).readsAs
  case h_2 =>
    have operator : ReadsFixed (" " ++ (operatorText op ++ " ")) [.sign (operatorText op)] := by
      cases op <;> exact readsFixed_of_take? 3 fun _ => rfl
    have space : (" " ++ (operatorText op ++ " ")).toList.head?.any isStop = true := by
      rw [String.toList_append]
      rfl
    have inside := ((readsFixed_opening.part reads).fixed operator space).part nextReads
    have whole := inside.fixed readsFixed_closing rfl
    simp only [String.append_assoc] at whole ⊢
    exact whole.readsAs

theorem readsAs_statementText (returns : Bool) (reads : ReadsAs value values) :
    ReadsAs (statementText returns value) (statementTokens returns values) := by
  have semicolon : ReadsFixed ";" [.sign ";"] := readsFixed_of_take? 1 fun _ => rfl
  cases returns with
  | true =>
    have returned : ReadsFixed "return " [.word "return"] := readsFixed_of_take? 2 fun _ => rfl
    exact ((returned.part reads).fixed semicolon rfl).readsAs
  | false => exact (reads.fixed semicolon rfl).readsAs

end Constructs

end Script

/-! ### The tokens of terms -/

/-- The tokens of an expression at a position. -/
def Position.tokens : Position → List Script.Token → List Script.Token
  | value, expression => expression
  | statement returns, expression => Script.statementTokens returns expression

namespace Term

open Script

mutual

/-- The tokens of a term, where calls of the memoized names go through the memo helper. -/
def tokens (memoized : String → Bool) : Position → Term → List Token
  | .value, letIn name value next =>
    [.sign "("] ++ arrowTokens [] ++ blockTokens (identifier name)
      (value.tokens memoized .value) (next.tokens memoized (.statement true)) ++
      [.sign ")", .sign "(", .sign ")"]
  | .statement returns, letIn name value next =>
    blockTokens (identifier name) (value.tokens memoized .value)
      (next.tokens memoized (.statement returns))
  | position, function parameters body =>
    position.tokens (functionTokens (parameters.map identifier)
      (body.tokens memoized (.statement true)))
  | position, ifElse condition consequent alternative =>
    position.tokens (conditionalTokens (condition.tokens memoized .value)
      (consequent.tokens memoized (.statement true))
      (alternative.tokens memoized (.statement true)))
  | position, print value =>
    position.tokens (callTokens (helperTokens .print) [value.tokens memoized .value])
  | position, call callee arguments =>
    position.tokens <| match callee.varName? with
      | some name =>
        if memoized name then
          callTokens (helperTokens .memoize)
            ([.word (identifier name)] :: [.string (units name)] :: tokensAll memoized arguments)
        else callTokens [.word (identifier name)] (tokensAll memoized arguments)
      | none =>
        callTokens ([.sign "("] ++ callee.tokens memoized .value ++ [.sign ")"])
          (tokensAll memoized arguments)
  | position, var name => position.tokens [.word (identifier name)]
  | position, int value => position.tokens (integerTokens value.toInt)
  | position, str value => position.tokens [.string (units value)]
  | position, bool value => position.tokens [.word (toString value)]
  | position, binary op lhs rhs =>
    position.tokens (binaryTokens op (lhs.tokens memoized .value) (rhs.tokens memoized .value))
  | position, tuple left right =>
    position.tokens ([.sign "["] ++ left.tokens memoized .value ++ [.sign ","] ++
      right.tokens memoized .value ++ [.sign "]"])
  | position, first value =>
    position.tokens ([.sign "("] ++ value.tokens memoized .value ++
      [.sign ")", .sign "[", numberToken 0, .sign "]"])
  | position, second value =>
    position.tokens ([.sign "("] ++ value.tokens memoized .value ++
      [.sign ")", .sign "[", numberToken 1, .sign "]"])

def tokensAll (memoized : String → Bool) : List Term → List (List Token)
  | [] => []
  | term :: terms => term.tokens memoized .value :: tokensAll memoized terms

end

theorem tokensAll_eq_map (memoized : String → Bool) (terms : List Term) :
    tokensAll memoized terms = terms.map (tokens memoized .value) := by
  induction terms with
  | nil => rw [tokensAll, List.map_nil]
  | cons term terms inductionHypothesis => rw [tokensAll, inductionHypothesis, List.map_cons]

variable {memoized : String → Bool}

/-- Only bindings look different as a statement. -/
theorem tokens_statement {term : Term} {returns : Bool} (notLet : term.kind ≠ .letIn) :
    term.tokens memoized (.statement returns) =
      statementTokens returns (term.tokens memoized .value) := by
  cases term with
  | letIn => exact absurd rfl notLet
  | _ => simp only [tokens, Position.tokens]

theorem readsAs_value (term : Term) (parts : ∀ part ∈ term.parts, ∀ position,
      ReadsAs (part.translate memoized position) (part.tokens memoized position)) :
    ReadsAs (term.translate memoized .value) (term.tokens memoized .value) := by
  cases term
  case call callee arguments =>
    have values : List.Forall₂ ReadsAs (arguments.map (translate memoized .value))
        (arguments.map (tokens memoized .value)) := by
      rw [List.forall₂_map_left_iff, List.forall₂_map_right_iff, List.forall₂_same]
      exact fun argument member => parts argument (List.mem_cons_of_mem _ member) .value
    rw [translate, tokens, translateAll_eq_map, tokensAll_eq_map]
    dsimp only [Position.text, Position.tokens]
    cases callee.varName? with
    | none =>
      have inside := readsFixed_opening.part (parts callee List.mem_cons_self .value)
      exact readsAs_callText (inside.fixed readsFixed_closing rfl).readsAs values
    | some name =>
      dsimp only
      split
      case isTrue =>
        exact readsAs_callText (readsAs_helper .memoize)
          (.cons (readsAs_identifier name) (.cons (readsFixed_literal name).readsAs values))
      case isFalse => exact readsAs_callText (readsAs_identifier name) values
  all_goals
    simp only [Term.parts, List.forall_mem_cons, List.not_mem_nil, false_implies, implies_true,
      and_true] at parts
    simp only [translate, tokens, Position.text, Position.tokens]
  case letIn name value next =>
    have thunk : ReadsFixed "(() => " ([.sign "("] ++ arrowTokens []) :=
      readsFixed_of_take? 6 fun _ => rfl
    have called : ReadsFixed ")()" [.sign ")", .sign "(", .sign ")"] :=
      readsFixed_of_take? 3 fun _ => rfl
    exact ((thunk.part (readsAs_blockText name (parts.1 .value)
      (parts.2 (.statement true)))).fixed called rfl).readsAs
  case function parameters body =>
    exact readsAs_functionText parameters (parts (.statement true))
  case ifElse condition consequent alternative =>
    exact readsAs_conditionalText (parts.1 .value) (parts.2.1 (.statement true))
      (parts.2.2 (.statement true))
  case print value =>
    exact readsAs_callText (readsAs_helper .print) (.cons (parts .value) .nil)
  case var name => exact readsAs_identifier name
  case int value => exact readsAs_toString value.toInt
  case str value => exact (readsFixed_literal value).readsAs
  case bool value =>
    cases value <;> exact readsAs_word (List.all_eq_true.mp (by decide)) ⟨_, _, rfl, by decide⟩
  case binary op lhs rhs => exact readsAs_binaryText op (parts.1 .value) (parts.2 .value)
  case tuple left right =>
    have bracket : ReadsFixed "[" [.sign "["] := readsFixed_of_take? 1 fun _ => rfl
    have closed : ReadsFixed "]" [.sign "]"] := readsFixed_of_take? 1 fun _ => rfl
    have inside := ((bracket.part (parts.1 .value)).fixed readsFixed_comma rfl).part
      (parts.2 .value)
    exact (inside.fixed closed rfl).readsAs
  case first value =>
    have index : ReadsFixed ")[0]" [.sign ")", .sign "[", numberToken 0, .sign "]"] :=
      readsFixed_of_take? 4 fun _ => rfl
    exact ((readsFixed_opening.part (parts .value)).fixed index rfl).readsAs
  case second value =>
    have index : ReadsFixed ")[1]" [.sign ")", .sign "[", numberToken 1, .sign "]"] :=
      readsFixed_of_take? 4 fun _ => rfl
    exact ((readsFixed_opening.part (parts .value)).fixed index rfl).readsAs

/-- The text of a term is read as its tokens. -/
theorem readsAs_translate (term : Term) (position : Position) :
    ReadsAs (term.translate memoized position) (term.tokens memoized position) := by
  induction term, position using induction_on_positions with
  | value term parts => exact readsAs_value term parts
  | ended term returns notLet reads =>
    rw [translate_statement notLet, tokens_statement notLet]
    exact readsAs_statementText returns reads
  | block name bound next returns boundReads nextReads =>
    rw [translate, tokens]
    exact readsAs_blockText name boundReads nextReads

end Term

end TreeScript
