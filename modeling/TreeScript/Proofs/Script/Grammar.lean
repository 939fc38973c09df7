/-
This file holds the grammar of scripts: those rules of the language of the
scripts that its expressions, arrow functions and blocks come under, over tokens.
An operator takes operands that bind tighter than it does, so an arrow function
can be an operand only in parentheses. The parameters of a function have
different names, a block declares a name once and no name of a parameter, no
name is a reserved word, and only a function can return.

The second part derives the tokens of terms. Two things can stand in the way, and
both are conditions on one term at a time: an operand that is a function, since
operands are not put in parentheses, and parameters that become the same
identifier.
-/

import TreeScript.Proofs.Script.Tokens

namespace TreeScript

namespace Script

/-! ### The grammar -/

/-- The words that are no identifiers in strict code and in modules. -/
def keywords : List String :=
  [ "await", "break", "case", "catch", "class", "const", "continue", "debugger", "default",
    "delete", "do", "else", "enum", "export", "extends", "false", "finally", "for", "function",
    "if", "implements", "import", "in", "instanceof", "interface", "let", "new", "null", "package",
    "private", "protected", "public", "return", "static", "super", "switch", "this", "throw",
    "true", "try", "typeof", "var", "void", "while", "with", "yield" ]

/-- The names that can be declared. -/
def Declarable (name : String) : Prop :=
  name ∉ keywords ∧ name ≠ "eval" ∧ name ≠ "arguments"

/-- The binary operators, each with the level of its expressions. -/
def operators : List (String × Nat) :=
  [ ("*", 2), ("/", 2), ("%", 2), ("+", 3), ("-", 3), ("<", 4), (">", 4), ("<=", 4), (">=", 4),
    ("===", 5), ("!==", 5), ("&&", 6), ("||", 7) ]

/-- What tokens can be derived as. Expressions have levels: calls and all that is in brackets are at
level 0, signed operands at 1, operations from 2 to 7, and arrow functions at 8, which is the level
of all expressions. Statements may or may not return, and a list of them declares names. -/
inductive Symbol where
  | expression (level : Nat)
  | statement (returns : Bool)
  | statements (returns : Bool) (declared : List String)

/-- No expression starts with a brace here, so nothing has to be said about the first token of a
statement or of the body of an arrow function. -/
inductive Derives : Symbol → List Token → Prop where
  | identifier {name : String} (free : name ∉ keywords) : Derives (.expression 0) [.word name]
  | boolean (value : Bool) : Derives (.expression 0) [.word (toString value)]
  | number (digits : String) : Derives (.expression 0) [.number digits]
  | string (value : List Nat) : Derives (.expression 0) [.string value]
  | parenthesized {inner : List Token} (derives : Derives (.expression 8) inner) :
      Derives (.expression 0) ([.sign "("] ++ inner ++ [.sign ")"])
  | array {items : List (List Token)} (each : ∀ item ∈ items, Derives (.expression 8) item) :
      Derives (.expression 0) ([.sign "["] ++ listTokens items ++ [.sign "]"])
  | property {object : List Token} (name : String) (derives : Derives (.expression 0) object) :
      Derives (.expression 0) (object ++ [.sign ".", .word name])
  | index {object key : List Token} (derives : Derives (.expression 0) object)
      (keyDerives : Derives (.expression 8) key) :
      Derives (.expression 0) (object ++ [.sign "["] ++ key ++ [.sign "]"])
  | call {function : List Token} {arguments : List (List Token)}
      (derives : Derives (.expression 0) function)
      (each : ∀ argument ∈ arguments, Derives (.expression 8) argument) :
      Derives (.expression 0) (callTokens function arguments)
  | negation {operand : List Token} (derives : Derives (.expression 1) operand) :
      Derives (.expression 1) ([.sign "-"] ++ operand)
  | binary {op : String} {level : Nat} {left right : List Token} (known : (op, level) ∈ operators)
      (leftDerives : Derives (.expression level) left)
      (rightDerives : Derives (.expression (level - 1)) right) :
      Derives (.expression level) (left ++ [.sign op] ++ right)
  | looser {level level' : Nat} {tokens : List Token} (le : level ≤ level')
      (derives : Derives (.expression level) tokens) : Derives (.expression level') tokens
  | arrow {parameters : List String} {body : List Token}
      (declarable : ∀ name ∈ parameters, Declarable name) (distinct : parameters.Nodup)
      (derives : Derives (.expression 8) body) :
      Derives (.expression 8) (arrowTokens parameters ++ body)
  | function {parameters declared : List String} {body : List Token}
      (declarable : ∀ name ∈ parameters, Declarable name) (distinct : parameters.Nodup)
      (apart : parameters.Disjoint declared) (derives : Derives (.statements true declared) body) :
      Derives (.expression 8) (functionTokens parameters body)
  | block {returns : Bool} {declared : List String} {body : List Token}
      (derives : Derives (.statements returns declared) body) :
      Derives (.statement returns) ([.sign "\x7b"] ++ body ++ [.sign "\x7d"])
  | ended {returns : Bool} {tokens : List Token} (derives : Derives (.expression 8) tokens) :
      Derives (.statement returns) (tokens ++ [.sign ";"])
  | returned {tokens : List Token} (derives : Derives (.expression 8) tokens) :
      Derives (.statement true) ([.word "return"] ++ tokens ++ [.sign ";"])
  | nil {returns : Bool} : Derives (.statements returns []) []
  | cons {returns : Bool} {declared : List String} {first others : List Token}
      (firstDerives : Derives (.statement returns) first)
      (othersDerive : Derives (.statements returns declared) others) :
      Derives (.statements returns declared) (first ++ others)
  | declaration {returns : Bool} {declared : List String} {name : String}
      {value others : List Token} (declarable : Declarable name) (fresh : name ∉ declared)
      (derives : Derives (.expression 8) value)
      (othersDerive : Derives (.statements returns declared) others) :
      Derives (.statements returns (name :: declared))
        ([.word "let", .word name, .sign "="] ++ value ++ [.sign ";"] ++ others)

/-- A text is a script if its tokens are derived as statements outside of functions. -/
def IsScript (text : String) : Prop :=
  ∃ tokens declared, Reads text.toList tokens [] ∧ Derives (.statements false declared) tokens

/-! ### Names -/

theorem declarable_identifier (name : String) : Declarable (identifier name) := by
  have reserved : (keywords ++ ["eval", "arguments"]).all (· ∈ reservedWords) = true := by decide
  have free : identifier name ∉ keywords ++ ["eval", "arguments"] := fun member =>
    (isIdentifier_identifier name).notReserved
      (of_decide_eq_true (List.all_eq_true.mp reserved _ member))
  simpa [Declarable, not_or] using free

/-! ### Constructs -/

section Constructs

variable {tokens values nexts : List Token} {returns : Bool} {declared : List String}

theorem Derives.ofStatement (derives : Derives (.statement returns) tokens) :
    Derives (.statements returns []) tokens := by
  have alone := Derives.cons derives .nil
  rwa [List.append_nil] at alone

theorem derives_statementTokens (derives : Derives (.expression 8) tokens) :
    Derives (.statement returns) (statementTokens returns tokens) := by
  cases returns with
  | true => exact .returned derives
  | false => exact .ended derives

theorem derives_blockTokens (name : String) (derives : Derives (.expression 8) values)
    (nextDerives : Derives (.statement returns) nexts) :
    Derives (.statement returns) (blockTokens (identifier name) values nexts) := by
  have bound := Derives.declaration (declarable_identifier name) List.not_mem_nil derives
    nextDerives.ofStatement
  have block := Derives.block bound
  simpa only [blockTokens, List.append_assoc, List.cons_append, List.nil_append] using block

theorem derives_functionTokens (parameters : List String)
    (distinct : (parameters.map identifier).Nodup) (derives : Derives (.statement true) tokens) :
    Derives (.expression 8) (functionTokens (parameters.map identifier) tokens) := by
  refine .function ?_ distinct (List.disjoint_nil_right _) derives.ofStatement
  rw [List.forall_mem_map]
  exact fun name _ => declarable_identifier name

theorem derives_helperTokens (helper : Helper) :
    Derives (.expression 0) (helperTokens helper) :=
  .property helper.name (.identifier (by decide))

theorem exists_operator (op : BinaryOp) : ∃ level, (operatorText op, level) ∈ operators := by
  have listed : operatorText op ∈ operators.map Prod.fst := by cases op <;> decide
  obtain ⟨⟨text, level⟩, member, rfl⟩ := List.mem_map.mp listed
  exact ⟨level, member⟩

theorem level_of_mem_operators {op : String} {level : Nat} (known : (op, level) ∈ operators) :
    2 ≤ level ∧ level ≤ 7 := by
  have levels : operators.all (fun entry => 2 ≤ entry.2 ∧ entry.2 ≤ 7) = true := by decide
  simpa using List.all_eq_true.mp levels _ known

theorem derives_binaryTokens (op : BinaryOp) (derives : Derives (.expression 1) values)
    (nextDerives : Derives (.expression 1) nexts) :
    Derives (.expression 0) (binaryTokens op values nexts) := by
  obtain ⟨level, known⟩ := exists_operator op
  obtain ⟨atLeast, atMost⟩ := level_of_mem_operators known
  have operation : Derives (.expression 8) (values ++ [.sign (operatorText op)] ++ nexts) :=
    .looser (by omega) (.binary known (derives.looser (by omega)) (nextDerives.looser (by omega)))
  unfold binaryTokens
  split
  case h_1 =>
    have trunc : Derives (.expression 0) [.word "Math", .sign ".", .word "trunc"] :=
      .property "trunc" (.identifier (by decide))
    have called := Derives.call trunc (List.forall_mem_singleton.mpr operation)
    simpa only [callTokens, listTokens, operatorText, List.append_assoc, List.cons_append,
      List.nil_append] using called
  case h_2 =>
    have wrapped := Derives.parenthesized operation
    simpa only [List.append_assoc] using wrapped

end Constructs

end Script

/-! ### Terms -/

namespace Term

open Script

/-- The identifiers of the parameters of a function are different, and no operand is a function. -/
def OwnGrammatical : Term → Prop
  | function parameters _ => (parameters.map identifier).Nodup
  | binary _ lhs rhs => lhs.kind ≠ .function ∧ rhs.kind ≠ .function
  | _ => True

instance : DecidablePred OwnGrammatical
  | function parameters _ => inferInstanceAs (Decidable (parameters.map identifier).Nodup)
  | binary _ lhs rhs => inferInstanceAs (Decidable (lhs.kind ≠ .function ∧ rhs.kind ≠ .function))
  | letIn .. | ifElse .. | print _ | call .. | var _ | int _ | str _ | bool _ | tuple .. | first _
  | second _ => inferInstanceAs (Decidable True)

/-- This holds for all functions and operations in a term. -/
def Grammatical (term : Term) : Prop :=
  ∀ inner ∈ term.subterms, inner.OwnGrammatical

instance : DecidablePred Grammatical :=
  fun term => inferInstanceAs (Decidable (∀ inner ∈ term.subterms, inner.OwnGrammatical))

theorem grammatical_iff (term : Term) :
    term.Grammatical ↔ term.OwnGrammatical ∧ ∀ part ∈ term.parts, part.Grammatical := by
  simp only [Grammatical, term.subterms_eq_cons, List.forall_mem_cons, List.forall_mem_flatMap]

/-- The level at which a term stands. -/
def level (term : Term) : Nat :=
  match term.kind with
  | .function => 8
  | .int => 1
  | _ => 0

theorem level_le (term : Term) : term.level ≤ 8 := by
  unfold level
  split <;> omega

theorem level_le_one {term : Term} (notFunction : term.kind ≠ .function) : term.level ≤ 1 := by
  unfold level
  split
  · exact absurd ‹_› notFunction
  all_goals omega

variable {memoized : String → Bool}

/-- What the tokens of a term are derived as. -/
def symbol (term : Term) : Position → Symbol
  | .value => .expression term.level
  | .statement returns => .statement returns

/-- A term is derived wherever it stands. -/
def DerivedAnywhere (memoized : String → Bool) (term : Term) : Prop :=
  ∀ position, Derives (term.symbol position) (term.tokens memoized position)

theorem DerivedAnywhere.value {term : Term} (derived : term.DerivedAnywhere memoized) :
    Derives (.expression 8) (term.tokens memoized .value) :=
  (derived .value).looser term.level_le

theorem derives_letIn (name : String) {value next : Term}
    (values : value.DerivedAnywhere memoized) (nexts : next.DerivedAnywhere memoized) :
    Derives (.expression 0) ((letIn name value next).tokens memoized .value) := by
  have bound := Derives.declaration (declarable_identifier name) List.not_mem_nil values.value
    (nexts (.statement true)).ofStatement
  have thunk : Derives (.expression 8) _ := .function (List.forall_mem_nil _) List.nodup_nil
    (List.disjoint_nil_left _) bound
  have called := Derives.call (.parenthesized thunk) (List.forall_mem_nil _)
  simpa only [tokens, blockTokens, functionTokens, callTokens, listTokens, List.append_assoc,
    List.cons_append, List.nil_append] using called

theorem derives_ifElse {condition consequent alternative : Term}
    (conditions : condition.DerivedAnywhere memoized)
    (consequents : consequent.DerivedAnywhere memoized)
    (alternatives : alternative.DerivedAnywhere memoized) :
    Derives (.expression 0)
      ((ifElse condition consequent alternative).tokens memoized .value) := by
  have arrow : Derives (.expression 8) _ := .arrow (List.forall_mem_nil _) List.nodup_nil
    conditions.value
  have branch {term : Term} (derived : term.DerivedAnywhere memoized) :
      Derives (.expression 8) (functionTokens [] (term.tokens memoized (.statement true))) :=
    derives_functionTokens [] List.nodup_nil (derived (.statement true))
  refine .call (derives_helperTokens .executeIf) ?_
  simp only [List.forall_mem_cons]
  exact ⟨arrow, branch consequents, branch alternatives, List.forall_mem_nil _⟩

theorem derives_call {callee : Term} {arguments : List Term}
    (callees : callee.DerivedAnywhere memoized)
    (listed : ∀ argument ∈ arguments, argument.DerivedAnywhere memoized) :
    Derives (.expression 0) ((call callee arguments).tokens memoized .value) := by
  have values : ∀ argument ∈ arguments.map (tokens memoized .value),
      Derives (.expression 8) argument := by
    rw [List.forall_mem_map]
    exact fun argument member => (listed argument member).value
  rw [tokens, tokensAll_eq_map]
  dsimp only [Position.tokens]
  cases callee.varName? with
  | none => exact .call (.parenthesized callees.value) values
  | some name =>
    have named : Derives (.expression 0) [.word (identifier name)] :=
      .identifier (declarable_identifier name).1
    dsimp only
    split
    case isTrue =>
      refine .call (derives_helperTokens .memoize) ?_
      simp only [List.forall_mem_cons]
      exact ⟨named.looser (by omega), (Derives.string _).looser (by omega), values⟩
    case isFalse => exact .call named values

theorem derives_integerTokens (number : Int) : Derives (.expression 1) (integerTokens number) := by
  have digits (count : Nat) : Derives (.expression 1) [numberToken count] :=
    (Derives.number _).looser (by omega)
  unfold integerTokens
  split
  · exact digits _
  · exact .negation (digits _)

theorem derives_element (position : Nat) {tokens : List Token}
    (derives : Derives (.expression 8) tokens) :
    Derives (.expression 0) ([.sign "("] ++ tokens ++
      [.sign ")", .sign "[", numberToken position, .sign "]"]) := by
  have key : Derives (.expression 8) [numberToken position] :=
    (Derives.number _).looser (by omega)
  have element := Derives.index (.parenthesized derives) key
  simpa only [List.append_assoc, List.cons_append, List.nil_append] using element

theorem derives_value (term : Term) (grammatical : term.OwnGrammatical)
    (parts : ∀ part ∈ term.parts, part.DerivedAnywhere memoized) :
    Derives (.expression term.level) (term.tokens memoized .value) := by
  cases term
  case call callee arguments =>
    exact derives_call (parts callee List.mem_cons_self)
      fun argument member => parts argument (List.mem_cons_of_mem _ member)
  all_goals
    simp only [Term.parts, List.forall_mem_cons, List.not_mem_nil, false_implies, implies_true,
      and_true] at parts
  case letIn name value next => exact derives_letIn name parts.1 parts.2
  case ifElse condition consequent alternative =>
    exact derives_ifElse parts.1 parts.2.1 parts.2.2
  all_goals simp only [tokens, Position.tokens]
  case function parameters body =>
    exact derives_functionTokens parameters grammatical (parts (.statement true))
  case print value =>
    exact .call (derives_helperTokens .print) (List.forall_mem_singleton.mpr parts.value)
  case var name => exact .identifier (declarable_identifier name).1
  case int value => exact derives_integerTokens value.toInt
  case str value => exact .string (units value)
  case bool value => exact .boolean value
  case binary op lhs rhs =>
    exact derives_binaryTokens op ((parts.1 .value).looser (level_le_one grammatical.1))
      ((parts.2 .value).looser (level_le_one grammatical.2))
  case tuple left right =>
    have pair : Derives (.expression (tuple left right).level) _ := .array (List.forall_mem_cons.mpr
      ⟨parts.1.value, List.forall_mem_singleton.mpr parts.2.value⟩)
    rw [listTokens, listTokens] at pair
    simpa only [List.append_assoc] using pair
  case first value =>
    exact derives_element 0 parts.value
  case second value =>
    exact derives_element 1 parts.value

/-- The tokens of a term are derived if the conditions hold for all that is in it. -/
theorem Grammatical.derivedAnywhere {term : Term} (grammatical : term.Grammatical) :
    term.DerivedAnywhere memoized := by
  intro position
  induction term, position using induction_on_positions with
  | value term parts =>
    obtain ⟨own, inParts⟩ := (grammatical_iff term).mp grammatical
    exact derives_value term own fun part member position => parts part member position
      (inParts part member)
  | ended term returns notLet derives =>
    rw [tokens_statement notLet]
    exact derives_statementTokens ((derives grammatical).looser term.level_le)
  | block name bound next returns boundDerives nextDerives =>
    obtain ⟨-, inParts⟩ := (grammatical_iff _).mp grammatical
    rw [tokens]
    exact derives_blockTokens name
      ((boundDerives (inParts bound (by simp [parts]))).looser bound.level_le)
      (nextDerives (inParts next (by simp [parts])))

end Term

end TreeScript
