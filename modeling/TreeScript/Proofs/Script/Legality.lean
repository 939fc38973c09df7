/-
This file says exactly which programs have a script that the grammar derives. That
no operand is a function and that parameters become different identifiers is known
to suffice. It is also necessary: where one of these conditions fails, it spoils the
whole script, however deep in the program that is.

A derivation of a long list of tokens says little about its middle. What it does
say can be checked from left to right, with the tokens so far and the brackets
that are open: in parentheses no operator follows a closing brace, and an arrow
follows parameters in parentheses, which are different and do not follow an
operator. Every derivation passes this check, by induction, and the tokens of a
term pass it only if the conditions hold.
-/

import TreeScript.Proofs.Script.Grammar

namespace TreeScript

namespace Script

/-! ### The check -/

namespace Token

def isOperator : Token → Bool
  | sign text => text ∈ operators.map Prod.fst
  | _ => false

/-- Whether a token opens a bracket, closes one, or is none. -/
def bracket : Token → Option Bool
  | sign text =>
    if text ∈ ["(", "[", "\x7b"] then some true
    else if text ∈ [")", "]", "\x7d"] then some false
    else none
  | _ => none

/-- A token that may stand anywhere, as far as the check can see. -/
def isFree (token : Token) : Bool :=
  !token.isOperator && token ≠ sign "=>"

end Token

/-- The open brackets behind a token, the last one first. -/
def nest (stack : List Token) (token : Token) : List Token :=
  match token.bracket with
  | some true => token :: stack
  | some false => stack.tail
  | none => stack

/-- A token may stand behind the given ones, the last one first, in the given brackets. -/
structure Allowed (stack before : List Token) (token : Token) : Prop where
  operator : token.isOperator = true → before.head? = some (.sign "\x7d") →
    stack.head? ≠ some (.sign "(")
  arrow : token = .sign "=>" → ∃ names outer,
    before = .sign ")" :: ((wordTokens names).reverse ++ .sign "(" :: outer) ∧ names.Nodup ∧
      ∀ previous ∈ outer.head?, previous.isOperator = false

/-- Each token may stand where it does. -/
def Checked : List Token → List Token → List Token → Prop
  | _, _, [] => True
  | stack, before, token :: tokens =>
    Allowed stack before token ∧ Checked (nest stack token) (token :: before) tokens

variable {stack before tokens others : List Token}

theorem checked_append :
    Checked stack before (tokens ++ others) ↔
      Checked stack before tokens ∧
        Checked (tokens.foldl nest stack) (tokens.reverse ++ before) others := by
  induction tokens generalizing stack before with
  | nil => exact (and_iff_right trivial).symm
  | cons token tokens inductionHypothesis =>
    rw [List.cons_append, Checked, Checked, inductionHypothesis, and_assoc, List.foldl_cons,
      List.reverse_cons, List.append_assoc, List.singleton_append]

theorem checked_of_isFree (free : tokens.all Token.isFree = true) :
    Checked stack before tokens := by
  induction tokens generalizing stack before with
  | nil => trivial
  | cons token tokens inductionHypothesis =>
    rw [List.all_cons, Bool.and_eq_true] at free
    have own : token.isOperator = false ∧ token ≠ .sign "=>" := by
      simpa [Token.isFree] using free.1
    refine ⟨⟨fun isOperator => ?_, fun isArrow => absurd isArrow own.2⟩,
      inductionHypothesis free.2⟩
    cases own.1.symm.trans isOperator

/-- Tokens between free ones are checked where they stand. -/
theorem checked_between {first last : List Token} (free : first.all Token.isFree = true)
    (lastFree : last.all Token.isFree = true)
    (checked : Checked (first.foldl nest stack) (first.reverse ++ before) tokens) :
    Checked stack before (first ++ tokens ++ last) := by
  rw [checked_append, checked_append]
  exact ⟨⟨checked_of_isFree free, checked⟩, checked_of_isFree lastFree⟩

theorem checked_behind {first last : List Token} (otherChecked : Checked stack before others)
    (free : first.all Token.isFree = true) (lastFree : last.all Token.isFree = true)
    (checked : Checked (first.foldl nest (others.foldl nest stack))
      (first.reverse ++ (others.reverse ++ before)) tokens) :
    Checked stack before (others ++ first ++ tokens ++ last) := by
  rw [List.append_assoc, List.append_assoc, ← List.append_assoc first, checked_append]
  exact ⟨otherChecked, checked_between free lastFree checked⟩

/-! ### Brackets -/

/-- The tokens leave the open brackets as they are. -/
def Balanced (tokens : List Token) : Prop :=
  ∀ stack, tokens.foldl nest stack = stack

theorem balanced_append (balanced : Balanced tokens) (otherBalanced : Balanced others) :
    Balanced (tokens ++ others) := by
  intro stack
  rw [List.foldl_append, balanced, otherBalanced]

theorem balanced_of_bracket {token : Token} (none : token.bracket = none) : Balanced [token] := by
  intro stack
  rw [List.foldl_cons, List.foldl_nil, nest, none]

theorem balanced_listTokens {entries : List (List Token)}
    (each : ∀ entry ∈ entries, Balanced entry) : Balanced (listTokens entries) := by
  fun_induction listTokens entries with
  | case1 => exact fun _ => rfl
  | case2 entry => exact each entry List.mem_cons_self
  | case3 entry next entries inductionHypothesis =>
    rw [List.forall_mem_cons] at each
    exact balanced_append (balanced_append each.1 (balanced_of_bracket rfl))
      (inductionHypothesis each.2)

theorem balanced_wordTokens (words : List String) : Balanced (wordTokens words) := by
  refine balanced_listTokens ?_
  rw [List.forall_mem_map]
  exact fun word _ => balanced_of_bracket rfl

/-- An operator is neither a bracket nor an arrow. -/
theorem sign_of_mem_operators {op : String} {level : Nat} (known : (op, level) ∈ operators) :
    (Token.sign op).bracket = none ∧ Token.sign op ≠ .sign "=>" := by
  have signs : operators.all (fun entry => (Token.sign entry.1).bracket = none ∧
      Token.sign entry.1 ≠ .sign "=>") = true := by decide
  exact of_decide_eq_true (List.all_eq_true.mp signs _ known)

/-- Tokens between fixed ones, where the second open or close what the first leave. -/
theorem balanced_between {first last : List Token}
    (fits : ∀ stack, ∃ inside, first.foldl nest stack = inside ∧ last.foldl nest inside = stack)
    (balanced : Balanced tokens) : Balanced (first ++ tokens ++ last) := by
  intro stack
  obtain ⟨inside, opened, closed⟩ := fits stack
  rw [List.foldl_append, List.foldl_append, opened, balanced, closed]

theorem balanced_behind {first last : List Token} (otherBalanced : Balanced others)
    (fits : ∀ stack, ∃ inside, first.foldl nest stack = inside ∧ last.foldl nest inside = stack)
    (balanced : Balanced tokens) : Balanced (others ++ first ++ tokens ++ last) := by
  rw [List.append_assoc, List.append_assoc, ← List.append_assoc first]
  exact balanced_append otherBalanced (balanced_between fits balanced)

theorem balanced_arrowTokens (parameters : List String) : Balanced (arrowTokens parameters) :=
  balanced_append (balanced_between (fun _ => ⟨_, rfl, rfl⟩) (balanced_wordTokens parameters))
    (balanced_of_bracket rfl)

theorem balanced_functionTokens (parameters : List String) (balanced : Balanced tokens) :
    Balanced (functionTokens parameters tokens) :=
  balanced_behind (balanced_arrowTokens parameters) (fun _ => ⟨_, rfl, rfl⟩) balanced

theorem balanced_callTokens {functions : List Token} {entries : List (List Token)}
    (balanced : Balanced functions) (each : ∀ entry ∈ entries, Balanced entry) :
    Balanced (callTokens functions entries) :=
  balanced_behind balanced (fun _ => ⟨_, rfl, rfl⟩) (balanced_listTokens each)

theorem balanced_blockTokens (name : String) {values nexts : List Token}
    (balanced : Balanced values) (nextBalanced : Balanced nexts) :
    Balanced (blockTokens name values nexts) := by
  intro stack
  rw [blockTokens, List.foldl_append, List.foldl_append, nextBalanced, List.foldl_append,
    List.foldl_append, balanced]
  rfl

/-- What is derived is balanced. -/
theorem Derives.balanced {symbol : Symbol} (derives : Derives symbol tokens) :
    Balanced tokens := by
  induction derives with
  | identifier | boolean | number | string => exact balanced_of_bracket rfl
  | looser _ _ inductionHypothesis => exact inductionHypothesis
  | nil => exact fun _ => rfl
  | cons _ _ first others => exact balanced_append first others
  | parenthesized _ inner => exact balanced_between (fun _ => ⟨_, rfl, rfl⟩) inner
  | array _ items => exact balanced_between (fun _ => ⟨_, rfl, rfl⟩) (balanced_listTokens items)
  | property name _ object => exact balanced_append object fun _ => rfl
  | index _ _ object key => exact balanced_behind object (fun _ => ⟨_, rfl, rfl⟩) key
  | call _ _ function arguments => exact balanced_callTokens function arguments
  | negation _ operand => exact balanced_append (balanced_of_bracket rfl) operand
  | binary known _ _ left right =>
    exact balanced_append
      (balanced_append left (balanced_of_bracket (sign_of_mem_operators known).1)) right
  | arrow _ _ _ body => exact balanced_append (balanced_arrowTokens _) body
  | function _ _ _ _ body => exact balanced_functionTokens _ body
  | block _ body => exact balanced_between (fun _ => ⟨_, rfl, rfl⟩) body
  | ended _ expression => exact balanced_append expression (balanced_of_bracket rfl)
  | returned _ expression => exact balanced_between (fun _ => ⟨_, rfl, rfl⟩) expression
  | declaration _ _ _ _ value others =>
    exact balanced_append (balanced_between (fun _ => ⟨_, rfl, rfl⟩) value) others

/-! ### Derivations pass -/

/-- What may be derived as a symbol behind the given tokens, in the given brackets. -/
def Suits (stack before : List Token) : Symbol → Prop
  | .expression level =>
    (before.head? = some (.sign "\x7d") → stack.head? ≠ some (.sign "(")) ∧
      (8 ≤ level → ∀ previous ∈ before.head?, previous.isOperator = false)
  | .statement _ | .statements _ _ =>
    stack.head? ≠ some (.sign "(") ∧ ∀ previous ∈ before.head?, previous.isOperator = false

/-- An expression may stand behind every token that is no operator and no brace. -/
theorem suits_expression {previous : Token} (level : Nat) (noOperator : previous.isOperator = false)
    (noBrace : previous ≠ .sign "\x7d") : Suits stack (previous :: before) (.expression level) := by
  constructor
  · exact fun brace => absurd (Option.some.inj brace) noBrace
  · rintro - _ ⟨⟩
    exact noOperator

/-- An operand may stand behind an operator. -/
theorem suits_operand {op : Token} {level : Nat} (low : level < 8) (noBrace : op ≠ .sign "\x7d") :
    Suits stack (op :: before) (.expression level) :=
  ⟨fun brace => absurd (Option.some.inj brace) noBrace,
    fun high => absurd high (Nat.not_le.mpr low)⟩

/-- Statements may stand behind an opened brace. -/
theorem suits_statements {returns : Bool} {declared : List String} :
    Suits (.sign "\x7b" :: stack) (.sign "\x7b" :: before) (.statements returns declared) := by
  constructor
  · exact fun parenthesis => absurd (Option.some.inj parenthesis) (by decide)
  · rintro _ ⟨⟩
    decide

/-- Below the level of arrow functions no expression ends with a brace. -/
theorem Derives.getLast?_ne {level : Nat} (derives : Derives (.expression level) tokens)
    (low : level < 8) : ∃ last, tokens.getLast? = some last ∧ last ≠ .sign "\x7d" := by
  generalize symbolIs : Symbol.expression level = symbol at derives
  induction derives generalizing level with
  | identifier | boolean | number | string => exact ⟨_, rfl, by rintro ⟨⟩⟩
  | parenthesized | call => exact ⟨.sign ")", List.getLast?_concat, by decide⟩
  | array | index => exact ⟨.sign "]", List.getLast?_concat, by decide⟩
  | property name => exact ⟨.word name, by simp, by rintro ⟨⟩⟩
  | negation _ operand =>
    obtain ⟨last, ends, notBrace⟩ := operand low symbolIs
    exact ⟨last, by rw [List.getLast?_append, ends]; rfl, notBrace⟩
  | binary known _ _ _ right =>
    obtain ⟨last, ends, notBrace⟩ := right (by have := level_of_mem_operators known; omega) rfl
    exact ⟨last, by rw [List.getLast?_append, ends]; rfl, notBrace⟩
  | looser le _ inductionHypothesis =>
    cases symbolIs
    exact inductionHypothesis (Nat.lt_of_le_of_lt le low) rfl
  | arrow | function =>
    cases symbolIs
    exact absurd low (Nat.lt_irrefl 8)
  | _ => cases symbolIs

theorem Derives.getLast?_statement {returns : Bool}
    (derives : Derives (.statement returns) tokens) :
    ∃ last, tokens.getLast? = some last ∧ last.isOperator = false := by
  cases derives with
  | block => exact ⟨.sign "\x7d", List.getLast?_concat, by decide⟩
  | ended | returned => exact ⟨.sign ";", List.getLast?_concat, by decide⟩

theorem head?_reverse_append {last : Token} (ends : tokens.getLast? = some last) :
    (tokens.reverse ++ before).head? = some last := by
  rw [List.head?_append, List.head?_reverse, ends]
  rfl

theorem mem_wordTokens {words : List String} {token : Token} (member : token ∈ wordTokens words) :
    token = .sign "," ∨ ∃ word, token = .word word := by
  unfold wordTokens at member
  induction words with
  | nil => cases member
  | cons word words inductionHypothesis =>
    cases words with
    | nil => exact .inr ⟨word, List.mem_singleton.mp member⟩
    | cons next words =>
      rcases List.mem_cons.mp member with rfl | member
      · exact .inr ⟨word, rfl⟩
      · exact (List.mem_cons.mp member).elim .inl inductionHypothesis

theorem isFree_wordTokens (words : List String) :
    (wordTokens words).all Token.isFree = true := by
  refine List.all_eq_true.mpr fun token member => ?_
  obtain rfl | ⟨word, rfl⟩ := mem_wordTokens member <;> rfl

/-- A list is checked if each of its entries is. -/
theorem checked_listTokens {entries : List (List Token)}
    (each : ∀ entry ∈ entries, ∀ stack before, Suits stack before (.expression 8) →
      Checked stack before entry)
    (suits : Suits stack before (.expression 8)) : Checked stack before (listTokens entries) := by
  fun_induction listTokens entries generalizing stack before with
  | case1 => trivial
  | case2 entry => exact each entry List.mem_cons_self stack before suits
  | case3 entry next entries inductionHypothesis =>
    rw [List.forall_mem_cons] at each
    rw [checked_append, checked_append]
    refine ⟨⟨each.1 stack before suits, checked_of_isFree rfl⟩, inductionHypothesis each.2 ?_⟩
    rw [List.reverse_append]
    exact suits_expression 8 rfl (by decide)

theorem checked_arrowTokens {parameters : List String} (distinct : parameters.Nodup)
    (suits : Suits stack before (.expression 8)) :
    Checked stack before (arrowTokens parameters) := by
  have free : List.all ([.sign "("] ++ wordTokens parameters ++ [.sign ")"]) Token.isFree =
      true := by
    rw [List.all_append, List.all_append, isFree_wordTokens]
    rfl
  refine checked_append.mpr ⟨checked_of_isFree free, ⟨?_, fun _ => ?_⟩, trivial⟩
  · rintro ⟨⟩
  · refine ⟨parameters, before, ?_, distinct, suits.2 (Nat.le_refl 8)⟩
    rw [List.reverse_append, List.reverse_append, List.append_assoc, List.append_assoc]
    rfl

/-- Every derivation passes the check. -/
theorem Derives.checked {symbol : Symbol} (derives : Derives symbol tokens)
    (suits : Suits stack before symbol) : Checked stack before tokens := by
  induction derives generalizing stack before with
  | identifier | boolean | number | string => exact checked_of_isFree rfl
  | parenthesized _ inner =>
    exact checked_between rfl rfl (inner (suits_expression 8 rfl (by decide)))
  | array _ items =>
    exact checked_between rfl rfl (checked_listTokens (fun item member _ _ => items item member)
      (suits_expression 8 rfl (by decide)))
  | property name _ object =>
    rw [checked_append]
    exact ⟨object suits, checked_of_isFree rfl⟩
  | index _ _ object key =>
    exact checked_behind (object suits) rfl rfl (key (suits_expression 8 rfl (by decide)))
  | call _ _ function arguments =>
    exact checked_behind (function suits) rfl rfl
      (checked_listTokens (fun argument member _ _ => arguments argument member)
        (suits_expression 8 rfl (by decide)))
  | negation _ operand =>
    rw [checked_append]
    exact ⟨⟨⟨fun _ => suits.1, fun isArrow => absurd isArrow (by decide)⟩, trivial⟩,
      operand (suits_operand (by omega) (by decide))⟩
  | binary known leftDerives _ left right =>
    obtain ⟨-, atMost⟩ := level_of_mem_operators known
    obtain ⟨noBracket, noArrow⟩ := sign_of_mem_operators known
    obtain ⟨last, ends, noBrace⟩ := leftDerives.getLast?_ne (by omega)
    rw [checked_append, checked_append, List.reverse_append]
    refine ⟨⟨left suits, ⟨fun _ brace => ?_, fun isArrow => absurd isArrow noArrow⟩, trivial⟩,
      right (suits_operand (by omega) ?_)⟩
    · rw [head?_reverse_append ends] at brace
      exact absurd (Option.some.inj brace) noBrace
    · intro brace
      rw [brace] at noBracket
      cases noBracket
  | looser le _ inductionHypothesis =>
    exact inductionHypothesis ⟨suits.1, fun high => suits.2 (Nat.le_trans high le)⟩
  | arrow _ distinct _ body =>
    rw [checked_append, arrowTokens, List.reverse_append]
    exact ⟨checked_arrowTokens distinct suits, body (suits_expression 8 rfl (by decide))⟩
  | function _ distinct _ _ body =>
    exact checked_behind (checked_arrowTokens distinct suits) rfl rfl (body suits_statements)
  | block _ body => exact checked_between rfl rfl (body suits_statements)
  | ended _ expression =>
    rw [checked_append]
    exact ⟨expression ⟨fun _ => suits.1, fun _ => suits.2⟩, checked_of_isFree rfl⟩
  | returned _ expression =>
    exact checked_between rfl rfl (expression (suits_expression 8 rfl (by decide)))
  | nil => trivial
  | cons firstDerives _ first others =>
    obtain ⟨last, ends, noOperator⟩ := firstDerives.getLast?_statement
    rw [checked_append, firstDerives.balanced]
    refine ⟨first suits, others ⟨suits.1, ?_⟩⟩
    rw [head?_reverse_append ends]
    rintro _ ⟨⟩
    exact noOperator
  | @declaration _ _ name _ _ _ _ derives _ value others =>
    have keeps : Balanced ([.word "let", .word name, .sign "="] ++ _ ++ [.sign ";"]) :=
      balanced_between (fun _ => ⟨_, rfl, rfl⟩) derives.balanced
    rw [checked_append, keeps]
    refine ⟨checked_between rfl rfl (value (suits_expression 8 rfl (by decide))),
      others ⟨suits.1, ?_⟩⟩
    rw [head?_reverse_append List.getLast?_concat]
    rintro _ ⟨⟩
    decide

/-! ### What the check says -/

/-- Any stretch of checked tokens is checked where it stands. -/
theorem checked_of_infix (stretch : others <:+: tokens) (checked : Checked stack before tokens) :
    ∃ stack before, Checked stack before others := by
  obtain ⟨first, last, rfl⟩ := stretch
  rw [checked_append, checked_append] at checked
  exact ⟨_, _, checked.1.2⟩

def Token.word? : Token → Option String
  | word text => some text
  | _ => none

/-- Words can be read off their tokens. -/
theorem filterMap_wordTokens (words : List String) :
    (wordTokens words).filterMap Token.word? = words := by
  unfold wordTokens
  induction words with
  | nil => rfl
  | cons word words inductionHypothesis =>
    cases words with
    | nil => rfl
    | cons next words => exact congrArg (word :: ·) inductionHypothesis

/-- What stands before the first occurrence of an entry, and behind it. -/
theorem eq_of_append_cons_eq {α : Type} {entry : α} {first second others rest : List α}
    (notFirst : entry ∉ first) (notSecond : entry ∉ second)
    (same : first ++ entry :: rest = second ++ entry :: others) :
    first = second ∧ rest = others := by
  induction first generalizing second with
  | nil =>
    cases second with
    | nil => exact ⟨rfl, (List.cons.inj same).2⟩
    | cons => exact absurd ((List.cons.inj same).1 ▸ List.mem_cons_self) notSecond
  | cons head first inductionHypothesis =>
    cases second with
    | nil => exact absurd ((List.cons.inj same).1 ▸ List.mem_cons_self) notFirst
    | cons =>
      obtain ⟨rfl, behind⟩ := List.cons.inj same
      obtain ⟨rfl, rfl⟩ := inductionHypothesis (List.not_mem_of_not_mem_cons notFirst)
        (List.not_mem_of_not_mem_cons notSecond) behind
      exact ⟨rfl, rfl⟩

/-- A checked function has different parameters and does not stand behind an operator. -/
theorem nodup_of_checked {parameters : List String}
    (checked : Checked stack before (functionTokens parameters tokens)) :
    parameters.Nodup ∧ ∀ previous ∈ before.head?, previous.isOperator = false := by
  have notMem (words : List String) : .sign "(" ∉ (wordTokens words).reverse := by
    intro member
    rcases mem_wordTokens (List.mem_reverse.mp member) with same | ⟨word, same⟩
    · exact absurd same (by decide)
    · cases same
  rw [functionTokens, checked_append, checked_append, checked_append, arrowTokens,
    checked_append] at checked
  obtain ⟨names, outer, spelled, distinct, noOperator⟩ := checked.1.1.1.2.1.arrow rfl
  rw [List.reverse_append, List.reverse_append, List.append_assoc, List.append_assoc] at spelled
  obtain ⟨sameWords, rfl⟩ := eq_of_append_cons_eq (notMem parameters) (notMem names)
    (List.cons.inj spelled).2
  have same : parameters = names := by
    rw [← filterMap_wordTokens parameters, List.reverse_injective sameWords, filterMap_wordTokens]
  exact ⟨same ▸ distinct, noOperator⟩

/-- Whatever the operator, an operation is its operands between fixed tokens. -/
theorem binaryTokens_eq (op : BinaryOp) (lhs rhs : List Token) :
    ∃ first, (∀ stack, first.foldl nest stack = .sign "(" :: stack) ∧
      binaryTokens op lhs rhs =
        first ++ lhs ++ [.sign (operatorText op)] ++ rhs ++ [.sign ")"] := by
  cases op
  case div => exact ⟨[.word "Math", .sign ".", .word "trunc", .sign "("], fun _ => rfl, rfl⟩
  all_goals exact ⟨[.sign "("], fun _ => rfl, rfl⟩

theorem balanced_binaryTokens (op : BinaryOp) {lhs rhs : List Token} (balanced : Balanced lhs)
    (otherBalanced : Balanced rhs) : Balanced (binaryTokens op lhs rhs) := by
  obtain ⟨first, opens, spelled⟩ := binaryTokens_eq op lhs rhs
  obtain ⟨level, known⟩ := exists_operator op
  intro stack
  rw [spelled, List.foldl_append, List.foldl_append, otherBalanced, List.foldl_append,
    balanced_of_bracket (sign_of_mem_operators known).1, List.foldl_append, opens, balanced]
  rfl

theorem isOperator_operatorText (op : BinaryOp) :
    (Token.sign (operatorText op)).isOperator = true := by
  obtain ⟨level, known⟩ := exists_operator op
  exact decide_eq_true (List.mem_map_of_mem known)

/-- A checked operation has operands that do not end with a brace and do not stand behind an
operator. -/
theorem operands_of_checked {op : BinaryOp} {lhs rhs : List Token} (balanced : Balanced lhs)
    (checked : Checked stack before (binaryTokens op lhs rhs)) :
    lhs.getLast? ≠ some (.sign "\x7d") ∧
      ∃ stack outer, Checked stack (.sign (operatorText op) :: outer) rhs := by
  obtain ⟨first, opens, spelled⟩ := binaryTokens_eq op lhs rhs
  rw [spelled, checked_append, checked_append, checked_append, checked_append, List.foldl_append,
    List.foldl_append, opens, balanced] at checked
  obtain ⟨⟨⟨⟨-, -⟩, signed, -⟩, right⟩, -⟩ := checked
  constructor
  · intro ends
    refine signed.operator (isOperator_operatorText op) ?_ rfl
    rw [List.reverse_append, List.append_assoc]
    exact head?_reverse_append ends
  · rw [List.reverse_append] at right
    exact ⟨_, _, right⟩

theorem infix_front (stretch : others <:+: tokens) (more : List Token) :
    others <:+: tokens ++ more :=
  stretch.trans (List.prefix_append tokens more).isInfix

theorem infix_back (more : List Token) (stretch : others <:+: tokens) :
    others <:+: more ++ tokens :=
  stretch.trans (List.suffix_append more tokens).isInfix

theorem infix_listTokens {entry : List Token} {entries : List (List Token)}
    (member : entry ∈ entries) : entry <:+: listTokens entries := by
  fun_induction listTokens entries with
  | case1 => cases member
  | case2 => exact List.mem_singleton.mp member ▸ List.infix_refl _
  | case3 first next entries inductionHypothesis =>
    rcases List.mem_cons.mp member with rfl | member
    · exact infix_front (infix_front (List.infix_refl _) _) _
    · exact infix_back _ (inductionHypothesis member)

theorem infix_callTokens {function entry : List Token} {entries : List (List Token)}
    (member : entry ∈ entries) : entry <:+: callTokens function entries :=
  infix_front (infix_back _ (infix_listTokens member)) _

theorem infix_functionTokens (parameters : List String) (body : List Token) :
    body <:+: functionTokens parameters body :=
  List.infix_append _ _ _

theorem infix_statementTokens (returns : Bool) (tokens : List Token) :
    tokens <:+: statementTokens returns tokens := by
  cases returns with
  | true => exact List.infix_append _ _ _
  | false => exact infix_front (List.infix_refl _) _

/-- Two lists of tokens with fixed ones around them. -/
theorem infix_pair (first between last left right : List Token) :
    left <:+: first ++ left ++ between ++ right ++ last ∧
      right <:+: first ++ left ++ between ++ right ++ last :=
  ⟨infix_front (infix_front (infix_front (infix_back _ (List.infix_refl _)) _) _) _,
    List.infix_append _ _ _⟩

end Script

/-! ### Terms that pass -/

namespace Term

open Script

variable {memoized : String → Bool}

theorem balanced_value (term : Term)
    (parts : ∀ part ∈ term.parts, ∀ position, Balanced (part.tokens memoized position)) :
    Balanced (term.tokens memoized .value) := by
  have helper (helper : Helper) : Balanced (helperTokens helper) := fun _ => rfl
  cases term
  case call callee arguments =>
    have values : ∀ entry ∈ arguments.map (tokens memoized .value), Balanced entry := by
      rw [List.forall_mem_map]
      exact fun argument member => parts argument (List.mem_cons_of_mem _ member) .value
    rw [tokens, tokensAll_eq_map]
    dsimp only [Position.tokens]
    split
    next name _ =>
      split
      · refine balanced_callTokens (helper .memoize) ?_
        simp only [List.forall_mem_cons]
        exact ⟨fun _ => rfl, fun _ => rfl, values⟩
      · exact balanced_callTokens (fun _ => rfl) values
    next =>
      exact balanced_callTokens (balanced_between (fun _ => ⟨_, rfl, rfl⟩)
        (parts callee List.mem_cons_self .value)) values
  all_goals
    simp only [Term.parts, List.forall_mem_cons, List.not_mem_nil, false_implies, implies_true,
      and_true] at parts
    simp only [tokens, Position.tokens]
  case letIn name value next =>
    exact balanced_between (fun _ => ⟨_, rfl, rfl⟩)
      (balanced_blockTokens _ (parts.1 .value) (parts.2 (.statement true)))
  case function parameters body => exact balanced_functionTokens _ (parts (.statement true))
  case ifElse condition consequent alternative =>
    refine balanced_callTokens (helper .executeIf) ?_
    simp only [List.forall_mem_cons]
    exact ⟨balanced_append (balanced_arrowTokens []) (parts.1 .value),
      balanced_functionTokens [] (parts.2.1 (.statement true)),
      balanced_functionTokens [] (parts.2.2 (.statement true)), List.forall_mem_nil _⟩
  case print value =>
    exact balanced_callTokens (helper .print) (List.forall_mem_singleton.mpr (parts .value))
  case int value =>
    unfold integerTokens
    split <;> exact fun _ => rfl
  case binary op lhs rhs => exact balanced_binaryTokens op (parts.1 .value) (parts.2 .value)
  case tuple left right =>
    have items := balanced_append (balanced_append (parts.1 .value)
      (balanced_of_bracket (rfl : (Token.sign ",").bracket = none))) (parts.2 .value)
    have pair : Balanced ([.sign "["] ++ _ ++ [.sign "]"]) :=
      balanced_between (fun _ => ⟨_, rfl, rfl⟩) items
    simpa only [List.append_assoc] using pair
  case first value => exact balanced_between (fun _ => ⟨_, rfl, rfl⟩) (parts .value)
  case second value => exact balanced_between (fun _ => ⟨_, rfl, rfl⟩) (parts .value)
  all_goals exact fun _ => rfl

theorem balanced_tokens (term : Term) (position : Position) :
    Balanced (term.tokens memoized position) := by
  induction term, position using induction_on_positions with
  | value term parts => exact balanced_value term parts
  | ended term returns notLet balanced =>
    rw [tokens_statement notLet]
    cases returns with
    | true => exact balanced_between (fun _ => ⟨_, rfl, rfl⟩) balanced
    | false => exact balanced_append balanced (balanced_of_bracket rfl)
  | block name bound next returns boundBalanced nextBalanced =>
    rw [tokens]
    exact balanced_blockTokens _ boundBalanced nextBalanced

/-- The tokens of a part stand in those of the term, unless the part is a name that is called. -/
theorem infix_value (memoized : String → Bool) {term part : Term} (member : part ∈ term.parts) :
    (∃ name, part = .var name) ∨
      ∃ position, part.tokens memoized position <:+: term.tokens memoized .value := by
  cases term
  case call callee arguments =>
    rw [tokens, tokensAll_eq_map]
    dsimp only [Position.tokens]
    have listed {argument : Term} (member : argument ∈ arguments) :
        argument.tokens memoized .value ∈ arguments.map (tokens memoized .value) :=
      List.mem_map_of_mem member
    rcases List.mem_cons.mp member with rfl | member
    · cases isVar : part.varName? with
      | some name => exact .inl ⟨name, eq_var_of_varName? isVar⟩
      | none =>
        exact .inr ⟨.value, infix_front (infix_front (infix_front (List.infix_append _ _ _) _) _) _⟩
    · refine .inr ⟨.value, ?_⟩
      split
      · split
        · exact infix_callTokens (List.mem_cons_of_mem _ (List.mem_cons_of_mem _ (listed member)))
        · exact infix_callTokens (listed member)
      · exact infix_callTokens (listed member)
  all_goals simp only [Term.parts, List.mem_cons, List.not_mem_nil, or_false] at member
  all_goals simp only [tokens, Position.tokens]
  case letIn name value next =>
    obtain ⟨bound, rest⟩ := infix_pair _ _ _ (value.tokens memoized .value)
      (next.tokens memoized (.statement true))
    rcases member with rfl | rfl
    · exact .inr ⟨.value, bound.trans (List.infix_append _ _ _)⟩
    · exact .inr ⟨.statement true, rest.trans (List.infix_append _ _ _)⟩
  case function parameters body =>
    exact .inr ⟨.statement true, member ▸ infix_functionTokens _ _⟩
  case ifElse condition consequent alternative =>
    rcases member with rfl | rfl | rfl
    · exact .inr ⟨.value, (infix_back _ (List.infix_refl _)).trans
        (infix_callTokens List.mem_cons_self)⟩
    · exact .inr ⟨.statement true, (infix_functionTokens [] _).trans
        (infix_callTokens (by simp))⟩
    · exact .inr ⟨.statement true, (infix_functionTokens [] _).trans
        (infix_callTokens (by simp))⟩
  case print value => exact .inr ⟨.value, member ▸ infix_callTokens List.mem_cons_self⟩
  case binary op lhs rhs =>
    obtain ⟨first, -, spelled⟩ := binaryTokens_eq op (lhs.tokens memoized .value)
      (rhs.tokens memoized .value)
    obtain ⟨left, right⟩ := infix_pair first _ _ (lhs.tokens memoized .value)
      (rhs.tokens memoized .value)
    rw [spelled]
    rcases member with rfl | rfl
    · exact .inr ⟨.value, left⟩
    · exact .inr ⟨.value, right⟩
  case tuple left right =>
    obtain ⟨leftInfix, rightInfix⟩ := infix_pair _ _ _ (left.tokens memoized .value)
      (right.tokens memoized .value)
    rcases member with rfl | rfl
    · exact .inr ⟨.value, leftInfix⟩
    · exact .inr ⟨.value, rightInfix⟩
  case first value => exact .inr ⟨.value, member ▸ List.infix_append _ _ _⟩
  case second value => exact .inr ⟨.value, member ▸ List.infix_append _ _ _⟩

theorem getLast?_functionTokens (parameters : List String) (body : List Token) :
    (functionTokens parameters body).getLast? = some (.sign "\x7d") :=
  List.getLast?_concat

theorem ownGrammatical_of_checked {term : Term} {stack before : List Token}
    (checked : Checked stack before (term.tokens memoized .value)) : term.OwnGrammatical := by
  cases term with
  | function parameters body =>
    rw [tokens, Position.tokens] at checked
    exact (nodup_of_checked checked).1
  | binary op lhs rhs =>
    rw [tokens, Position.tokens] at checked
    obtain ⟨left, stack, outer, right⟩ := operands_of_checked (lhs.balanced_tokens .value) checked
    constructor
    · intro isFunction
      cases lhs with
      | function parameters body =>
        rw [tokens, Position.tokens] at left
        exact left (getLast?_functionTokens _ _)
      | _ => cases isFunction
    · intro isFunction
      cases rhs with
      | function parameters body =>
        rw [tokens, Position.tokens] at right
        have noOperator := (nodup_of_checked right).2 _ rfl
        cases noOperator.symm.trans (isOperator_operatorText op)
      | _ => cases isFunction
  | _ => trivial

theorem grammatical_of_checked {term : Term} {position : Position} {stack before : List Token}
    (checked : Checked stack before (term.tokens memoized position)) : term.Grammatical := by
  induction term, position using induction_on_positions generalizing stack before with
  | value term parts =>
    refine (grammatical_iff term).mpr ⟨ownGrammatical_of_checked checked, fun part member => ?_⟩
    rcases infix_value memoized member with ⟨name, rfl⟩ | ⟨position, stretch⟩
    · exact (grammatical_iff _).mpr ⟨trivial, List.forall_mem_nil _⟩
    · obtain ⟨_, _, inside⟩ := checked_of_infix stretch checked
      exact parts part member position inside
  | ended term returns notLet inductionHypothesis =>
    rw [tokens_statement notLet] at checked
    obtain ⟨_, _, inside⟩ := checked_of_infix (infix_statementTokens returns _) checked
    exact inductionHypothesis inside
  | block name bound next returns boundHypothesis nextHypothesis =>
    rw [tokens] at checked
    obtain ⟨boundInfix, nextInfix⟩ := infix_pair _ _ _ (bound.tokens memoized .value)
      (next.tokens memoized (.statement returns))
    obtain ⟨_, _, boundChecked⟩ := checked_of_infix boundInfix checked
    obtain ⟨_, _, nextChecked⟩ := checked_of_infix nextInfix checked
    refine (grammatical_iff _).mpr ⟨trivial, ?_⟩
    simp only [parts, List.forall_mem_cons]
    exact ⟨boundHypothesis boundChecked, nextHypothesis nextChecked, List.forall_mem_nil _⟩

/-- The text of a term is a script exactly if the term is grammatical. -/
theorem isScript_translate_iff (term : Term) :
    IsScript (term.translate memoized (.statement false) ++ "\n") ↔ term.Grammatical := by
  have reads : Reads (term.translate memoized (.statement false) ++ "\n").toList
      (term.tokens memoized (.statement false)) [] := by
    have lineEnd : Reads "\n".toList [] [] := reads_of_take? 1 rfl
    have text : ReadsAs (term.translate memoized (.statement false))
        (term.tokens memoized (.statement false)) := term.readsAs_translate _
    have whole := (text "\n".toList rfl).trans lineEnd
    rwa [List.append_nil, ← String.toList_append] at whole
  constructor
  · rintro ⟨tokens, declared, otherReads, derives⟩
    obtain rfl := reads.unique otherReads
    have suits : Suits [] [] (.statements false declared) :=
      ⟨by rintro ⟨⟩, by rintro _ ⟨⟩⟩
    exact grammatical_of_checked (derives.checked suits)
  · intro grammatical
    exact ⟨_, [], reads, (grammatical.derivedAnywhere (.statement false)).ofStatement⟩

end Term

/-! ### The script of a tree -/

namespace TermTree

open Script

/-- In every state of a session the script behind the prologue is derived by the grammar exactly if,
in the program that the tree holds, no operand is a function and the parameters of each function
become different identifiers. -/
theorem emitTree_isScript_iff {term : Term} {tree : TermTree} (reached : Reached term tree)
    (purity : PurityTable) (options : Options) :
    ∃ held script body, tree.term? = some held ∧ emitTree tree purity options = .ok script ∧
      script.source = options.linkage.prologue ++ body ∧ (IsScript body ↔ held.Grammatical) := by
  obtain ⟨unfolding, unfolds, rooted, distinct⟩ := reached.unfolds
  exact ⟨unfolding.term, _, _, term?_eq_term unfolds rooted distinct,
    unfolds.emitTree_eq rooted distinct purity options, String.append_assoc,
    unfolding.term.isScript_translate_iff⟩

/-- Functions as a bound value, as a callee, as an argument and as a condition, and operands of all
other kinds. -/
def functionsInPlace : Term :=
  .letIn "apply" (.function ["f", "x"] (.call (.var "f") [.var "x"]))
    (.binary .div
      (.call (.function ["n"] (.binary .sub (.var "n") (.int (-1)))) [.int 2])
      (.ifElse (.function [] (.bool true)) (.letIn "unit" (.tuple (.int 0) (.str "")) (.var "unit"))
        (.call (.var "apply") [.function ["y"] (.first (.var "y")), .int 3])))

theorem emitTree_isScript_iff_functionsInPlace :
    ∃ script body, emitTree (ofTerm functionsInPlace) {} {} = .ok script ∧
      script.source = Linkage.inline.prologue ++ body ∧ IsScript body := by
  obtain ⟨held, script, body, readBack, emitted, spelled, legal⟩ :=
    emitTree_isScript_iff (.laidOut : Reached functionsInPlace _) {} {}
  have same : (ofTerm functionsInPlace).term? = some functionsInPlace := by rfl
  obtain rfl := Option.some.inj (same.symm.trans readBack)
  exact ⟨script, body, emitted, spelled, legal.mpr (by decide)⟩

/-- An operand that is a function. -/
def functionOperand : Term :=
  .binary .add (.function ["x"] (.var "x")) (.int 1)

/-- Two names that become one identifier. -/
def clashingParameters : Term :=
  .function ["a b", "a_b"] (.int 1)

/-- Parameters with different names are not enough: neither of these scripts is derived. -/
theorem emitTree_not_isScript :
    (∀ program ∈ [functionOperand, clashingParameters], ∀ parameters body,
      .function parameters body ∈ program.subterms → parameters.Nodup) ∧
    (∃ script, emitTree (ofTerm functionOperand) {} ⟨.require "rt", true⟩ = .ok script ∧
      script.source = (Linkage.require "rt").prologue ++
        "((x) => \x7breturn x;\x7d + 1);\n") ∧
    ¬ IsScript "((x) => \x7breturn x;\x7d + 1);\n" ∧
    (∃ script, emitTree (ofTerm clashingParameters) {} ⟨.require "rt", true⟩ = .ok script ∧
      script.source = (Linkage.require "rt").prologue ++
        "(a_b, a_b) => \x7breturn 1;\x7d;\n") ∧
    ¬ IsScript "(a_b, a_b) => \x7breturn 1;\x7d;\n" := by
  have notDerived (program : Term) {text : String} (ungrammatical : ¬ program.Grammatical)
      (spelled : text = program.translate (fun _ => false) (.statement false) ++ "\n") :
      ¬ IsScript text :=
    fun isScript => ungrammatical (program.isScript_translate_iff.mp (spelled ▸ isScript))
  refine ⟨?_, ⟨_, rfl, by decide⟩, notDerived functionOperand (by decide) (by decide),
    ⟨_, rfl, by decide⟩, notDerived clashingParameters (by decide) (by decide)⟩
  simp [functionOperand, clashingParameters, Term.subterms]

end TermTree

end TreeScript
