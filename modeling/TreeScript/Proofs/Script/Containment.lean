/-
This file shows that nothing in a program can get out of the literal or the name
it is written in. Scripts are scanned as a lexer sees them: from a quote on the
rules for string literals decide where the literal ends, and everything else
stands for itself. What is found outside of literals is then only what emission
put there, its brackets close in the order in which they were opened, and the
literals are the texts of the program and the names under which calls are
remembered, in the order of a walk that visits a term before its parts.

The state of the scan at a place in a script is the list of brackets that are to
be closed there. A construct is scanned as its fixed texts and its parts are, one
after the other, and each part leaves the brackets as it found them.
-/

import TreeScript.Proofs.Script.Scanning
import TreeScript.Proofs.Script.Translation
import Mathlib.Data.List.Forall2

namespace TreeScript

namespace Script

/-! ### Scanning -/

/-- What a script consists of: string literals and other characters. -/
inductive Piece where
  | literal (value : List Nat)
  | char (c : Char)
deriving DecidableEq

/-- The pieces of a script; there are none if a literal does not end. -/
def scan? (input : List Char) : Option (List Piece) :=
  match input with
  | [] => some []
  | c :: rest =>
    if c = '"' then
      match _closed : quoted? rest with
      | none => none
      | some (value, rest) => (scan? rest).map (.literal value :: ·)
    else (scan? rest).map (.char c :: ·)
termination_by input.length
decreasing_by
  · exact Nat.lt_succ_of_lt (length_of_quoted? ‹_›)
  · exact Nat.lt_succ_self _

/-- The characters that stand outside of literals, except for the line end behind a program. -/
def isScriptChar (c : Char) : Bool :=
  c.isAlphanum || c ∈ " _$.,;=<>!+-*/%&|()[]\x7b\x7d".toList

/-- The brackets that open, each with the one that closes it. -/
def brackets : List (Char × Char) :=
  [('(', ')'), ('[', ']'), ('\x7b', '\x7d')]

namespace Piece

def value? : Piece → Option (List Nat)
  | literal value => some value
  | char _ => none

/-- The brackets to be closed behind a piece, the next one first. A bracket that closes has to be
the next one. -/
def nest? (pending : List Char) : Piece → Option (List Char)
  | literal _ => some pending
  | char c =>
    match brackets.lookup c with
    | some closing => some (closing :: pending)
    | none =>
      if c ∈ brackets.map Prod.snd then
        if pending.head? = some c then some pending.tail else none
      else some pending

end Piece

/-- Brackets are closed in the order in which they were opened, and none is left open. -/
def Nested (pieces : List Piece) : Prop :=
  pieces.foldlM Piece.nest? [] = some []

/-! ### Scanned texts -/

/-- A text is scanned, whatever follows it, as pieces that are allowed in scripts, change the
brackets to be closed as given, and have the given texts as their literals. -/
def Scans (text : String) (pending pending' : List Char) (texts : List String) : Prop :=
  ∃ pieces, (∀ rest, scan? (text.toList ++ rest) = (scan? rest).map (pieces ++ ·)) ∧
    (∀ c, .char c ∈ pieces → isScriptChar c = true) ∧
    pieces.foldlM Piece.nest? pending = some pending' ∧
    pieces.filterMap Piece.value? = texts.map units

/-- A text leaves the brackets as it finds them. -/
def Contained (text : String) (texts : List String) : Prop :=
  ∀ pending, Scans text pending pending texts

theorem Scans.append {text other : String} {first second third : List Char}
    {texts others : List String} (scans : Scans text first second texts)
    (otherScans : Scans other second third others) :
    Scans (text ++ other) first third (texts ++ others) := by
  obtain ⟨pieces, scanned, chars, nested, values⟩ := scans
  obtain ⟨more, scannedMore, moreChars, nestedMore, moreValues⟩ := otherScans
  refine ⟨pieces ++ more, fun rest => ?_, fun c member => ?_, ?_, ?_⟩
  · rw [String.toList_append, List.append_assoc, scanned, scannedMore, Option.map_map]
    congr 1
    funext others
    exact (List.append_assoc pieces more others).symm
  · exact (List.mem_append.mp member).elim (chars c) (moreChars c)
  · rw [List.foldlM_append, nested]
    exact nestedMore
  · rw [List.filterMap_append, values, moreValues, List.map_append]

/-- A text without a quote is scanned character by character. -/
theorem scan?_append_of_chars {chars : List Char} (noQuote : ∀ c ∈ chars, c ≠ '"')
    (rest : List Char) : scan? (chars ++ rest) = (scan? rest).map (chars.map .char ++ ·) := by
  induction chars with
  | nil =>
    show scan? rest = (scan? rest).map id
    rw [Option.map_id, id]
  | cons c chars inductionHypothesis =>
    rw [List.cons_append, scan?, if_neg (noQuote c List.mem_cons_self),
      inductionHypothesis fun c member => noQuote c (List.mem_cons_of_mem _ member), Option.map_map]
    rfl

/-- What a character outside of literals does to the brackets to be closed, if it may stand in a
script. -/
def nestChar? (pending : List Char) (c : Char) : Option (List Char) :=
  if isScriptChar c then Piece.nest? pending (.char c) else none

theorem nest?_of_nestChar? {chars pending pending' : List Char}
    (nested : chars.foldlM nestChar? pending = some pending') :
    (∀ c ∈ chars, isScriptChar c = true) ∧
      (chars.map Piece.char).foldlM Piece.nest? pending = some pending' := by
  induction chars generalizing pending with
  | nil => exact ⟨List.forall_mem_nil _, nested⟩
  | cons c chars inductionHypothesis =>
    rw [List.foldlM_cons, nestChar?] at nested
    split at nested
    next allowed =>
      obtain ⟨inside, first, nested⟩ := Option.bind_eq_some_iff.mp nested
      obtain ⟨others, rest⟩ := inductionHypothesis nested
      rw [List.map_cons, List.foldlM_cons, first]
      exact ⟨List.forall_mem_cons.mpr ⟨allowed, others⟩, rest⟩
    next => cases nested

/-- A text that emission puts into scripts. -/
theorem scans_fixed {text : String} {pending pending' : List Char}
    (nested : text.toList.foldlM nestChar? pending = some pending') :
    Scans text pending pending' [] := by
  obtain ⟨allowed, nested⟩ := nest?_of_nestChar? nested
  refine ⟨text.toList.map .char, scan?_append_of_chars ?_, fun c member => ?_, nested, ?_⟩
  · rintro c member rfl
    exact absurd (allowed _ member) (by decide)
  · obtain ⟨d, member, same⟩ := List.mem_map.mp member
    cases same
    exact allowed c member
  · rw [List.filterMap_map]
    exact List.filterMap_eq_nil_iff.mpr fun c _ => rfl

/-- The characters of names and integers. -/
def isAtomChar (c : Char) : Bool :=
  isIdentifierChar c || c = '-'

theorem isScriptChar_of_isAtomChar {c : Char} (belongs : isAtomChar c = true) :
    isScriptChar c = true := by
  simp only [isAtomChar, isIdentifierChar, Bool.or_eq_true, decide_eq_true_eq] at belongs
  rcases belongs with ((rfl | rfl) | char) | rfl
  · decide
  · decide
  · rw [isScriptChar, char, Bool.true_or]
  · decide

theorem nest?_of_isAtomChar {c : Char} (belongs : isAtomChar c = true) (pending : List Char) :
    Piece.nest? pending (.char c) = some pending := by
  have noBracket {pair : Char × Char} (member : pair ∈ brackets) : c ≠ pair.1 ∧ c ≠ pair.2 := by
    have apart : brackets.all (fun pair => !isAtomChar pair.1 && !isAtomChar pair.2) = true := by
      decide
    have differs := List.all_eq_true.mp apart pair member
    constructor
    all_goals
      rintro rfl
      simp [belongs] at differs
  rw [Piece.nest?,
    List.lookup_eq_none_iff.mpr fun pair member => bne_iff_ne.mpr (noBracket member).1]
  refine if_neg fun member => ?_
  obtain ⟨pair, member, same⟩ := List.mem_map.mp member
  exact (noBracket member).2 same.symm

theorem contained_of_isAtomChar {text : String}
    (belongs : ∀ c ∈ text.toList, isAtomChar c = true) : Contained text [] := by
  intro pending
  refine scans_fixed ?_
  revert belongs
  induction text.toList with
  | nil => exact fun _ => rfl
  | cons c cs inductionHypothesis =>
    intro belongs
    have own := belongs c List.mem_cons_self
    rw [List.foldlM_cons, nestChar?, if_pos (isScriptChar_of_isAtomChar own),
      nest?_of_isAtomChar own]
    exact inductionHypothesis fun d member => belongs d (List.mem_cons_of_mem _ member)

theorem contained_identifier (name : String) : Contained (identifier name) [] :=
  contained_of_isAtomChar fun c member => by
    rw [isAtomChar, (isIdentifier_identifier name).chars c member, Bool.true_or]

theorem contained_toString (number : Int) : Contained (toString number) [] := by
  have digits {count : Nat} {c : Char} (member : c ∈ Nat.toDigits 10 count) :
      isAtomChar c = true := by
    have digit := Nat.isDigit_of_mem_toDigits (by decide) (by decide) member
    simp [isAtomChar, isIdentifierChar, Char.isAlphanum, digit]
  refine contained_of_isAtomChar fun c member => ?_
  by_cases nonnegative : 0 ≤ number
  · rw [Reader.toList_toString_of_nonneg nonnegative] at member
    exact digits member
  · rw [Reader.toList_toString_of_neg nonnegative] at member
    obtain rfl | member := List.mem_cons.mp member
    · rfl
    · exact digits member

theorem contained_literal (text : String) : Contained (literal text) [text] := by
  intro pending
  refine ⟨[.literal (units text)], fun rest => ?_, fun c member => ?_, rfl, rfl⟩
  · have lexed := stringLiteral?_literal text rest
    rw [literal, String.toList_ofList, List.cons_append] at lexed ⊢
    rw [stringLiteral?] at lexed
    rw [scan?, if_pos rfl]
    split
    next unclosed => cases unclosed.symm.trans lexed
    next value others closed =>
      cases closed.symm.trans lexed
      rfl
  · cases List.mem_singleton.mp member

/-! ### Constructs -/

section Constructs

variable {text value next condition consequent alternative : String}
variable {texts values nexts conditions consequents alternatives : List String}

theorem Scans.part {pending pending' : List Char} (scans : Scans text pending pending' texts)
    (contained : Contained next nexts) : Scans (text ++ next) pending pending' (texts ++ nexts) :=
  scans.append (contained pending')

theorem Scans.word {pending pending' : List Char} (scans : Scans text pending pending' texts)
    (contained : Contained next []) : Scans (text ++ next) pending pending' texts := by
  have whole := scans.part contained
  rwa [List.append_nil] at whole

theorem Scans.fixed {pending pending' pending'' : List Char}
    (scans : Scans text pending pending' texts)
    (nested : next.toList.foldlM nestChar? pending' = some pending'') :
    Scans (text ++ next) pending pending'' texts := by
  have whole := scans.append (scans_fixed nested)
  rwa [List.append_nil] at whole

theorem contained_intercalate {entries : List String} {lists : List (List String)}
    (contained : List.Forall₂ Contained entries lists) :
    Contained (", ".intercalate entries) lists.flatten := by
  induction contained with
  | nil =>
    rw [String.intercalate_nil]
    exact fun pending => scans_fixed rfl
  | @cons entry own entries lists first others inductionHypothesis =>
    cases others with
    | nil =>
      rw [String.intercalate_singleton, List.flatten_singleton]
      exact first
    | cons =>
      rw [String.intercalate_cons_cons, List.flatten_cons]
      exact fun pending => ((first pending).fixed rfl).part inductionHypothesis

theorem contained_callText {function : String} {own : List String} {arguments : List String}
    {lists : List (List String)} (functions : Contained function own)
    (contained : List.Forall₂ Contained arguments lists) :
    Contained (callText function arguments) (own ++ lists.flatten) := by
  intro pending
  exact (((functions pending).fixed rfl).part (contained_intercalate contained)).fixed rfl

theorem contained_blockText (name : String) (valueContained : Contained value values)
    (nextContained : Contained next nexts) :
    Contained (blockText (identifier name) value next) (values ++ nexts) := by
  intro pending
  have bound : Scans ("\x7blet " ++ identifier name ++ " = ") pending ('\x7d' :: pending) [] :=
    ((scans_fixed rfl).word (contained_identifier name)).fixed rfl
  exact (((bound.part valueContained).fixed rfl).part nextContained).fixed rfl

theorem contained_thunkText (contained : Contained text texts) :
    Contained (thunkText text) texts := by
  intro pending
  have opened : Scans "() => \x7b" pending ('\x7d' :: pending) [] := scans_fixed rfl
  exact (opened.part contained).fixed rfl

theorem contained_functionText (parameters : List String) (contained : Contained text texts) :
    Contained (functionText (parameters.map identifier) text) texts := by
  intro pending
  have names : Contained (", ".intercalate (parameters.map identifier)) [] := by
    have listed : List.Forall₂ Contained (parameters.map identifier)
        (parameters.map fun _ => []) := by
      rw [List.forall₂_map_left_iff, List.forall₂_map_right_iff, List.forall₂_same]
      exact fun name _ => contained_identifier name
    have joined := contained_intercalate listed
    rwa [← List.flatMap_def, List.flatMap_eq_nil_iff.mpr fun _ _ => rfl] at joined
  have opened : Scans "(" pending (')' :: pending) [] := scans_fixed rfl
  exact (((opened.word names).fixed rfl).part contained).fixed rfl

theorem contained_conditionalText (conditionContained : Contained condition conditions)
    (consequentContained : Contained consequent consequents)
    (alternativeContained : Contained alternative alternatives) :
    Contained (conditionalText condition consequent alternative)
      (conditions ++ (consequents ++ alternatives)) := by
  have helper : Contained Helper.executeIf.qualified [] :=
    fun pending => scans_fixed rfl
  have arrow : Contained ("() => " ++ condition) conditions := fun pending =>
    Scans.part (scans_fixed rfl) conditionContained
  have conditional := contained_callText helper (.cons arrow (.cons
    (contained_thunkText consequentContained) (.cons (contained_thunkText alternativeContained)
      .nil)))
  simp only [List.flatten_cons, List.flatten_nil, List.append_nil] at conditional
  exact conditional

theorem contained_operatorText (op : BinaryOp) : Contained (operatorText op) [] := by
  cases op
  all_goals exact fun pending => scans_fixed rfl

theorem contained_binaryText (op : BinaryOp) (contained : Contained text texts)
    (nextContained : Contained next nexts) :
    Contained (binaryText op text next) (texts ++ nexts) := by
  intro pending
  unfold binaryText
  split
  case h_1 =>
    have opened : Scans "Math.trunc(" pending (')' :: pending) [] := scans_fixed rfl
    exact (((opened.part contained).fixed rfl).part nextContained).fixed rfl
  case h_2 =>
    have opened : Scans "(" pending (')' :: pending) [] := scans_fixed rfl
    have spaced : Scans ("(" ++ text ++ " ") pending (')' :: pending) texts :=
      (opened.part contained).fixed rfl
    have signed := spaced.word (contained_operatorText op)
    exact ((signed.fixed rfl).part nextContained).fixed rfl

theorem contained_statementText (returns : Bool) (contained : Contained text texts) :
    Contained (statementText returns text) texts := by
  intro pending
  cases returns with
  | true =>
    have returned : Scans "return " pending pending [] := scans_fixed rfl
    exact (returned.part contained).fixed rfl
  | false => exact (contained pending).fixed rfl

end Constructs

end Script

/-! ### The literals of a term -/

namespace Term

/-- The text that a term puts into a literal of its own. -/
def ownLiteral? (memoized : String → Bool) : Term → Option String
  | str value => some value
  | call callee _ => callee.varName?.filter memoized
  | _ => none

/-- The texts in the literals of a term. -/
def literals (memoized : String → Bool) (term : Term) : List String :=
  term.subterms.filterMap (ownLiteral? memoized)

theorem literals_eq (memoized : String → Bool) (term : Term) :
    term.literals memoized =
      (term.ownLiteral? memoized).toList ++ term.parts.flatMap (literals memoized) := by
  rw [literals, subterms_eq_cons, List.filterMap_cons, List.filterMap_flatMap]
  cases term.ownLiteral? memoized <;> rfl

open Script

/-- A term is contained wherever it stands. -/
def ContainedAnywhere (memoized : String → Bool) (term : Term) : Prop :=
  ∀ position, Contained (term.translate memoized position) (term.literals memoized)

variable {memoized : String → Bool}

theorem contained_call {callee : Term} {arguments : List Term}
    (callees : callee.ContainedAnywhere memoized)
    (listed : ∀ argument ∈ arguments, argument.ContainedAnywhere memoized) :
    Contained ((call callee arguments).translate memoized .value)
      ((call callee arguments).literals memoized) := by
  have values : List.Forall₂ Contained (arguments.map (translate memoized .value))
      (arguments.map (literals memoized)) := by
    rw [List.forall₂_map_left_iff, List.forall₂_map_right_iff, List.forall₂_same]
    exact fun argument member => listed argument member .value
  rw [translate, translateAll_eq_map, literals_eq, ownLiteral?, parts, List.flatMap_cons,
    List.flatMap_def]
  cases isVar : callee.varName? with
  | none =>
    have function : Contained ("(" ++ callee.translate memoized .value ++ ")") _ :=
      fun pending => ((scans_fixed rfl).part (callees .value)).fixed rfl
    exact contained_callText function values
  | some name =>
    obtain rfl := eq_var_of_varName? isVar
    have noLiterals : (var name).literals memoized = [] := rfl
    rw [noLiterals, List.nil_append, Option.filter_some]
    dsimp only [Position.text]
    split
    case isTrue =>
      have helper : Contained Helper.memoize.qualified [] :=
        fun pending => scans_fixed rfl
      have remembered := contained_callText helper
        (.cons (contained_identifier name) (.cons (contained_literal name) values))
      exact remembered
    case isFalse => exact contained_callText (contained_identifier name) values

theorem contained_value (term : Term)
    (parts : ∀ part ∈ term.parts, part.ContainedAnywhere memoized) :
    Contained (term.translate memoized .value) (term.literals memoized) := by
  rw [literals_eq]
  cases term
  case call callee arguments =>
    rw [← literals_eq]
    exact contained_call (parts callee List.mem_cons_self)
      fun argument member => parts argument (List.mem_cons_of_mem _ member)
  all_goals
    simp only [Term.parts, List.forall_mem_cons, List.not_mem_nil, false_implies, implies_true,
      and_true] at parts
    simp only [translate, ownLiteral?, Term.parts, List.flatMap_cons, List.flatMap_nil,
      List.append_nil, Option.toList_none, List.nil_append, Position.text]
  case letIn name value next =>
    intro pending
    have opened : Scans "(() => " pending (')' :: pending) [] := scans_fixed rfl
    have block := contained_blockText name (parts.1 .value) (parts.2 (.statement true))
    exact (opened.part block).fixed rfl
  case function parameters body =>
    exact contained_functionText parameters (parts (.statement true))
  case ifElse condition consequent alternative =>
    exact contained_conditionalText (parts.1 .value) (parts.2.1 (.statement true))
      (parts.2.2 (.statement true))
  case print value =>
    have helper : Contained Helper.print.qualified [] := fun pending => scans_fixed rfl
    have printed := contained_callText helper (.cons (parts .value) .nil)
    rwa [List.flatten_singleton] at printed
  case var name => exact contained_identifier name
  case int value => exact contained_toString value.toInt
  case str value => exact contained_literal value
  case bool value => cases value <;> exact fun pending => scans_fixed rfl
  case binary op lhs rhs => exact contained_binaryText op (parts.1 .value) (parts.2 .value)
  case tuple left right =>
    intro pending
    have opened : Scans "[" pending (']' :: pending) [] := scans_fixed rfl
    exact (((opened.part (parts.1 .value)).fixed rfl).part (parts.2 .value)).fixed rfl
  case first value =>
    intro pending
    have opened : Scans "(" pending (')' :: pending) [] := scans_fixed rfl
    exact (opened.part (parts .value)).fixed rfl
  case second value =>
    intro pending
    have opened : Scans "(" pending (')' :: pending) [] := scans_fixed rfl
    exact (opened.part (parts .value)).fixed rfl

/-- Every term is contained wherever it stands. -/
theorem containedAnywhere (term : Term) : term.ContainedAnywhere memoized := by
  intro position
  induction term, position using induction_on_positions with
  | value term parts => exact contained_value term parts
  | ended term returns notLet contained =>
    rw [translate_statement notLet]
    exact contained_statementText returns contained
  | block name bound next returns boundContained nextContained =>
    rw [literals_eq]
    simp only [translate, ownLiteral?, parts, List.flatMap_cons, List.flatMap_nil,
      List.append_nil, Option.toList_none, List.nil_append]
    exact contained_blockText name boundContained nextContained

end Term

/-! ### The literals of a tree -/

namespace TermTree

open Script

variable {tree : TermTree} {unfolding : Unfolding}

/-- The text that the node at an id puts into a literal of its own: that of a string, or the name
of the callee of a call that is remembered. -/
def literalAt? (tree : TermTree) (memoized : String → Bool) (id : TermId) : Option String :=
  match tree.get? id with
  | some (.str value) => some value
  | some (.call callee _) => ((tree.get? callee).bind Node.varName?).filter memoized
  | _ => none

theorem Unfolds.literalAt?_eq (unfolds : tree.Unfolds unfolding) (memoized : String → Bool) :
    tree.literalAt? memoized unfolding.id = unfolding.term.ownLiteral? memoized := by
  obtain @⟨id, node, parts, held, linked, below⟩ := unfolds
  have fits : node.Fits parts := Node.fits_of_length (by rw [linked, List.length_map])
  rw [literalAt?, Unfolding.id_mk, held, Unfolding.term_mk]
  cases fits
  case call callee arguments calleePart argumentParts _ =>
    have calleeUnfolds := below calleePart List.mem_cons_self
    obtain rfl : callee = calleePart.id := (List.cons.inj linked).1
    show ((tree.get? calleePart.id).bind Node.varName?).filter memoized =
      calleePart.term.varName?.filter memoized
    rw [calleeUnfolds.get?, Option.bind_some, calleeUnfolds.varName?_term]
  all_goals rfl

/-- Whatever a program holds, the script behind its prologue consists of string literals and of
characters that belong to scripts, up to the line end behind it. The brackets outside of literals
are nested and all closed, and the values of the literals are the strings of the program and the
names of its remembered calls, each before those in the parts of its term. -/
theorem emitTree_contained {term : Term} (reached : Reached term tree) (purity : PurityTable)
    (options : Options) :
    ∃ script body pieces, emitTree tree purity options = .ok script ∧
      script.source = options.linkage.prologue ++ body ∧
      scan? body.toList = some (pieces ++ [.char '\n']) ∧
      (∀ c, .char c ∈ pieces → isScriptChar c = true) ∧ Nested pieces ∧
      pieces.filterMap Piece.value? = (tree.reachable.filterMap
        (tree.literalAt? fun name => options.memoize && purity.isPure name)).map units := by
  obtain ⟨unfolding, unfolds, rooted, distinct⟩ := reached.unfolds
  let memoized := fun name => options.memoize && purity.isPure name
  obtain ⟨pieces, scanned, chars, nested, values⟩ :=
    (unfolding.term.containedAnywhere : unfolding.term.ContainedAnywhere memoized)
      (.statement false) []
  refine ⟨_, unfolding.term.translate memoized (.statement false) ++ "\n", pieces,
    unfolds.emitTree_eq rooted distinct purity options, String.append_assoc, ?_, chars, nested, ?_⟩
  · have lineEnd : scan? ("\n".toList ++ []) = (scan? []).map ("\n".toList.map .char ++ ·) :=
      scan?_append_of_chars (by simp) []
    rw [List.append_nil, scan?] at lineEnd
    rw [String.toList_append, scanned, lineEnd]
    rfl
  · rw [values, reachable_eq_ids unfolds rooted distinct,
      unfolds.filterMap_ids fun inner innerUnfolds => innerUnfolds.literalAt?_eq memoized]
    rfl

/-- Texts that look like the end of a literal, a call or a line. -/
def quotedReply : Term :=
  .letIn "reply" (.function ["to"] (.str "\"); \\ [")) (.call (.var "reply") [.str "\n"])

theorem emitTree_contained_quotedReply :
    ∃ script body pieces,
      emitTree (ofTerm quotedReply) (ofTerm quotedReply).purity {} = .ok script ∧
      script.source = Linkage.inline.prologue ++ body ∧
      scan? body.toList = some (pieces ++ [.char '\n']) ∧
      (∀ c, .char c ∈ pieces → isScriptChar c = true) ∧ Nested pieces ∧
      pieces.filterMap Piece.value? = ["\"); \\ [", "reply", "\n"].map units := by
  have found : (ofTerm quotedReply).reachable.filterMap ((ofTerm quotedReply).literalAt?
      fun name => true && (ofTerm quotedReply).purity.isPure name) =
        ["\"); \\ [", "reply", "\n"] := by decide
  rw [← found]
  exact emitTree_contained .laidOut _ _

end TermTree

end TreeScript
