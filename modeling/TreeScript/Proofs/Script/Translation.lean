/-
This file gives the script of a program without the arena. The translation is a
plain recursion on terms: where a term stands says whether it is a value or a
statement, and a statement is told whether to return. That is known on the way
down. Emission works differently: it keeps a set of ids to be returned, adds the
ends of functions, branches and chains of bindings to it while it goes, and asks
the set only after the text of a statement has been put together.

Both give the same text. What holds between them is said about one run at a time:
if, of the ids it may touch, exactly the wanted ones are recorded when it starts,
it succeeds with the expected result and leaves all other ids as they were. Ids in
different parts of an unfolding are different, so runs one after the other do not
disturb each other, and an id is recorded before the part that holds it is emitted.
-/

import TreeScript.Proofs.Arena.Session
import TreeScript.Script.Emission
import Mathlib.Data.List.Nodup

namespace TreeScript

open Script

/-! ### The translation of terms -/

/-- Where a term stands: its value is used, or it is a statement that may have to return it. -/
inductive Position where
  | value
  | statement (returns : Bool)

/-- The text of an expression at a position. -/
def Position.text : Position → String → String
  | value, expression => expression
  | statement returns, expression => statementText returns expression

/-- The name that a variable reads. -/
def Node.varName? : Node → Option String
  | var name => some name
  | _ => none

namespace Term

def varName? : Term → Option String
  | var name => some name
  | _ => none

mutual

/-- The text of a term, where calls of the memoized names go through the memo helper. -/
def translate (memoized : String → Bool) : Position → Term → String
  | .value, letIn name value next =>
    "(() => " ++ blockText (identifier name) (value.translate memoized .value)
      (next.translate memoized (.statement true)) ++ ")()"
  | .statement returns, letIn name value next =>
    blockText (identifier name) (value.translate memoized .value)
      (next.translate memoized (.statement returns))
  | position, function parameters body =>
    position.text (functionText (parameters.map identifier)
      (body.translate memoized (.statement true)))
  | position, ifElse condition consequent alternative =>
    position.text (conditionalText (condition.translate memoized .value)
      (consequent.translate memoized (.statement true))
      (alternative.translate memoized (.statement true)))
  | position, print value =>
    position.text (callText Helper.print.qualified [value.translate memoized .value])
  | position, call callee arguments =>
    position.text <| match callee.varName? with
      | some name =>
        if memoized name then
          callText Helper.memoize.qualified
            (identifier name :: literal name :: translateAll memoized arguments)
        else callText (identifier name) (translateAll memoized arguments)
      | none =>
        callText ("(" ++ callee.translate memoized .value ++ ")") (translateAll memoized arguments)
  | position, var name => position.text (identifier name)
  | position, int value => position.text (toString value.toInt)
  | position, str value => position.text (literal value)
  | position, bool value => position.text (toString value)
  | position, binary op lhs rhs =>
    position.text (binaryText op (lhs.translate memoized .value) (rhs.translate memoized .value))
  | position, tuple left right =>
    position.text ("[" ++ left.translate memoized .value ++ ", " ++
      right.translate memoized .value ++ "]")
  | position, first value => position.text ("(" ++ value.translate memoized .value ++ ")[0]")
  | position, second value => position.text ("(" ++ value.translate memoized .value ++ ")[1]")

/-- The texts of several terms whose values are used. -/
def translateAll (memoized : String → Bool) : List Term → List String
  | [] => []
  | term :: terms => term.translate memoized .value :: translateAll memoized terms

end

mutual

/-- The number of calls of memoized names. -/
def memoizedCalls (memoized : String → Bool) : Term → Nat
  | letIn _ value next => value.memoizedCalls memoized + next.memoizedCalls memoized
  | function _ body => body.memoizedCalls memoized
  | ifElse condition consequent alternative =>
    condition.memoizedCalls memoized + (consequent.memoizedCalls memoized +
      alternative.memoizedCalls memoized)
  | print value => value.memoizedCalls memoized
  | call callee arguments =>
    memoizedCallsAll memoized arguments + match callee.varName? with
      | some name => if memoized name then 1 else 0
      | none => callee.memoizedCalls memoized
  | var _ => 0
  | int _ => 0
  | str _ => 0
  | bool _ => 0
  | binary _ lhs rhs => lhs.memoizedCalls memoized + rhs.memoizedCalls memoized
  | tuple left right => left.memoizedCalls memoized + right.memoizedCalls memoized
  | first value => value.memoizedCalls memoized
  | second value => value.memoizedCalls memoized

def memoizedCallsAll (memoized : String → Bool) : List Term → Nat
  | [] => 0
  | term :: terms => term.memoizedCalls memoized + memoizedCallsAll memoized terms

end

end Term

theorem Term.translateAll_eq_map (memoized : String → Bool) (terms : List Term) :
    translateAll memoized terms = terms.map (translate memoized .value) := by
  induction terms with
  | nil => rw [translateAll, List.map_nil]
  | cons term terms inductionHypothesis => rw [translateAll, inductionHypothesis, List.map_cons]

theorem Term.eq_var_of_varName? {term : Term} {name : String}
    (isVar : term.varName? = some name) : term = .var name := by
  cases term with
  | var => exact congrArg var (Option.some.inj isVar)
  | _ => cases isVar

/-- Only bindings look different as a statement. -/
theorem Term.translate_statement {memoized : String → Bool} {term : Term} {returns : Bool}
    (notLet : term.kind ≠ .letIn) :
    term.translate memoized (.statement returns) =
      statementText returns (term.translate memoized .value) := by
  cases term with
  | letIn => exact absurd rfl notLet
  | _ => simp only [translate, Position.text]

/-- What holds of a value if it holds of the parts, of a statement if it holds of its value, and of
a block if it holds of what is bound and what follows, holds of every term wherever it stands. -/
theorem Term.induction_on_positions {motive : Term → Position → Prop}
    (value : ∀ term : Term, (∀ part ∈ term.parts, ∀ position, motive part position) →
      motive term .value)
    (ended : ∀ (term : Term) (returns : Bool), term.kind ≠ .letIn → motive term .value →
      motive term (.statement returns))
    (block : ∀ (name : String) (bound next : Term) (returns : Bool), motive bound .value →
      motive next (.statement returns) → motive (.letIn name bound next) (.statement returns))
    (term : Term) (position : Position) : motive term position := by
  induction term using induction_on_parts generalizing position with
  | step term parts =>
    cases position with
    | value => exact value term parts
    | statement returns =>
      by_cases isLet : term.kind = .letIn
      · cases term with
        | letIn name bound next =>
          exact block name bound next returns (parts bound (by simp [Term.parts]) .value)
            (parts next (by simp [Term.parts]) (.statement returns))
        | _ => cases isLet
      · exact ended term returns isLet (value term parts)

/-! ### Tails -/

/-- The id at the end of a chain of bindings. -/
def Unfolding.tail : Unfolding → TermId
  | mk _ (.letIn ..) [_, next] => next.tail
  | mk id _ _ => id

theorem Unfolding.tail_eq_id {id : TermId} {node : Node} {parts : List Unfolding}
    (notLet : node.kind ≠ .letIn) : (mk id node parts).tail = id := by
  cases node with
  | letIn => exact absurd rfl notLet
  | _ => rw [tail]; simp

namespace TermTree

variable {tree : TermTree} {unfolding : Unfolding}

theorem Unfolds.tail_mem_ids (unfolds : tree.Unfolds unfolding) :
    unfolding.tail ∈ unfolding.ids := by
  induction unfolds with
  | @intro id node parts held linked below inductionHypothesis =>
    cases node with
    | letIn name value next =>
      obtain ⟨left, right, rfl, -, -⟩ := Unfolding.eq_pair linked
      rw [Unfolding.tail]
      exact (Unfolding.ids_part_sublist (by simp)).subset (inductionHypothesis right (by simp))
    | _ => simp [Unfolding.tail]

/-- Following the bindings finds the end of the chain. -/
theorem Unfolds.tailFrom_eq_tail (unfolds : tree.Unfolds unfolding) {bindings : Nat}
    (enough : unfolding.ids.length ≤ bindings) :
    tailFrom tree bindings unfolding.id = .ok unfolding.tail := by
  induction unfolds generalizing bindings with
  | @intro id node parts held linked below inductionHypothesis =>
    obtain _ | bindings := bindings
    · simp at enough
    rw [Unfolding.id_mk, tailFrom, held]
    cases node with
    | letIn name value next =>
      obtain ⟨left, right, rfl, -, rfl⟩ := Unfolding.eq_pair linked
      have member : right ∈ [left, right] := by simp
      rw [Unfolding.tail]
      exact inductionHypothesis right member
        (Nat.le_of_lt_succ (Nat.lt_of_lt_of_le (Unfolding.length_ids_part_lt member) enough))
    | _ => simp [Unfolding.tail]

end TermTree

/-! ### Runs of an emission -/

theorem Script.TailPositions.mem_insert {tails : TailPositions} {id other : TermId} :
    other ∈ (tails.insert id).ids ↔ other = id ∨ other ∈ tails.ids := by
  rw [insert]
  split
  case isTrue present =>
    rw [isReturning, List.contains_iff_mem] at present
    exact ⟨Or.inr, fun either => either.elim (fun same => same ▸ present) fun member => member⟩
  case isFalse => exact List.mem_cons

/-- A run that starts with exactly the wanted ids recorded among the given ones succeeds with the
result, counts some memoized calls, and records or forgets no other id. -/
def Emits {α : Type} (ids wanted : List TermId) (run : Emission α) (result : α) (calls : Nat) :
    Prop :=
  ∀ progress : Progress, (∀ id ∈ ids, id ∈ progress.tails.ids ↔ id ∈ wanted) →
    ∃ tails, run progress = .ok (result, ⟨tails, progress.memoizedCalls + calls⟩) ∧
      ∀ id ∉ ids, id ∈ tails.ids ↔ id ∈ progress.tails.ids

theorem Emission.bind_of_ok {α β : Type} {run : Emission α} {next : α → Emission β} {result : α}
    {progress later : Progress} (ran : run progress = .ok (result, later)) :
    (run >>= next) progress = next result later := by
  show (run progress >>= fun step => next step.1 step.2) = _
  rw [ran]
  rfl

theorem TermTree.Unfolds.tag_eq {context : Context} {unfolding : Unfolding}
    (unfolds : context.tree.Unfolds unfolding) (distinct : unfolding.ids.Nodup)
    (progress : Progress) :
    context.tag unfolding.id progress =
      .ok ((), { progress with tails := progress.tails.insert unfolding.tail }) := by
  have enough := Nat.le_succ_of_le (unfolds.length_ids_le distinct)
  have found : (progress.tails.tag context.tree unfolding.id : Emission _) progress =
      .ok ((unfolding.tail, progress.tails.insert unfolding.tail), progress) := by
    rw [TailPositions.tag, Script.tail, unfolds.tailFrom_eq_tail enough]
    rfl
  have read : (get : Emission Progress) progress = .ok (progress, progress) := rfl
  rw [Context.tag, Emission.bind_of_ok read, Emission.bind_of_ok found]
  rfl

namespace Emits

open Emission

variable {α β : Type} {ids more wanted others : List TermId} {run : Emission α}
  {next : α → Emission β} {result : α} {final : β} {calls further : Nat}

theorem pure (result : α) : Emits ids wanted (pure result) result 0 :=
  fun progress _ => ⟨progress.tails, rfl, fun _ _ => Iff.rfl⟩

theorem bind (first : Emits ids wanted run result calls)
    (rest : Emits more others (next result) final further) (apart : ids.Disjoint more)
    {all : List TermId} (early : ∀ id ∈ ids, id ∈ all ↔ id ∈ wanted)
    (late : ∀ id ∈ more, id ∈ all ↔ id ∈ others) :
    Emits (ids ++ more) all (run >>= next) final (calls + further) := by
  intro progress recorded
  obtain ⟨tails, ran, kept⟩ := first progress fun id member =>
    (recorded id (List.mem_append_left _ member)).trans (early id member)
  obtain ⟨finalTails, ranOn, keptOn⟩ := rest ⟨tails, progress.memoizedCalls + calls⟩
    fun id member => (kept id fun inFirst => apart inFirst member).trans
      ((recorded id (List.mem_append_right _ member)).trans (late id member))
  refine ⟨finalTails, ?_, fun id outside => ?_⟩
  · rw [bind_of_ok ran, ranOn, Nat.add_assoc]
  · rw [List.mem_append, not_or] at outside
    exact (keptOn id outside.2).trans (kept id outside.1)

theorem mono (emits : Emits ids wanted run result calls) (included : ids ⊆ more)
    (same : ∀ id ∈ ids, id ∈ others ↔ id ∈ wanted) : Emits more others run result calls := by
  intro progress recorded
  obtain ⟨tails, ran, kept⟩ := emits progress fun id member =>
    (recorded id (included member)).trans (same id member)
  exact ⟨tails, ran, fun id outside => kept id fun member => outside (included member)⟩

theorem swap (emits : Emits (ids ++ more) wanted run result calls) :
    Emits (more ++ ids) wanted run result calls :=
  emits.mono (by simp [List.subset_def, or_comm]) fun _ _ => Iff.rfl

/-- Recording the end of a chain makes it wanted in what follows. -/
theorem tag {context : Context} {id : TermId} {unfolding : Unfolding} {rest : Emission α}
    (unfolds : context.tree.Unfolds unfolding) (found : unfolding.id = id)
    (distinct : unfolding.ids.Nodup) (inside : unfolding.tail ∈ ids)
    (emits : Emits ids (unfolding.tail :: wanted) rest result calls) :
    Emits ids wanted (context.tag id >>= fun _ => rest) result calls := by
  subst found
  intro progress recorded
  have inserted (id : TermId) : id ∈ (progress.tails.insert unfolding.tail).ids ↔
      id = unfolding.tail ∨ id ∈ progress.tails.ids := TailPositions.mem_insert
  obtain ⟨tails, ran, kept⟩ := emits ⟨progress.tails.insert unfolding.tail, progress.memoizedCalls⟩
    fun id member => by rw [inserted, recorded id member, List.mem_cons]
  refine ⟨tails, ?_, fun id outside => ?_⟩
  · rw [bind_of_ok (unfolds.tag_eq distinct progress), ran]
  · rw [kept id outside, inserted]
    exact or_iff_right fun same => outside (same ▸ inside)

theorem map {γ : Type} (emits : Emits ids wanted run result calls) (text : α → γ) :
    Emits ids wanted (run >>= fun result => Pure.pure (text result)) (text result) calls := by
  intro progress recorded
  obtain ⟨tails, ran, kept⟩ := emits progress recorded
  refine ⟨tails, ?_, kept⟩
  rw [bind_of_ok ran]
  rfl

theorem countOne (text : α) :
    Emits ids wanted (do
      modify fun progress => { progress with memoizedCalls := progress.memoizedCalls + 1 }
      Pure.pure text) text 1 :=
  fun progress _ => ⟨progress.tails, rfl, fun _ _ => Iff.rfl⟩

theorem lookUp {context : Context} {id : TermId} {node : Node} {rest : Node → Emission α}
    (held : context.tree.get? id = some node) (emits : Emits ids wanted (rest node) result calls) :
    Emits ids wanted (context.node id >>= rest) result calls := by
  intro progress recorded
  have read : context.node id progress = .ok (node, progress) := by
    rw [Context.node, held]
    rfl
  rw [bind_of_ok read]
  exact emits progress recorded

/-- A statement asks whether it has to return once its expression is there. -/
theorem returning {run : Emission String} {text : String} {id : TermId}
    (emits : Emits ids [] run text calls) (outside : id ∉ ids) (returns : Bool) :
    Emits (id :: ids) (if returns then [id] else []) (do
        let text ← run
        return statementText ((← get).tails.isReturning id) text)
      (statementText returns text) calls := by
  intro progress recorded
  obtain ⟨tails, ran, kept⟩ := emits progress fun other member => by
    have apart : other ≠ id := fun same => outside (same ▸ member)
    rw [recorded other (List.mem_cons_of_mem _ member)]
    cases returns <;> simp [apart]
  have asked : tails.isReturning id = returns := by
    have still := (kept id outside).trans (recorded id List.mem_cons_self)
    cases returns <;> simpa [TailPositions.isReturning] using still
  refine ⟨tails, ?_, fun other notIn =>
    kept other fun member => notIn (List.mem_cons_of_mem _ member)⟩
  rw [bind_of_ok ran]
  show Except.ok (statementText (tails.isReturning id) text, _) = _
  rw [asked]

end Emits

/-! ### Emission of an unfolding -/

theorem TermTree.Unfolds.varName?_term {tree : TermTree} {unfolding : Unfolding}
    (unfolds : tree.Unfolds unfolding) : unfolding.term.varName? = unfolding.node.varName? := by
  obtain @⟨id, node, parts, -, linked, -⟩ := unfolds
  have fits : node.Fits parts := Node.fits_of_length (by rw [linked, List.length_map])
  rw [Unfolding.term_mk]
  cases fits <;> rfl

section Emission

variable {context : Context} {depth : Nat}

/-- Whether calls of a name go through the memo helper. -/
def Script.Context.memoized (context : Context) (name : String) : Bool :=
  context.memoize && context.purity.isPure name

/-- The id at which an unfolding has to return, if it has to. -/
def Unfolding.returned (unfolding : Unfolding) (returns : Bool) : List TermId :=
  if returns then [unfolding.tail] else []

/-- Emission of an unfolding gives the translation of its term at every position. -/
structure EmitsAt (context : Context) (depth : Nat) (unfolding : Unfolding) : Prop where
  value : Emits unfolding.ids [] (context.emit depth .expression unfolding.id)
    (unfolding.term.translate context.memoized .value)
    (unfolding.term.memoizedCalls context.memoized)
  statement (returns : Bool) : Emits unfolding.ids (unfolding.returned returns)
    (context.emit depth .statement unfolding.id)
    (unfolding.term.translate context.memoized (.statement returns))
    (unfolding.term.memoizedCalls context.memoized)

/-- Two values, one after the other. -/
theorem EmitsAt.pair {left right : Unfolding} (lefts : EmitsAt context depth left)
    (rights : EmitsAt context depth right) (apart : left.ids.Disjoint right.ids)
    (text : String → String → String) :
    Emits (left.ids ++ right.ids) [] (do
        let left ← context.emit depth .expression left.id
        let right ← context.emit depth .expression right.id
        return text left right)
      (text (left.term.translate context.memoized .value)
        (right.term.translate context.memoized .value))
      (left.term.memoizedCalls context.memoized + right.term.memoizedCalls context.memoized) :=
  lefts.value.bind (rights.value.map _) apart (fun _ _ => Iff.rfl) fun _ _ => Iff.rfl

/-- A binding and what follows it; only what follows may have to return. -/
theorem EmitsAt.block {value next : Unfolding} (values : EmitsAt context depth value)
    (nexts : EmitsAt context depth next) (apart : value.ids.Disjoint next.ids)
    (inside : next.tail ∈ next.ids) (name : String) (returns : Bool) :
    Emits (value.ids ++ next.ids) (next.returned returns)
      (Context.block (context.emit depth) name value.id next.id)
      (blockText (identifier name) (value.term.translate context.memoized .value)
        (next.term.translate context.memoized (.statement returns)))
      (value.term.memoizedCalls context.memoized + next.term.memoizedCalls context.memoized) := by
  refine values.value.bind ((nexts.statement returns).map _) apart (fun id member => ?_)
    fun _ _ => Iff.rfl
  refine iff_of_false (fun wanted => ?_) List.not_mem_nil
  rw [Unfolding.returned] at wanted
  split at wanted
  · exact apart member (List.mem_singleton.mp wanted ▸ inside)
  · exact List.not_mem_nil wanted

/-- Two statements that both return. -/
theorem EmitsAt.branches {consequent alternative : Unfolding}
    (consequents : EmitsAt context depth consequent)
    (alternatives : EmitsAt context depth alternative)
    (apart : consequent.ids.Disjoint alternative.ids) (inside : consequent.tail ∈ consequent.ids)
    (alternativeInside : alternative.tail ∈ alternative.ids) (text : String → String → String) :
    Emits (consequent.ids ++ alternative.ids) [alternative.tail, consequent.tail] (do
        let consequent ← context.emit depth .statement consequent.id
        let alternative ← context.emit depth .statement alternative.id
        return text consequent alternative)
      (text (consequent.term.translate context.memoized (.statement true))
        (alternative.term.translate context.memoized (.statement true)))
      (consequent.term.memoizedCalls context.memoized +
        alternative.term.memoizedCalls context.memoized) := by
  refine (consequents.statement true).bind ((alternatives.statement true).map _) apart
    (fun id member => ?_) fun id member => ?_
  · have elsewhere : id ≠ alternative.tail := fun same => apart member (same ▸ alternativeInside)
    simp [Unfolding.returned, elsewhere]
  · have elsewhere : id ≠ consequent.tail := fun same => apart (same ▸ inside) member
    simp [Unfolding.returned, elsewhere]

/-- The arguments of a call, from left to right. -/
theorem emits_arguments {arguments : List Unfolding}
    (each : ∀ argument ∈ arguments, EmitsAt context depth argument)
    (distinct : (arguments.flatMap Unfolding.ids).Nodup) :
    Emits (arguments.flatMap Unfolding.ids) []
      ((arguments.map Unfolding.id).mapM (context.emit depth .expression))
      (Term.translateAll context.memoized (arguments.map Unfolding.term))
      (Term.memoizedCallsAll context.memoized (arguments.map Unfolding.term)) := by
  induction arguments with
  | nil => exact .pure _
  | cons argument arguments inductionHypothesis =>
    rw [List.flatMap_cons, List.nodup_append'] at distinct
    have rest := inductionHypothesis
      (fun other member => each other (List.mem_cons_of_mem _ member)) distinct.2.1
    rw [List.map_cons, List.mapM_cons, List.flatMap_cons]
    exact (each argument List.mem_cons_self).value.bind (rest.map _) distinct.2.2
      (fun _ _ => Iff.rfl) fun _ _ => Iff.rfl

/-- A call; whether it is memoized depends on the callee alone. -/
theorem EmitsAt.call {callee : Unfolding} {arguments : List Unfolding}
    (unfolds : context.tree.Unfolds callee) (callees : EmitsAt context depth callee)
    (each : ∀ argument ∈ arguments, EmitsAt context depth argument)
    (distinct : (callee.ids ++ arguments.flatMap Unfolding.ids).Nodup) :
    Emits (callee.ids ++ arguments.flatMap Unfolding.ids) []
      (context.call (context.emit depth) callee.id (arguments.map Unfolding.id))
      (Term.translate context.memoized .value
        (.call callee.term (arguments.map Unfolding.term)))
      (Term.memoizedCalls context.memoized (.call callee.term (arguments.map Unfolding.term))) := by
  obtain ⟨-, argumentsDistinct, apart⟩ := List.nodup_append'.mp distinct
  rw [Context.call, Term.translate, Term.memoizedCalls, Position.text, unfolds.varName?_term]
  refine ((emits_arguments each argumentsDistinct).bind (.lookUp unfolds.get? ?_)
    (List.disjoint_comm.mp apart) (fun _ _ => Iff.rfl) fun _ _ => Iff.rfl).swap
  cases callee.node with
  | var name =>
    by_cases isMemoized : context.memoized name = true
    · simp only [Node.varName?, isMemoized, if_true]
      rw [Context.memoized] at isMemoized
      rw [if_pos isMemoized]
      exact .countOne _
    · simp only [Node.varName?, isMemoized]
      rw [Context.memoized] at isMemoized
      rw [if_neg isMemoized]
      exact .pure _
  | _ => exact callees.value.map _

/-- A node as an expression, once its parts are emitted as they should be. -/
theorem emits_expression {id : TermId} {node : Node} {parts : List Unfolding}
    (unfolds : context.tree.Unfolds (.mk id node parts))
    (distinct : (Unfolding.mk id node parts).ids.Nodup)
    (each : ∀ part ∈ parts, EmitsAt context depth part) :
    Emits (parts.flatMap Unfolding.ids) [] (context.expression (context.emit depth) id node)
      ((Unfolding.mk id node parts).term.translate context.memoized .value)
      ((Unfolding.mk id node parts).term.memoizedCalls context.memoized) := by
  obtain ⟨-, partsDistinct⟩ := List.nodup_cons.mp (Unfolding.ids_mk id node parts ▸ distinct)
  have linked : node.children = parts.map Unfolding.id := by
    obtain ⟨-, linked, -⟩ := unfolds
    exact linked
  have below (part : Unfolding) (member : part ∈ parts) := unfolds.part member
  have pairwise (part : Unfolding) (member : part ∈ parts) : part.ids.Nodup :=
    (Unfolding.ids_sublist_flatMap member).nodup partsDistinct
  rw [Unfolding.term_mk]
  cases node with
  | letIn name value next =>
    obtain ⟨value, next, rfl, rfl, rfl⟩ := Unfolding.eq_pair linked
    have inside := (below next (by simp)).tail_mem_ids
    simp only [List.flatMap_cons, List.flatMap_nil, List.append_nil] at partsDistinct ⊢
    simp only [Context.expression, List.map_cons, List.map_nil, Node.assemble, Term.translate,
      Term.memoizedCalls]
    have body := (each value (by simp)).block (each next (by simp))
      (List.nodup_append'.mp partsDistinct).2.2 inside name true
    refine .tag unfolds rfl distinct ?_ ((body.mono (List.Subset.refl _) ?_).map _)
    · rw [Unfolding.tail]
      exact List.mem_append_right _ inside
    · simp [Unfolding.tail, Unfolding.returned]
  | function parameters body =>
    obtain ⟨body, rfl, rfl⟩ := Unfolding.eq_single linked
    simp only [List.flatMap_cons, List.flatMap_nil, List.append_nil] at partsDistinct ⊢
    simp only [Context.expression, List.map_cons, List.map_nil, Node.assemble, Term.translate,
      Term.memoizedCalls, Position.text]
    exact .tag (below body (by simp)) rfl partsDistinct (below body (by simp)).tail_mem_ids
      (((each body (by simp)).statement true).map _)
  | ifElse condition consequent alternative =>
    obtain ⟨condition, consequent, alternative, rfl, rfl, rfl, rfl⟩ := Unfolding.eq_triple linked
    simp only [List.flatMap_cons, List.flatMap_nil, List.append_nil] at partsDistinct ⊢
    simp only [Context.expression, List.map_cons, List.map_nil, Node.assemble, Term.translate,
      Term.memoizedCalls, Position.text]
    have consequentInside := (below consequent (by simp)).tail_mem_ids
    have alternativeInside := (below alternative (by simp)).tail_mem_ids
    obtain ⟨-, branchesDistinct, apart⟩ := List.nodup_append'.mp partsDistinct
    refine .tag (below consequent (by simp)) rfl (pairwise consequent (by simp))
      (by simp [consequentInside])
      (.tag (below alternative (by simp)) rfl (pairwise alternative (by simp))
        (by simp [alternativeInside])
        ((each condition (by simp)).value.bind
          ((each consequent (by simp)).branches (each alternative (by simp))
            (List.nodup_append'.mp branchesDistinct).2.2 consequentInside alternativeInside _)
          apart (fun id member => iff_of_false ?_ List.not_mem_nil) fun _ _ => Iff.rfl))
    simp only [List.mem_cons, List.not_mem_nil, or_false]
    rintro (rfl | rfl)
    · exact apart member (List.mem_append_right _ alternativeInside)
    · exact apart member (List.mem_append_left _ consequentInside)
  | print value =>
    obtain ⟨value, rfl, rfl⟩ := Unfolding.eq_single linked
    simp only [List.flatMap_cons, List.flatMap_nil, List.append_nil]
    simp only [Context.expression, List.map_cons, List.map_nil, Node.assemble, Term.translate,
      Term.memoizedCalls, Position.text]
    exact (each value (by simp)).value.map _
  | call callee arguments =>
    obtain ⟨callee, arguments, rfl, rfl, rfl⟩ := List.map_eq_cons_iff.mp linked.symm
    rw [List.flatMap_cons] at partsDistinct ⊢
    exact (each callee (by simp)).call (below callee (by simp))
      (fun argument member => each argument (by simp [member])) partsDistinct
  | var | int | str | bool =>
    obtain rfl := List.map_eq_nil_iff.mp linked.symm
    exact .pure _
  | binary | tuple =>
    obtain ⟨left, right, rfl, rfl, rfl⟩ := Unfolding.eq_pair linked
    simp only [List.flatMap_cons, List.flatMap_nil, List.append_nil] at partsDistinct ⊢
    simp only [Context.expression, List.map_cons, List.map_nil, Node.assemble, Term.translate,
      Term.memoizedCalls, Position.text]
    exact (each left (by simp)).pair (each right (by simp))
      (List.nodup_append'.mp partsDistinct).2.2 _
  | first | second =>
    obtain ⟨value, rfl, rfl⟩ := Unfolding.eq_single linked
    simp only [List.flatMap_cons, List.flatMap_nil, List.append_nil]
    simp only [Context.expression, List.map_cons, List.map_nil, Node.assemble, Term.translate,
      Term.memoizedCalls, Position.text]
    exact (each value (by simp)).value.map _

/-- Emission gives the translation of a term, whatever the depth beyond the number of its ids. -/
theorem TermTree.Unfolds.emitsAt {unfolding : Unfolding} (unfolds : context.tree.Unfolds unfolding)
    (distinct : unfolding.ids.Nodup) (enough : unfolding.ids.length ≤ depth) :
    EmitsAt context depth unfolding := by
  induction unfolds generalizing depth with
  | @intro id node parts held linked below inductionHypothesis =>
    obtain _ | depth := depth
    · simp at enough
    have whole : context.tree.Unfolds (.mk id node parts) := .intro held linked below
    have each (part : Unfolding) (member : part ∈ parts) : EmitsAt context depth part :=
      inductionHypothesis part member ((Unfolding.ids_part_sublist member).nodup distinct)
        (Nat.le_of_lt_succ (Nat.lt_of_lt_of_le (Unfolding.length_ids_part_lt member) enough))
    have expression := emits_expression whole distinct each
    have inIds : parts.flatMap Unfolding.ids ⊆ (Unfolding.mk id node parts).ids := by
      rw [Unfolding.ids_mk]
      exact List.subset_cons_self _ _
    constructor
    · rw [Unfolding.id_mk, Context.emit]
      exact .lookUp held (expression.mono inIds fun _ _ => Iff.rfl)
    · intro returns
      rw [Unfolding.id_mk, Context.emit]
      refine .lookUp held ?_
      have fits : node.Fits parts := Node.fits_of_length (by rw [linked, List.length_map])
      rw [Unfolding.ids_mk] at distinct ⊢
      obtain ⟨outside, partsDistinct⟩ := List.nodup_cons.mp distinct
      cases fits with
      | letIn name valueId nextId value next =>
        obtain ⟨rfl, rfl⟩ : valueId = value.id ∧ nextId = next.id := by
          simpa [Node.children] using linked
        simp only [List.flatMap_cons, List.flatMap_nil, List.append_nil] at partsDistinct
        simp only [Unfolding.term_mk, List.map_cons, List.map_nil, Node.assemble, Term.translate,
          Term.memoizedCalls]
        refine ((each value (by simp)).block (each next (by simp))
          (List.nodup_append'.mp partsDistinct).2.2 (below next (by simp)).tail_mem_ids name
          returns).mono (by simp) fun _ _ => ?_
        rw [Unfolding.returned, Unfolding.returned, Unfolding.tail]
      | _ =>
        have statement := expression.returning outside returns
        rw [Unfolding.term_mk] at statement ⊢
        rw [Term.translate_statement, Unfolding.returned, Unfolding.tail_eq_id]
        · exact statement
        all_goals rintro ⟨⟩

end Emission

/-! ### The script of a tree -/

namespace TermTree

/-- Nothing is recorded when emission starts, so nothing is returned from the program itself. -/
theorem Unfolds.emitTree_eq {tree : TermTree} {unfolding : Unfolding}
    (unfolds : tree.Unfolds unfolding) (rooted : unfolding.id = tree.root)
    (distinct : unfolding.ids.Nodup) (purity : PurityTable) (options : Options) :
    emitTree tree purity options =
      .ok ⟨options.linkage.prologue ++ unfolding.term.translate
          (fun name => options.memoize && purity.isPure name) (.statement false) ++ "\n",
        unfolding.term.memoizedCalls fun name => options.memoize && purity.isPure name⟩ := by
  let context : Context := ⟨tree, purity, options.memoize⟩
  have emits : EmitsAt context (tree.size + 1) unfolding :=
    unfolds.emitsAt distinct (Nat.le_succ_of_le (unfolds.length_ids_le distinct))
  obtain ⟨tails, ran, -⟩ := emits.statement false {} (by simp [Unfolding.returned])
  rw [rooted, Nat.zero_add] at ran
  show (context.emit (tree.size + 1) .statement tree.root {} >>= _) = _
  rw [ran]
  rfl

/-- In every state of a session, whatever is known about purity and whatever the options, emission
succeeds, and the script is the prologue and the translation of the term that the tree holds. -/
theorem emitTree_eq_translate {term : Term} {tree : TermTree} (reached : Reached term tree)
    (purity : PurityTable) (options : Options) :
    ∃ held, tree.term? = some held ∧
      emitTree tree purity options =
        .ok ⟨options.linkage.prologue ++
            held.translate (fun name => options.memoize && purity.isPure name) (.statement false) ++
            "\n",
          held.memoizedCalls fun name => options.memoize && purity.isPure name⟩ := by
  obtain ⟨unfolding, unfolds, rooted, distinct⟩ := reached.unfolds
  exact ⟨unfolding.term, term?_eq_term unfolds rooted distinct,
    unfolds.emitTree_eq rooted distinct purity options⟩

/-- A function whose body is a chain of bindings, behind a binding that nothing reads. -/
def chainAfterUnused : Term :=
  .letIn "unused" (.int 1) (.function ["x"] (.letIn "y" (.var "x") (.var "y")))

theorem emitTree_eq_translate_chainAfterUnused :
    Reached chainAfterUnused (ofTerm chainAfterUnused).eliminate.1 ∧
      emitTree (ofTerm chainAfterUnused).eliminate.1 {} ⟨.require "support", true⟩ =
        .ok ⟨(Linkage.require "support").prologue ++
          "(x) => \x7b\x7blet y = x; return y;\x7d\x7d;" ++ "\n", 0⟩ := by
  have reached : Reached chainAfterUnused (ofTerm chainAfterUnused).eliminate.1 :=
    .eliminated .laidOut
  obtain ⟨held, readBack, emitted⟩ := emitTree_eq_translate reached {} ⟨.require "support", true⟩
  have spelled : (ofTerm chainAfterUnused).eliminate.1.term? =
      some (.function ["x"] (.letIn "y" (.var "x") (.var "y"))) := by rfl
  obtain rfl := Option.some.inj (spelled.symm.trans readBack)
  exact ⟨reached, emitted.trans (by decide)⟩

end TermTree

end TreeScript
