/-
This file says what memoization changes in a script. It looks at one place only,
the variable that a call has as its callee, and asks one question about it,
whether the name is known to be pure. So all that a script shows of a table are
the answers for the names that are called.

The names called in a term are collected along all terms in it. The translation
asks for no other name, and counts one call for each of them that is memoized. In
the tree the same names are found along the linked ids, each of which is visited
once.
-/

import TreeScript.Proofs.Purity.Chains
import TreeScript.Proofs.Script.Translation

namespace TreeScript

open Script

namespace Term

/-! ### Names that are called -/

/-- The name that a call has as its callee. -/
def calledName? : Term → Option String
  | call callee _ => callee.varName?
  | _ => none

/-- The names that are called in a term, once for each call. -/
def calledNames (term : Term) : List String :=
  term.subterms.filterMap calledName?

theorem calledNames_eq (term : Term) :
    term.calledNames = term.calledName?.toList ++ term.parts.flatMap calledNames := by
  rw [calledNames, subterms_eq_cons, List.filterMap_cons, List.filterMap_flatMap]
  cases term.calledName? <;> rfl

theorem mem_calledNames_of_part {term part : Term} {name : String} (member : part ∈ term.parts)
    (called : name ∈ part.calledNames) : name ∈ term.calledNames := by
  rw [calledNames_eq]
  exact List.mem_append_right _ (List.mem_flatMap.mpr ⟨part, member, called⟩)

theorem mem_calledNames_of_callee {callee : Term} {arguments : List Term} {name : String}
    (isVar : callee.varName? = some name) : name ∈ (call callee arguments).calledNames := by
  rw [calledNames_eq, calledName?, isVar]
  exact List.mem_cons_self

variable {memoized other : String → Bool}

/-- The translation asks only about names that are called. -/
theorem translate_congr {term : Term} {position : Position}
    (agree : ∀ name ∈ term.calledNames, memoized name = other name) :
    term.translate memoized position = term.translate other position := by
  induction term, position using induction_on_positions with
  | value term parts =>
    have each : ∀ part ∈ term.parts, ∀ position,
        part.translate memoized position = part.translate other position :=
      fun part member position => parts part member position fun name called =>
        agree name (mem_calledNames_of_part member called)
    cases term with
    | call callee arguments =>
      have listed : translateAll memoized arguments = translateAll other arguments := by
        rw [translateAll_eq_map, translateAll_eq_map]
        exact List.map_congr_left fun argument member =>
          each argument (List.mem_cons_of_mem _ member) .value
      rw [translate, translate, listed]
      cases isVar : callee.varName? with
      | none => simp only [each callee List.mem_cons_self]
      | some name => simp only [agree name (mem_calledNames_of_callee isVar)]
    | _ =>
      simp only [Term.parts, List.forall_mem_cons, List.not_mem_nil, false_implies, implies_true,
        and_true] at each
      simp only [translate, each]
  | ended term returns notLet inductionHypothesis =>
    rw [translate_statement notLet, translate_statement notLet, inductionHypothesis agree]
  | block name bound next returns boundHypothesis nextHypothesis =>
    rw [translate, translate,
      boundHypothesis fun called member =>
        agree called (mem_calledNames_of_part (by simp [Term.parts]) member),
      nextHypothesis fun called member =>
        agree called (mem_calledNames_of_part (by simp [Term.parts]) member)]

theorem memoizedCallsAll_eq_countP {terms : List Term}
    (each : ∀ term ∈ terms, term.memoizedCalls memoized = term.calledNames.countP memoized) :
    memoizedCallsAll memoized terms = (terms.flatMap calledNames).countP memoized := by
  induction terms with
  | nil => rw [memoizedCallsAll, List.flatMap_nil, List.countP_nil]
  | cons term terms inductionHypothesis =>
    rw [memoizedCallsAll, each term List.mem_cons_self, List.flatMap_cons, List.countP_append,
      inductionHypothesis fun other member => each other (List.mem_cons_of_mem _ member)]

/-- Each call of a memoized name is counted once. -/
theorem memoizedCalls_eq_countP (memoized : String → Bool) (term : Term) :
    term.memoizedCalls memoized = term.calledNames.countP memoized := by
  induction term using induction_on_parts with
  | step term parts =>
    rw [calledNames_eq, List.countP_append]
    cases term with
    | call callee arguments =>
      have listed := memoizedCallsAll_eq_countP fun argument member =>
        parts argument (List.mem_cons_of_mem _ member)
      rw [memoizedCalls, listed, calledName?, Term.parts, List.flatMap_cons, List.countP_append,
        ← parts callee List.mem_cons_self]
      cases isVar : callee.varName? with
      | none => simp [Nat.add_comm]
      | some name =>
        obtain rfl := eq_var_of_varName? isVar
        simp [memoizedCalls, List.countP_cons, Nat.add_comm]
    | _ =>
      simp only [Term.parts, List.forall_mem_cons, List.not_mem_nil, false_implies, implies_true,
        and_true] at parts
      simp [memoizedCalls, calledName?, Term.parts, parts]

end Term

namespace PurityTable

theorem isPure_empty (name : String) : ({} : PurityTable).isPure name = false := rfl

theorem isPure_mark (table : PurityTable) (name other : String) (pure : Bool) :
    (table.mark name pure).isPure other = if other = name then pure else table.isPure other := by
  rw [isPure, get?_mark]
  split
  · cases pure <;> rfl
  · rfl

end PurityTable

namespace TermTree

/-! ### Call sites of a tree -/

/-- The name of the variable that the call at an id has as its callee. -/
def calledName? (tree : TermTree) (id : TermId) : Option String :=
  match tree.get? id with
  | some (.call callee _) => (tree.get? callee).bind Node.varName?
  | _ => none

/-- The names that linked calls have as their callees, once for each call. -/
def calledNames (tree : TermTree) : List String :=
  tree.reachable.filterMap tree.calledName?

variable {tree : TermTree} {unfolding : Unfolding} {term : Term}

theorem Unfolds.calledName?_eq (unfolds : tree.Unfolds unfolding) :
    tree.calledName? unfolding.id = unfolding.term.calledName? := by
  obtain @⟨id, node, parts, held, linked, below⟩ := unfolds
  have fits : node.Fits parts := Node.fits_of_length (by rw [linked, List.length_map])
  rw [calledName?, Unfolding.id_mk, held, Unfolding.term_mk]
  cases fits
  case call callee arguments calleePart argumentParts _ =>
    have calleeUnfolds := below calleePart List.mem_cons_self
    obtain rfl : callee = calleePart.id := (List.cons.inj linked).1
    show (tree.get? calleePart.id).bind Node.varName? = calleePart.term.varName?
    rw [calleeUnfolds.get?, Option.bind_some, calleeUnfolds.varName?_term]
  all_goals rfl

theorem Unfolds.calledNames_eq (unfolds : tree.Unfolds unfolding)
    (rooted : unfolding.id = tree.root) (distinct : unfolding.ids.Nodup) :
    tree.calledNames = unfolding.term.calledNames := by
  rw [calledNames, reachable_eq_ids unfolds rooted distinct]
  exact unfolds.filterMap_ids fun _ inner => inner.calledName?_eq

/-- What is asked about the names that are called decides the script. -/
theorem Reached.emitTree_congr (reached : Reached term tree) {purity other : PurityTable}
    {linkage : Linkage} {memoize otherMemoize : Bool}
    (agree : ∀ name ∈ tree.calledNames,
      (memoize && purity.isPure name) = (otherMemoize && other.isPure name)) :
    emitTree tree purity ⟨linkage, memoize⟩ = emitTree tree other ⟨linkage, otherMemoize⟩ := by
  obtain ⟨unfolding, unfolds, rooted, distinct⟩ := reached.unfolds
  rw [unfolds.calledNames_eq rooted distinct] at agree
  rw [unfolds.emitTree_eq rooted distinct, unfolds.emitTree_eq rooted distinct,
    Term.translate_congr agree, Term.memoizedCalls_eq_countP, Term.memoizedCalls_eq_countP,
    List.countP_congr fun name member => by rw [agree name member]]

/-- The count of a script is that of the linked calls of memoized names. -/
theorem Reached.exists_emitTree_eq (reached : Reached term tree) (purity : PurityTable)
    (options : Options) :
    ∃ source, emitTree tree purity options = .ok ⟨source,
      tree.calledNames.countP fun name => options.memoize && purity.isPure name⟩ := by
  obtain ⟨unfolding, unfolds, rooted, distinct⟩ := reached.unfolds
  rw [unfolds.emitTree_eq rooted distinct, unfolds.calledNames_eq rooted distinct,
    Term.memoizedCalls_eq_countP]
  exact ⟨_, rfl⟩

theorem Reached.reachable_nodup (reached : Reached term tree) : tree.reachable.Nodup := by
  obtain ⟨unfolding, unfolds, rooted, distinct⟩ := reached.unfolds
  rwa [reachable_eq_ids unfolds rooted distinct]

/-- In every state of a session, memoization changes exactly the linked calls of pure names. With
it, the count is the number of linked nodes that are such calls. Without it, whatever the table,
the script is the one for a table that knows nothing, and nothing is counted. Tables that agree
about the names that are called give the same script, so nothing shows that a name is known to be
impure and not just unknown, and nothing shows of a name that is not called. -/
theorem emitTree_memoizes_exactly (reached : Reached term tree) (linkage : Linkage)
    (purity : PurityTable) :
    (tree.reachable.Nodup ∧ ∃ source, emitTree tree purity ⟨linkage, true⟩ = .ok ⟨source,
      tree.reachable.countP fun id => (tree.calledName? id).any purity.isPure⟩) ∧
    (∃ source, emitTree tree purity ⟨linkage, false⟩ = .ok ⟨source, 0⟩ ∧
      emitTree tree {} ⟨linkage, true⟩ = .ok ⟨source, 0⟩) ∧
    (∀ other memoize, (∀ name ∈ tree.calledNames, purity.isPure name = other.isPure name) →
      emitTree tree purity ⟨linkage, memoize⟩ = emitTree tree other ⟨linkage, memoize⟩) ∧
    (∀ name memoize, purity.isPure name = false →
      emitTree tree (purity.mark name false) ⟨linkage, memoize⟩ =
        emitTree tree purity ⟨linkage, memoize⟩) ∧
    ∀ name known memoize, name ∉ tree.calledNames →
      emitTree tree (purity.mark name known) ⟨linkage, memoize⟩ =
        emitTree tree purity ⟨linkage, memoize⟩ := by
  refine ⟨⟨reached.reachable_nodup, ?_⟩, ?_, fun other memoize agree => ?_,
    fun name memoize impure => ?_, fun name known memoize uncalled => ?_⟩
  · obtain ⟨source, emitted⟩ := reached.exists_emitTree_eq purity ⟨linkage, true⟩
    refine ⟨source, emitted.trans ?_⟩
    have counted : tree.calledNames.countP purity.isPure =
        tree.reachable.countP fun id => (tree.calledName? id).any purity.isPure := by
      rw [calledNames, List.countP_filterMap]
      congr 1
      funext id
      cases tree.calledName? id <;> rfl
    simp only [Bool.true_and, counted]
  · obtain ⟨source, emitted⟩ := reached.exists_emitTree_eq purity ⟨linkage, false⟩
    simp only [Bool.false_and, List.countP_false, Function.const_apply] at emitted
    refine ⟨source, emitted, ?_⟩
    rw [← emitted]
    exact reached.emitTree_congr fun name _ => by
      rw [PurityTable.isPure_empty, Bool.and_false, Bool.false_and]
  · exact reached.emitTree_congr fun name called => by rw [agree name called]
  · refine reached.emitTree_congr fun other _ => ?_
    rw [PurityTable.isPure_mark]
    split
    case isTrue same => rw [same, impure]
    case isFalse => rfl
  · refine reached.emitTree_congr fun other called => ?_
    have apart : other ≠ name := fun same => uncalled (same ▸ called)
    rw [PurityTable.isPure_mark, if_neg apart]

/-- A pure name is called twice where it counts and once in a binding that goes; the other callees
are the name of a printer and a function without a name. -/
def mixedCalls : Term :=
  .letIn "same" (.function ["x"] (.var "x"))
    (.letIn "say" (.function ["x"] (.print (.var "x")))
      (.letIn "unused" (.call (.var "same") [.int 0])
        (.tuple (.call (.var "same") [.call (.var "same") [.int 1]])
          (.tuple (.call (.var "say") [.int 2]) (.call (.function ["x"] (.var "x")) [.int 3])))))

theorem emitTree_memoizes_exactly_mixedCalls :
    Reached mixedCalls (ofTerm mixedCalls).eliminate.1 ∧
    (ofTerm mixedCalls).eliminate.1.calledNames = ["same", "same", "say"] ∧
    (∃ source, emitTree (ofTerm mixedCalls).eliminate.1
      ⟨[("ghost", true), ("same", true), ("say", false)]⟩ ⟨.require "support", true⟩ =
        .ok ⟨source, 2⟩) ∧
    emitTree (ofTerm mixedCalls).eliminate.1
        ⟨[("ghost", true), ("same", true), ("say", false)]⟩ ⟨.require "support", true⟩ =
      emitTree (ofTerm mixedCalls).eliminate.1 ⟨[("same", true)]⟩ ⟨.require "support", true⟩ := by
  have reached : Reached mixedCalls (ofTerm mixedCalls).eliminate.1 := .eliminated .laidOut
  have called : (ofTerm mixedCalls).eliminate.1.calledNames = ["same", "same", "say"] := by decide
  obtain ⟨⟨-, source, emitted⟩, -, agreeing, -⟩ := emitTree_memoizes_exactly reached
    (.require "support") ⟨[("ghost", true), ("same", true), ("say", false)]⟩
  refine ⟨reached, called, ⟨source, emitted.trans (congrArg _ ?_)⟩, agreeing _ true ?_⟩
  · congr 1
  · rw [called]
    decide

end TermTree

end TreeScript
