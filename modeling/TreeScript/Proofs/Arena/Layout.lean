/-
This file shows that laying a term out loses nothing. A term takes as many
consecutive ids as it has terms in it, starting with its own, and its parts
follow one after the other. So an arena that holds the layout of a term holds an
unfolding that spells this very term, and the ids of that unfolding are the
consecutive ones.

Terms are taken apart in one way for all kinds here, into a list of parts. The
thirteen kinds matter only where the layout of a term is related to that list. In
an unfolding the parts spell the parts of its term, and so what is collected along
its ids is what is collected along the terms in its term.
-/

import TreeScript.Proofs.Arena.Unfolding
import Mathlib.Data.List.Basic

namespace TreeScript

namespace Term

/-- The parts of a term in the order in which they are evaluated. -/
def parts : Term → List Term
  | letIn _ value next => [value, next]
  | function _ body => [body]
  | ifElse condition consequent alternative => [condition, consequent, alternative]
  | print value => [value]
  | call callee arguments => callee :: arguments
  | var _ => []
  | int _ => []
  | str _ => []
  | bool _ => []
  | binary _ lhs rhs => [lhs, rhs]
  | tuple left right => [left, right]
  | first value => [value]
  | second value => [value]

theorem size_eq_sizeList_parts (term : Term) : term.size = sizeList term.parts + 1 := by
  cases term <;> simp only [size, parts, sizeList] <;> omega

theorem size_pos (term : Term) : 0 < term.size := by
  rw [size_eq_sizeList_parts]
  exact Nat.succ_pos _

theorem size_le_sizeList {part : Term} {parts : List Term} (member : part ∈ parts) :
    part.size ≤ sizeList parts := by
  induction parts with
  | nil => cases member
  | cons head tail inductionHypothesis =>
    rw [sizeList]
    rcases List.mem_cons.mp member with rfl | inTail
    · exact Nat.le_add_right _ _
    · exact Nat.le_trans (inductionHypothesis inTail) (Nat.le_add_left _ _)

/-- What holds of a term whenever it holds of its parts holds of every term. -/
theorem induction_on_parts {motive : Term → Prop}
    (step : ∀ term : Term, (∀ part ∈ term.parts, motive part) → motive term) (term : Term) :
    motive term := by
  induction size : term.size using Nat.strongRecOn generalizing term with
  | _ size inductionHypothesis =>
    refine step term fun part member => inductionHypothesis part.size ?_ part rfl
    have smaller := size_le_sizeList member
    have whole := term.size_eq_sizeList_parts
    omega

mutual

/-- A term and all terms in it, each before its parts. -/
def subterms : Term → List Term
  | letIn name value next => letIn name value next :: (value.subterms ++ next.subterms)
  | function parameters body => function parameters body :: body.subterms
  | ifElse condition consequent alternative =>
    ifElse condition consequent alternative ::
      (condition.subterms ++ (consequent.subterms ++ alternative.subterms))
  | print value => print value :: value.subterms
  | call callee arguments => call callee arguments :: (callee.subterms ++ subtermsList arguments)
  | var name => [var name]
  | int value => [int value]
  | str value => [str value]
  | bool value => [bool value]
  | binary op lhs rhs => binary op lhs rhs :: (lhs.subterms ++ rhs.subterms)
  | tuple left right => tuple left right :: (left.subterms ++ right.subterms)
  | first value => first value :: value.subterms
  | second value => second value :: value.subterms

def subtermsList : List Term → List Term
  | [] => []
  | term :: terms => term.subterms ++ subtermsList terms

end

theorem subtermsList_eq_flatMap (terms : List Term) :
    subtermsList terms = terms.flatMap subterms := by
  induction terms with
  | nil => rfl
  | cons term terms inductionHypothesis =>
    rw [subtermsList, inductionHypothesis, List.flatMap_cons]

theorem subterms_eq_cons (term : Term) : term.subterms = term :: term.parts.flatMap subterms := by
  cases term <;> simp [subterms, parts, subtermsList_eq_flatMap]

end Term

namespace TermTree

/-! ### The layout of a term -/

/-- The layout of a term is one node followed by the layout of its parts, to which the node
refers. -/
theorem layOut_eq_cons (start : TermId) (term : Term) :
    ∃ node, layOut start term = node :: (layOutList (start + 1) term.parts).2 ∧
      node.children = (layOutList (start + 1) term.parts).1 ∧
      node.assemble term.parts = term := by
  cases term <;> simp [layOut, layOutList, Term.parts, Node.children, Node.assemble]

mutual

@[simp]
theorem length_layOut (start : TermId) : (term : Term) → (layOut start term).length = term.size
  | .letIn _ value next | .binary _ value next | .tuple value next => by
    simp [layOut, Term.size, length_layOut _ value, length_layOut _ next]
  | .ifElse condition consequent alternative => by
    simp [layOut, Term.size, length_layOut _ condition, length_layOut _ consequent,
      length_layOut _ alternative, Nat.add_assoc]
  | .function _ value | .print value | .first value | .second value => by
    simp [layOut, Term.size, length_layOut _ value]
  | .call callee arguments => by
    simp [layOut, Term.size, length_layOut _ callee, length_layOutList _ arguments]
  | .var _ | .int _ | .str _ | .bool _ => rfl

theorem length_layOutList (start : TermId) :
    (terms : List Term) → (layOutList start terms).2.length = Term.sizeList terms
  | [] => rfl
  | term :: terms => by
    simp [layOutList, Term.sizeList, length_layOut _ term, length_layOutList _ terms]

end

/-- An arena holds a list of nodes from an id on. -/
def Holds (tree : TermTree) (start : TermId) (nodes : List Node) : Prop :=
  ∀ (offset : Nat) (node : Node), nodes[offset]? = some node →
    tree.get? (start + offset) = some node

variable {tree : TermTree} {start : TermId}

theorem Holds.head {node : Node} {nodes : List Node} (holds : tree.Holds start (node :: nodes)) :
    tree.get? start = some node :=
  holds 0 node rfl

theorem Holds.tail {node : Node} {nodes : List Node} (holds : tree.Holds start (node :: nodes)) :
    tree.Holds (start + 1) nodes := by
  intro offset found there
  rw [Nat.add_assoc, Nat.add_comm 1]
  exact holds (offset + 1) found there

theorem Holds.left {nodes others : List Node} (holds : tree.Holds start (nodes ++ others)) :
    tree.Holds start nodes := by
  intro offset found there
  refine holds offset found ?_
  rw [List.getElem?_append_left (List.getElem?_eq_some_iff.mp there).1]
  exact there

theorem Holds.right {nodes others : List Node} (holds : tree.Holds start (nodes ++ others)) :
    tree.Holds (start + nodes.length) others := by
  intro offset found there
  rw [Nat.add_assoc]
  refine holds (nodes.length + offset) found ?_
  rw [List.getElem?_append_right (Nat.le_add_right _ _), Nat.add_sub_cancel_left]
  exact there

/-! ### The unfolding of a layout -/

/-- What the layout of one term gives: an unfolding that spells the term with consecutive ids. -/
def Spells (tree : TermTree) (start : TermId) (term : Term) : Prop :=
  ∃ unfolding, tree.Unfolds unfolding ∧ unfolding.id = start ∧ unfolding.term = term ∧
    unfolding.ids = List.range' start term.size

/-- Terms laid out one after the other unfold one after the other. -/
theorem unfolds_layOutList {terms : List Term}
    (each : ∀ term ∈ terms, ∀ start, tree.Holds start (layOut start term) →
      tree.Spells start term)
    (holds : tree.Holds start (layOutList start terms).2) :
    ∃ unfoldings : List Unfolding, (∀ unfolding ∈ unfoldings, tree.Unfolds unfolding) ∧
      unfoldings.map Unfolding.id = (layOutList start terms).1 ∧
      unfoldings.map Unfolding.term = terms ∧
      unfoldings.flatMap Unfolding.ids = List.range' start (Term.sizeList terms) := by
  induction terms generalizing start with
  | nil => exact ⟨[], by simp [layOutList, Term.sizeList]⟩
  | cons term terms inductionHypothesis =>
    obtain ⟨head, headUnfolds, headId, headTerm, headIds⟩ :=
      each term List.mem_cons_self start holds.left
    have rest := holds.right
    rw [length_layOut] at rest
    obtain ⟨tail, tailUnfolds, tailIds, tailTerms, tailRange⟩ := inductionHypothesis
      (fun term member => each term (List.mem_cons_of_mem _ member)) rest
    refine ⟨head :: tail, ?_, ?_, ?_, ?_⟩
    · simpa using ⟨headUnfolds, tailUnfolds⟩
    · rw [List.map_cons, headId, tailIds, layOutList, length_layOut]
    · rw [List.map_cons, headTerm, tailTerms]
    · rw [List.flatMap_cons, headIds, tailRange, Term.sizeList, List.range'_append_1]

/-- An arena that holds the layout of a term holds an unfolding that spells it, and the ids of
this unfolding are consecutive. -/
theorem spells_of_holds_layOut (term : Term) (holds : tree.Holds start (layOut start term)) :
    tree.Spells start term := by
  -- The parts of a term are smaller than the term.
  induction size : term.size using Nat.strongRecOn generalizing start term with
  | _ count inductionHypothesis =>
    obtain ⟨node, layout, children, assembled⟩ := layOut_eq_cons start term
    rw [layout] at holds
    obtain ⟨unfoldings, unfolds, ids, terms, range⟩ := unfolds_layOutList
      (fun part member start partHolds => inductionHypothesis part.size
        (by
          rw [← size, Term.size_eq_sizeList_parts term]
          exact Nat.lt_succ_of_le (Term.size_le_sizeList member))
        part partHolds rfl)
      holds.tail
    refine ⟨.mk start node unfoldings, ⟨holds.head, children.trans ids.symm, unfolds⟩, rfl, ?_, ?_⟩
    · rw [Unfolding.term_mk, terms, assembled]
    · rw [Unfolding.ids_mk, range, Term.size_eq_sizeList_parts, List.range'_succ]

theorem size_ofTerm (term : Term) : (ofTerm term).size = term.size := by
  simp [ofTerm, size]

theorem holds_ofTerm (term : Term) : (ofTerm term).Holds 0 (layOut 0 term) := by
  intro offset node found
  rw [Nat.zero_add, get?, ofTerm, List.getElem?_toArray]
  exact found

/-- The arena of a term unfolds at its root to the term, with all its ids in increasing order. -/
theorem spells_ofTerm (term : Term) : (ofTerm term).Spells 0 term :=
  spells_of_holds_layOut term (holds_ofTerm term)

end TermTree

/-! ### What an unfolding spells -/

namespace Node

theorem parts_assemble {node : Node} {terms : List Term} (fits : node.Fits terms) :
    (node.assemble terms).parts = terms := by
  cases fits <;> rfl

end Node

namespace TermTree

variable {tree : TermTree} {unfolding : Unfolding}

/-- What stands at an id is the same in every unfolding. -/
theorem Unfolds.eq_of_id_eq (unfolds : tree.Unfolds unfolding) {other : Unfolding}
    (otherUnfolds : tree.Unfolds other) (same : unfolding.id = other.id) : unfolding = other := by
  induction unfolds generalizing other with
  | @intro id node parts held linked below inductionHypothesis =>
    obtain @⟨otherId, otherNode, otherParts, otherHeld, otherLinked, otherBelow⟩ := otherUnfolds
    obtain rfl : id = otherId := same
    obtain rfl : node = otherNode := Option.some.inj (held.symm.trans otherHeld)
    have sameIds : parts.map Unfolding.id = otherParts.map Unfolding.id := linked ▸ otherLinked
    congr 1
    refine List.ext_getElem (by simpa using congrArg List.length sameIds)
      fun position inParts inOthers => ?_
    refine inductionHypothesis _ (List.getElem_mem inParts)
      (otherBelow _ (List.getElem_mem inOthers)) ?_
    have entry := congrArg (·[position]?) sameIds
    simpa [List.getElem?_eq_getElem inParts, List.getElem?_eq_getElem inOthers] using entry

theorem fits_of_linked {node : Node} {parts : List Unfolding}
    (linked : node.children = parts.map Unfolding.id) : node.Fits (parts.map Unfolding.term) :=
  Node.fits_of_length (by simp [linked])

theorem Unfolds.parts_term (unfolds : tree.Unfolds unfolding) :
    unfolding.term.parts = unfolding.parts.map Unfolding.term := by
  obtain ⟨-, linked, -⟩ := unfolds
  rw [Unfolding.term_mk]
  exact Node.parts_assemble (fits_of_linked linked)

/-- What is said at every id about the term there is said along the whole walk. -/
theorem Unfolds.filterMap_ids {α : Type} {atId : TermId → Option α} {ofTerm : Term → Option α}
    (unfolds : tree.Unfolds unfolding)
    (agree : ∀ inner, tree.Unfolds inner → atId inner.id = ofTerm inner.term) :
    unfolding.ids.filterMap atId = unfolding.term.subterms.filterMap ofTerm := by
  induction unfolds with
  | @intro id node parts held linked below inductionHypothesis =>
    have unfolds : tree.Unfolds (.mk id node parts) := ⟨held, linked, below⟩
    have inParts : (parts.flatMap Unfolding.ids).filterMap atId =
        ((parts.map Unfolding.term).flatMap Term.subterms).filterMap ofTerm := by
      rw [List.filterMap_flatMap, List.filterMap_flatMap, List.flatMap_map]
      exact List.flatMap_congr inductionHypothesis
    have here : atId id = ofTerm (Unfolding.mk id node parts).term := agree _ unfolds
    rw [Term.subterms_eq_cons, unfolds.parts_term, Unfolding.ids_mk, List.filterMap_cons,
      List.filterMap_cons, here, Unfolding.parts_mk, inParts]

end TermTree

end TreeScript
