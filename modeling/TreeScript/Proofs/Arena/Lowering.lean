/-
This file builds an arena the way it grows in memory. Before the parts of a term are
lowered, a place is reserved for its node and filled with a placeholder. The id of the
place is the number of nodes so far, as a 32-bit word. The node itself is written once
the ids of its parts are known. Meanwhile the arena has grown behind the placeholder,
and what stood before it is as it was.

As long as 32 bits are enough, lowering a term appends its layout, so nothing of a
placeholder is left. The layout loses nothing: from every id the term there is read
back, and it takes as many ids from there on as there are terms in it.
-/

import TreeScript.Proofs.Arena.Layout

namespace TreeScript

namespace TermTree

/-! ### Lowering -/

/-- What stands in the place of a node that is not known yet. -/
def placeholder : Node := .bool false

/-- Reserves a place at the end of an arena. Its id is a 32-bit word. -/
def reserve (nodes : Array Node) : TermId × Array Node :=
  (nodes.size.toUInt32.toNat, nodes.push placeholder)

mutual

/-- Lowers a term into an arena and answers its id. -/
def lower (nodes : Array Node) : Term → TermId × Array Node
  | .letIn name value next =>
    let (id, nodes) := reserve nodes
    let (valueId, nodes) := lower nodes value
    let (nextId, nodes) := lower nodes next
    (id, nodes.setIfInBounds id (.letIn name valueId nextId))
  | .function parameters body =>
    let (id, nodes) := reserve nodes
    let (bodyId, nodes) := lower nodes body
    (id, nodes.setIfInBounds id (.function parameters bodyId))
  | .ifElse condition consequent alternative =>
    let (id, nodes) := reserve nodes
    let (conditionId, nodes) := lower nodes condition
    let (consequentId, nodes) := lower nodes consequent
    let (alternativeId, nodes) := lower nodes alternative
    (id, nodes.setIfInBounds id (.ifElse conditionId consequentId alternativeId))
  | .print value =>
    let (id, nodes) := reserve nodes
    let (valueId, nodes) := lower nodes value
    (id, nodes.setIfInBounds id (.print valueId))
  | .call callee arguments =>
    let (id, nodes) := reserve nodes
    let (calleeId, nodes) := lower nodes callee
    let (argumentIds, nodes) := lowerAll nodes arguments
    (id, nodes.setIfInBounds id (.call calleeId argumentIds))
  | .var name =>
    let (id, nodes) := reserve nodes
    (id, nodes.setIfInBounds id (.var name))
  | .int value =>
    let (id, nodes) := reserve nodes
    (id, nodes.setIfInBounds id (.int value))
  | .str value =>
    let (id, nodes) := reserve nodes
    (id, nodes.setIfInBounds id (.str value))
  | .bool value =>
    let (id, nodes) := reserve nodes
    (id, nodes.setIfInBounds id (.bool value))
  | .binary op lhs rhs =>
    let (id, nodes) := reserve nodes
    let (lhsId, nodes) := lower nodes lhs
    let (rhsId, nodes) := lower nodes rhs
    (id, nodes.setIfInBounds id (.binary op lhsId rhsId))
  | .tuple left right =>
    let (id, nodes) := reserve nodes
    let (leftId, nodes) := lower nodes left
    let (rightId, nodes) := lower nodes right
    (id, nodes.setIfInBounds id (.tuple leftId rightId))
  | .first value =>
    let (id, nodes) := reserve nodes
    let (valueId, nodes) := lower nodes value
    (id, nodes.setIfInBounds id (.first valueId))
  | .second value =>
    let (id, nodes) := reserve nodes
    let (valueId, nodes) := lower nodes value
    (id, nodes.setIfInBounds id (.second valueId))

/-- Lowers terms one after the other. -/
def lowerAll (nodes : Array Node) : List Term → List TermId × Array Node
  | [] => ([], nodes)
  | term :: terms =>
    let (id, nodes) := lower nodes term
    let (ids, nodes) := lowerAll nodes terms
    (id :: ids, nodes)

end

/-- The arena that a term is lowered into when there is nothing in it yet. -/
def lowered (term : Term) : TermTree :=
  let (root, nodes) := lower #[] term
  ⟨nodes, root⟩

/-! ### Lowering appends the layout -/

theorem reserve_eq {nodes : Array Node} (small : nodes.size < UInt32.size) :
    reserve nodes = (nodes.size, nodes.push placeholder) := by
  rw [reserve, Nat.toUInt32_eq, UInt32.toNat_ofNat_of_lt' small]

/-- An arena with more nodes behind its own. -/
def extend (nodes : Array Node) (more : List Node) : Array Node :=
  nodes ++ more.toArray

@[simp]
theorem size_extend (nodes : Array Node) (more : List Node) :
    (extend nodes more).size = nodes.size + more.length := by
  simp [extend]

@[simp]
theorem extend_extend (nodes : Array Node) (more others : List Node) :
    extend (extend nodes more) others = extend nodes (more ++ others) := by
  simp [extend]

/-- Writing a node into its reserved place leaves everything around the place as it is. -/
theorem setIfInBounds_extend (nodes : Array Node) (more : List Node) (node : Node) :
    (extend (nodes.push placeholder) more).setIfInBounds nodes.size node =
      extend nodes (node :: more) := by
  rw [← Array.toList_inj]
  simp [extend]

mutual

/-- While 32 bits are enough for its ids, a term gets the next id, and its layout is appended. -/
theorem lower_eq (nodes : Array Node) :
    (term : Term) → nodes.size + term.size ≤ UInt32.size →
      lower nodes term = (nodes.size, extend nodes (layOut nodes.size term))
  | .letIn _ value next, enough | .binary _ value next, enough | .tuple value next, enough => by
    rw [Term.size] at enough
    have valueLowered := lower_eq (nodes.push placeholder) value (by simp; omega)
    rw [Array.size_push] at valueLowered
    have nextLowered := lower_eq (extend (nodes.push placeholder) (layOut (nodes.size + 1) value))
      next (by simp; omega)
    rw [size_extend, Array.size_push] at nextLowered
    rw [lower, reserve_eq (by omega)]
    simp only [valueLowered, nextLowered, extend_extend, setIfInBounds_extend, layOut]
  | .ifElse condition consequent alternative, enough => by
    rw [Term.size] at enough
    have conditionLowered := lower_eq (nodes.push placeholder) condition (by simp; omega)
    rw [Array.size_push] at conditionLowered
    have consequentLowered := lower_eq
      (extend (nodes.push placeholder) (layOut (nodes.size + 1) condition)) consequent
      (by simp; omega)
    rw [size_extend, Array.size_push] at consequentLowered
    have alternativeLowered := lower_eq
      (extend (nodes.push placeholder) (layOut (nodes.size + 1) condition ++
        layOut (nodes.size + 1 + (layOut (nodes.size + 1) condition).length) consequent))
      alternative (by simp; omega)
    rw [size_extend, Array.size_push, List.length_append, ← Nat.add_assoc] at alternativeLowered
    rw [lower, reserve_eq (by omega)]
    simp only [conditionLowered, consequentLowered, alternativeLowered, extend_extend,
      setIfInBounds_extend, layOut, List.append_assoc]
  | .function _ value, enough | .print value, enough | .first value, enough
  | .second value, enough => by
    rw [Term.size] at enough
    have valueLowered := lower_eq (nodes.push placeholder) value (by simp; omega)
    rw [Array.size_push] at valueLowered
    rw [lower, reserve_eq (by omega)]
    simp only [valueLowered, setIfInBounds_extend, layOut]
  | .call callee arguments, enough => by
    rw [Term.size] at enough
    have calleeLowered := lower_eq (nodes.push placeholder) callee (by simp; omega)
    rw [Array.size_push] at calleeLowered
    have argumentsLowered := lowerAll_eq
      (extend (nodes.push placeholder) (layOut (nodes.size + 1) callee)) arguments
      (by simp; omega)
    rw [size_extend, Array.size_push] at argumentsLowered
    rw [lower, reserve_eq (by omega)]
    simp only [calleeLowered, argumentsLowered, extend_extend, setIfInBounds_extend, layOut]
  | .var _, enough | .int _, enough | .str _, enough | .bool _, enough => by
    rw [Term.size] at enough
    rw [lower, reserve_eq (by omega)]
    exact congrArg _ (setIfInBounds_extend nodes [] _)

theorem lowerAll_eq (nodes : Array Node) :
    (terms : List Term) → nodes.size + Term.sizeList terms ≤ UInt32.size →
      lowerAll nodes terms =
        ((layOutList nodes.size terms).1, extend nodes (layOutList nodes.size terms).2)
  | [], _ => by simp [lowerAll, layOutList, extend]
  | term :: terms, enough => by
    rw [Term.sizeList] at enough
    have termLowered := lower_eq nodes term (by omega)
    have termsLowered := lowerAll_eq (extend nodes (layOut nodes.size term)) terms (by simp; omega)
    rw [size_extend] at termsLowered
    simp only [lowerAll, termLowered, termsLowered, extend_extend, layOutList]

end

theorem lowered_eq_ofTerm {term : Term} (enough : term.size ≤ UInt32.size) :
    lowered term = ofTerm term := by
  have appended := lower_eq #[] term (by simpa using enough)
  rw [lowered, appended]
  simp [extend, ofTerm]

end TermTree

/-! ### The term at every id -/

namespace Term

theorem length_subterms (term : Term) : term.subterms.length = term.size := by
  induction term using induction_on_parts with
  | step term inductionHypothesis =>
    rw [subterms_eq_cons, size_eq_sizeList_parts, List.length_cons, Nat.add_right_cancel_iff]
    generalize term.parts = parts at inductionHypothesis
    induction parts with
    | nil => rfl
    | cons part parts listHypothesis =>
      rw [List.flatMap_cons, List.length_append, sizeList,
        inductionHypothesis part List.mem_cons_self,
        listHypothesis fun other member =>
          inductionHypothesis other (List.mem_cons_of_mem _ member)]

end Term

namespace TermTree

variable {tree : TermTree} {start : TermId} {part : Term}

/-- A term inside another one is laid out as far behind it as there are terms before it. -/
def LaysOutInside (tree : TermTree) (term : Term) : Prop :=
  ∀ start, tree.Holds start (layOut start term) → ∀ offset part,
    term.subterms[offset]? = some part → tree.Holds (start + offset) (layOut (start + offset) part)

theorem holds_inside_list {terms : List Term} (each : ∀ term ∈ terms, tree.LaysOutInside term)
    (holds : tree.Holds start (layOutList start terms).2) {offset : Nat}
    (found : (terms.flatMap Term.subterms)[offset]? = some part) :
    tree.Holds (start + offset) (layOut (start + offset) part) := by
  induction terms generalizing start offset with
  | nil => simp at found
  | cons term terms inductionHypothesis =>
    rw [List.flatMap_cons] at found
    by_cases inFirst : offset < term.subterms.length
    · rw [List.getElem?_append_left inFirst] at found
      exact each term List.mem_cons_self start holds.left offset part found
    · have behind := Nat.le_of_not_lt inFirst
      rw [List.getElem?_append_right behind] at found
      have rest := holds.right
      rw [length_layOut, ← Term.length_subterms] at rest
      have inRest := inductionHypothesis
        (fun other member => each other (List.mem_cons_of_mem _ member)) rest found
      rwa [Nat.add_assoc, Nat.add_sub_cancel' behind] at inRest

theorem laysOutInside (tree : TermTree) (term : Term) : tree.LaysOutInside term := by
  induction term using Term.induction_on_parts with
  | step term inductionHypothesis =>
    intro start holds offset part found
    rw [Term.subterms_eq_cons] at found
    cases offset with
    | zero =>
      cases found
      exact holds
    | succ offset =>
      obtain ⟨node, layout, -, -⟩ := layOut_eq_cons start term
      rw [layout] at holds
      rw [Nat.succ_eq_one_add, ← Nat.add_assoc]
      exact holds_inside_list inductionHypothesis holds.tail found

/-- The terms inside a term are spelled at the ids that number them. -/
theorem spells_subterm {term : Term} {id : TermId} (found : term.subterms[id]? = some part) :
    (ofTerm term).Spells id part := by
  have inside := laysOutInside (ofTerm term) term 0 (holds_ofTerm term) id part found
  rw [Nat.zero_add] at inside
  exact spells_of_holds_layOut part inside

theorem Spells.read_back (spells : tree.Spells start part) :
    { tree with root := start }.term? = some part ∧
      { tree with root := start }.reachable = List.range' start part.size := by
  obtain ⟨unfolding, unfolds, rfl, rfl, ids⟩ := spells
  have rooted : TermTree.Unfolds { tree with root := unfolding.id } unfolding :=
    unfolds.congr fun _ _ => rfl
  have distinct : unfolding.ids.Nodup := ids ▸ List.nodup_range'
  exact ⟨term?_eq_term rooted rfl distinct, (reachable_eq_ids rooted rfl distinct).trans ids⟩

/-- A placeholder stands only where it spells the term itself. -/
theorem Spells.get?_eq_placeholder_iff (spells : tree.Spells start part) :
    tree.get? start = some placeholder ↔ part = .bool false := by
  obtain ⟨unfolding, unfolds, rfl, rfl, -⟩ := spells
  rw [unfolds.get?, Option.some.injEq]
  obtain ⟨-, linked, -⟩ := unfolds
  have fits := fits_of_linked linked
  rw [Unfolding.term_mk, Unfolding.node, placeholder]
  generalize List.map Unfolding.term _ = terms at fits
  cases fits <;> simp [Node.assemble]

/-- Lowering loses nothing and numbers the terms in a term in the order in which they come. A term
with fewer terms in it than there are 32-bit words is read back from the root of its arena. The
arena has as many nodes, its root is the first of them, and the walk from there goes through all of
them in their order. From every id the walk goes through consecutive ids and the term of that
number is read back, and nowhere a placeholder is left in the place of another node. -/
theorem lowered_faithful {term : Term} (small : term.size < UInt32.size) :
    lowered term = ofTerm term ∧ (lowered term).term? = some term ∧
      (lowered term).size = term.size ∧ (lowered term).root = 0 ∧
      (lowered term).reachable = List.range (lowered term).size ∧
      ∀ id < (lowered term).size, ∃ part, term.subterms[id]? = some part ∧
        { lowered term with root := id }.term? = some part ∧
        { lowered term with root := id }.reachable = List.range' id part.size ∧
        ((lowered term).get? id = some placeholder ↔ part = .bool false) := by
  have same := lowered_eq_ofTerm (Nat.le_of_lt small)
  obtain ⟨readBack, walked⟩ := (spells_ofTerm term).read_back
  rw [same, size_ofTerm]
  refine ⟨rfl, readBack, rfl, rfl, ?_, fun id inRange => ?_⟩
  · rw [List.range_eq_range']
    exact walked
  · rw [← term.length_subterms] at inRange
    have found := List.getElem?_eq_getElem inRange
    have spells := spells_subterm found
    exact ⟨_, found, spells.read_back.1, spells.read_back.2, spells.get?_eq_placeholder_iff⟩

/-- A call with a function and with a term that looks like a placeholder as arguments. -/
def callWithFlag : Term :=
  .call (.var "choose")
    [.function ["x"] (.tuple (.var "x") (.int 1)), .bool false, .letIn "y" (.int 2) (.var "y")]

/-- The function takes the ids from 2 to 5. -/
theorem lowered_faithful_callWithFlag :
    callWithFlag.size < UInt32.size ∧ (lowered callWithFlag).reachable = List.range 10 ∧
      { lowered callWithFlag with root := 2 }.term? =
        some (.function ["x"] (.tuple (.var "x") (.int 1))) ∧
      { lowered callWithFlag with root := 2 }.reachable = [2, 3, 4, 5] ∧
      (lowered callWithFlag).get? 2 ≠ some placeholder ∧
      (lowered callWithFlag).get? 6 = some placeholder := by
  have small : callWithFlag.size < UInt32.size := by decide
  obtain ⟨-, -, count, -, walked, each⟩ := lowered_faithful small
  rw [count] at walked each
  obtain ⟨_, found, readBack, consecutive, isPlaceholder⟩ := each 2 (by decide)
  cases found
  obtain ⟨_, flagFound, -, -, flagIsPlaceholder⟩ := each 6 (by decide)
  cases flagFound
  exact ⟨small, walked, readBack, consecutive, by simp [isPlaceholder], flagIsPlaceholder.mpr rfl⟩

end TermTree

end TreeScript
