/-
This file follows an arena through a session: any number of eliminations and
moves of the root, in any order. Elimination is the only step that changes
nodes, and all it does to a node is to move its links forward, from a binding to
what follows it. So at any moment a link leads to where the first layout had it,
or from there along `next` links of the first layout.

That single invariant keeps the arena a tree from every id. Moving a link
forward stays inside the part that the link led to, so what an id unfolds to
later has its ids among those that it unfolded to first, in the same order, and
they are all different.
-/

import TreeScript.Analysis.Elimination
import TreeScript.Proofs.Arena.Layout
import Mathlib.Logic.Relation

namespace TreeScript

namespace Node

theorem withChildren_withChildren {node : Node} {ids others : List TermId} (fits : node.Fits ids)
    (refits : node.Fits others) :
    (node.withChildren ids).withChildren others = node.withChildren others := by
  cases fits with
  | call callee newCallee same =>
    cases refits with
    | call _ lastCallee sameLast => simp [withChildren, same, sameLast]
  | _ =>
    cases refits
    rfl

end Node

namespace TermTree

/-! ### Links that moved forward -/

/-- A binding is followed by what it is linked to as its next term. -/
def IsNext (tree : TermTree) (id next : TermId) : Prop :=
  ∃ name value, tree.get? id = some (.letIn name value next)

/-- One id is reached from another through bindings and what follows them. -/
abbrev Continues (tree : TermTree) : TermId → TermId → Prop :=
  Relation.ReflTransGen tree.IsNext

/-- A tree has the nodes of a first tree, except that their links may have moved forward. -/
structure Relinked (first tree : TermTree) : Prop where
  size_eq : tree.size = first.size
  node : ∀ id node, first.get? id = some node →
    ∃ children, tree.get? id = some (node.withChildren children) ∧
      List.Forall₂ first.Continues node.children children

variable {first tree : TermTree}

theorem Relinked.refl (tree : TermTree) : Relinked tree tree where
  size_eq := rfl
  node id node held := by
    refine ⟨node.children, ?_, List.forall₂_same.mpr fun _ _ => Relation.ReflTransGen.refl⟩
    rw [Node.withChildren_children]
    exact held

/-- The node at an id, as the first tree had it. -/
theorem Relinked.first_node (relinked : Relinked first tree) {id : TermId} {node : Node}
    (held : tree.get? id = some node) :
    ∃ children, first.get? id = some (node.withChildren children) ∧
      List.Forall₂ first.Continues children node.children := by
  have inRange : id < first.size := by
    rw [← relinked.size_eq]
    exact (Array.getElem?_eq_some_iff.mp held).1
  obtain ⟨original, originalHeld⟩ : ∃ original, first.get? id = some original :=
    ⟨_, Array.getElem?_eq_getElem inRange⟩
  obtain ⟨children, newHeld, forward⟩ := relinked.node id original originalHeld
  obtain rfl : node = original.withChildren children :=
    Option.some.inj (held.symm.trans newHeld)
  have same : children.length = original.children.length := forward.length_eq.symm
  refine ⟨original.children, ?_, ?_⟩
  · rw [Node.withChildren_withChildren (Node.fits_of_length same) (Node.fits_of_length rfl),
      Node.withChildren_children]
    exact originalHeld
  · rw [Node.children_withChildren (Node.fits_of_length same)]
    exact forward

/-- A binding is still followed by something that followed it at first. -/
theorem Relinked.next (relinked : Relinked first tree) {id value next : TermId} {name : String}
    (held : tree.get? id = some (.letIn name value next)) :
    Relation.TransGen first.IsNext id next := by
  obtain ⟨children, firstHeld, forward⟩ := relinked.first_node held
  obtain ⟨firstValue, rest, -, restForward, rfl⟩ := List.forall₂_cons_right_iff.mp forward
  obtain ⟨firstNext, others, nextForward, noOthers, rfl⟩ :=
    List.forall₂_cons_right_iff.mp restForward
  obtain rfl := List.forall₂_nil_right_iff.mp noOthers
  exact Relation.TransGen.head' ⟨name, firstValue, firstHeld⟩ nextForward

/-! ### Elimination moves links forward -/

theorem forward_trans {ids others last : List TermId}
    (start : List.Forall₂ first.Continues ids others)
    (rest : List.Forall₂ first.Continues others last) :
    List.Forall₂ first.Continues ids last := by
  induction start generalizing last with
  | nil => exact rest
  | cons head tail inductionHypothesis =>
    obtain ⟨lastHead, lastTail, lastForward, restForward, rfl⟩ := List.forall₂_cons_left_iff.mp rest
    exact .cons (head.trans lastForward) (inductionHypothesis restForward)

/-- Replacing the node at an id by the first one with later links keeps the tree relinked. -/
theorem Relinked.set (relinked : Relinked first tree) {id : TermId} {node : Node}
    {originals children : List TermId} (held : first.get? id = some (node.withChildren originals))
    (same : originals.length = node.children.length)
    (forward : List.Forall₂ first.Continues originals children) {root : TermId} :
    Relinked first ⟨tree.nodes.setIfInBounds id (node.withChildren children), root⟩ where
  size_eq := by
    rw [← relinked.size_eq]
    exact Array.size_setIfInBounds
  node other original otherHeld := by
    by_cases sameId : id = other
    · subst sameId
      obtain rfl : node.withChildren originals = original :=
        Option.some.inj (held.symm.trans otherHeld)
      have inRange : id < tree.nodes.size := by
        have inFirst : id < first.size := (Array.getElem?_eq_some_iff.mp held).1
        rwa [← relinked.size_eq] at inFirst
      refine ⟨children, ?_, ?_⟩
      · rw [get?, Array.getElem?_setIfInBounds_self_of_lt inRange,
          Node.withChildren_withChildren (Node.fits_of_length same)
            (Node.fits_of_length (forward.length_eq.symm.trans same))]
      · rw [Node.children_withChildren (Node.fits_of_length same)]
        exact forward
    · obtain ⟨current, currentHeld, currentForward⟩ := relinked.node other original otherHeld
      refine ⟨current, ?_, currentForward⟩
      rw [get?, Array.getElem?_setIfInBounds_ne sameId]
      exact currentHeld

end TermTree

namespace Pruning

/-- The arena of a removal; its root is of no importance. -/
def tree (pruning : Pruning) : TermTree :=
  ⟨pruning.nodes, 0⟩

open TermTree

variable {first : TermTree}

/-- A removal on several ids keeps what it keeps on each of them. -/
theorem each_relinked {step : TermId → Pruning → TermId × Pruning}
    (keeps : ∀ id pruning, Relinked first pruning.tree →
      first.Continues id (step id pruning).1 ∧ Relinked first (step id pruning).2.tree)
    (ids : List TermId) (pruning : Pruning) (relinked : Relinked first pruning.tree) :
    List.Forall₂ first.Continues ids (each step ids pruning).1 ∧
      Relinked first (each step ids pruning).2.tree := by
  induction ids generalizing pruning with
  | nil => exact ⟨.nil, relinked⟩
  | cons id ids inductionHypothesis =>
    obtain ⟨headForward, headRelinked⟩ := keeps id pruning relinked
    obtain ⟨tailForward, tailRelinked⟩ := inductionHypothesis _ headRelinked
    exact ⟨.cons headForward tailForward, tailRelinked⟩

theorem relink_relinked {step : TermId → Pruning → TermId × Pruning}
    (keeps : ∀ id pruning, Relinked first pruning.tree →
      first.Continues id (step id pruning).1 ∧ Relinked first (step id pruning).2.tree)
    {id : TermId} {node : Node} {pruning : Pruning} (relinked : Relinked first pruning.tree)
    (held : pruning.nodes[id]? = some node) :
    Relinked first (relink step id node pruning).2.tree := by
  obtain ⟨originals, firstHeld, forward⟩ := relinked.first_node held
  obtain ⟨stepForward, stepRelinked⟩ := each_relinked keeps node.children pruning relinked
  exact stepRelinked.set firstHeld forward.length_eq (forward_trans forward stepForward)

/-- Removing dead bindings at an id moves forward from it, and moves links forward below it. -/
theorem splice_relinked (depth : Nat) (id : TermId) (pruning : Pruning)
    (relinked : Relinked first pruning.tree) :
    first.Continues id (splice depth id pruning).1 ∧
      Relinked first (splice depth id pruning).2.tree := by
  induction depth generalizing id pruning with
  | zero => exact ⟨.refl, relinked⟩
  | succ depth inductionHypothesis =>
    rw [splice]
    split
    · exact ⟨.refl, relinked⟩
    · rename_i name value next held
      split
      · obtain ⟨forward, rest⟩ := inductionHypothesis next (pruning.remove name value) relinked
        exact ⟨(relinked.next held).to_reflTransGen.trans forward, rest⟩
      · exact ⟨.refl, relink_relinked inductionHypothesis relinked held⟩
    · rename_i held
      exact ⟨.refl, relink_relinked inductionHypothesis relinked held⟩

end Pruning

namespace TermTree

variable {first tree : TermTree} {term : Term}

theorem Relinked.eliminate (relinked : Relinked first tree) :
    first.Continues tree.root tree.eliminate.1.root ∧ Relinked first tree.eliminate.1 := by
  rw [TermTree.eliminate]
  split
  · exact ⟨.refl, relinked⟩
  · obtain ⟨forward, rest⟩ := Pruning.splice_relinked (tree.size + 1) tree.root
      ⟨tree.nodes, (Liveness.ofTree tree).deadNames, []⟩ ⟨relinked.size_eq, relinked.node⟩
    exact ⟨forward, rest.size_eq, rest.node⟩

/-! ### Sessions -/

/-- The trees that a term is brought into by eliminations and by moves of the root to an id of the
arena, in any number and order. -/
inductive Reached (term : Term) : TermTree → Prop where
  | laidOut : Reached term (ofTerm term)
  | rooted {tree : TermTree} {id : TermId} (before : Reached term tree) (inRange : id < tree.size) :
      Reached term { tree with root := id }
  | eliminated {tree : TermTree} (before : Reached term tree) : Reached term tree.eliminate.1

/-- Every id of a fresh arena unfolds, and its ids are all different. -/
theorem unfolds_ofTerm (term : Term) {id : TermId} (inRange : id < (ofTerm term).size) :
    ∃ unfolding, (ofTerm term).Unfolds unfolding ∧ unfolding.id = id ∧ unfolding.ids.Nodup := by
  obtain ⟨whole, unfolds, -, -, ids⟩ := spells_ofTerm term
  have member : id ∈ whole.ids := by
    rw [size_ofTerm] at inRange
    rw [ids, List.mem_range'_1, Nat.zero_add]
    exact ⟨Nat.zero_le _, inRange⟩
  obtain ⟨inner, innerUnfolds, innerId, shorter⟩ := unfolds.inside member
  refine ⟨inner, innerUnfolds, innerId, shorter.nodup ?_⟩
  rw [ids]
  exact List.nodup_range'

/-- Links that moved forward lead to unfoldings whose ids lie among the earlier ones. -/
theorem unfolds_forward {parts : List Unfolding} {children : List TermId}
    (each : ∀ part ∈ parts, ∀ id, first.Continues part.id id →
      ∃ later, tree.Unfolds later ∧ later.id = id ∧ later.ids.Sublist part.ids)
    (forward : List.Forall₂ first.Continues (parts.map Unfolding.id) children) :
    ∃ laterParts : List Unfolding, (∀ part ∈ laterParts, tree.Unfolds part) ∧
      laterParts.map Unfolding.id = children ∧
      (laterParts.flatMap Unfolding.ids).Sublist (parts.flatMap Unfolding.ids) := by
  induction parts generalizing children with
  | nil =>
    obtain rfl := List.forall₂_nil_left_iff.mp forward
    exact ⟨[], by simp⟩
  | cons part parts inductionHypothesis =>
    obtain ⟨child, others, childForward, othersForward, rfl⟩ :=
      List.forall₂_cons_left_iff.mp forward
    obtain ⟨later, laterUnfolds, rfl, shorter⟩ := each part List.mem_cons_self child childForward
    obtain ⟨laterParts, partsUnfold, rfl, partsShorter⟩ := inductionHypothesis
      (fun part member => each part (List.mem_cons_of_mem _ member)) othersForward
    exact ⟨later :: laterParts, by simpa using ⟨laterUnfolds, partsUnfold⟩, rfl,
      shorter.append partsShorter⟩

/-- What an id, or something that follows it, unfolds to after links moved has its ids among those
that the id unfolded to before, in the same order. -/
theorem Relinked.unfolds (relinked : Relinked first tree) {unfolding : Unfolding}
    (unfolds : first.Unfolds unfolding) {id : TermId} (forward : first.Continues unfolding.id id) :
    ∃ later, tree.Unfolds later ∧ later.id = id ∧ later.ids.Sublist unfolding.ids := by
  induction unfolds generalizing id with
  | @intro top node parts held linked below inductionHypothesis =>
    rcases forward.cases_head with rfl | ⟨next, ⟨name, value, nextHeld⟩, rest⟩
    · obtain ⟨children, newHeld, childrenForward⟩ := relinked.node _ node held
      have same : children.length = node.children.length := childrenForward.length_eq.symm
      rw [linked] at childrenForward
      obtain ⟨laterParts, laterUnfolds, rfl, shorter⟩ :=
        unfolds_forward (fun part member _ => inductionHypothesis part member) childrenForward
      refine ⟨.mk top _ laterParts, ⟨newHeld, ?_, laterUnfolds⟩, rfl, ?_⟩
      · rw [Node.children_withChildren (Node.fits_of_length same)]
      · simpa using shorter
    · obtain rfl : node = .letIn name value next := Option.some.inj (held.symm.trans nextHeld)
      obtain ⟨valuePart, nextPart, rfl, -, rfl⟩ := Unfolding.eq_pair linked
      have isPart : nextPart ∈ [valuePart, nextPart] := by simp
      obtain ⟨later, laterUnfolds, laterId, shorter⟩ := inductionHypothesis nextPart isPart rest
      exact ⟨later, laterUnfolds, laterId, shorter.trans (Unfolding.ids_part_sublist isPart)⟩

/-- Throughout a session links only move forward, and the root stays in the arena. -/
theorem Reached.relinked (reached : Reached term tree) :
    Relinked (ofTerm term) tree ∧ tree.root < tree.size := by
  induction reached with
  | laidOut =>
    refine ⟨.refl _, ?_⟩
    rw [size_ofTerm]
    exact term.size_pos
  | rooted before inRange inductionHypothesis =>
    exact ⟨⟨inductionHypothesis.1.size_eq, inductionHypothesis.1.node⟩, inRange⟩
  | eliminated before inductionHypothesis =>
    obtain ⟨relinked, inRange⟩ := inductionHypothesis
    obtain ⟨forward, laterRelinked⟩ := relinked.eliminate
    rw [relinked.size_eq] at inRange
    obtain ⟨unfolding, unfolds, id, -⟩ := unfolds_ofTerm term inRange
    rw [← id] at forward
    obtain ⟨later, laterUnfolds, laterId, -⟩ := laterRelinked.unfolds unfolds forward
    refine ⟨laterRelinked, ?_⟩
    rw [← laterId]
    exact laterUnfolds.lt_size later.id_mem_ids

/-- At every moment of a session every id of the arena unfolds, and its ids are all different. -/
theorem Reached.unfolds_at (reached : Reached term tree) {id : TermId}
    (inRange : id < tree.size) :
    ∃ unfolding, tree.Unfolds unfolding ∧ unfolding.id = id ∧ unfolding.ids.Nodup := by
  have relinked := reached.relinked.1
  rw [relinked.size_eq] at inRange
  obtain ⟨unfolding, unfolds, rfl, distinct⟩ := unfolds_ofTerm term inRange
  obtain ⟨later, laterUnfolds, laterId, shorter⟩ := relinked.unfolds unfolds .refl
  exact ⟨later, laterUnfolds, laterId, shorter.nodup distinct⟩

/-- At every moment of a session the root unfolds, and its ids are all different. -/
theorem Reached.unfolds (reached : Reached term tree) :
    ∃ unfolding, tree.Unfolds unfolding ∧ unfolding.id = tree.root ∧ unfolding.ids.Nodup :=
  reached.unfolds_at reached.relinked.2

/-- The trees that a term is brought into by moves of the root to any id, in the arena or not, and
by eliminations that start while the root is in the arena. -/
inductive Rerooted (term : Term) : TermTree → Prop where
  | laidOut : Rerooted term (ofTerm term)
  | rooted {tree : TermTree} (before : Rerooted term tree) (id : TermId) :
      Rerooted term { tree with root := id }
  | eliminated {tree : TermTree} (before : Rerooted term tree) (inRange : tree.root < tree.size) :
      Rerooted term tree.eliminate.1

/-- With a root in the arena, such a tree is one that never left the arena. -/
theorem Rerooted.reached (rerooted : Rerooted term tree) {id : TermId} (inRange : id < tree.size) :
    Reached term { tree with root := id } := by
  induction rerooted generalizing id with
  | laidOut => exact .rooted .laidOut inRange
  | rooted _ _ inductionHypothesis => exact inductionHypothesis inRange
  | eliminated _ rootInRange inductionHypothesis =>
    exact .rooted (.eliminated (inductionHypothesis rootInRange)) inRange

end TermTree

end TreeScript
