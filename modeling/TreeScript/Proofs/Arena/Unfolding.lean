/-
This file writes out what an arena holds. An arena keeps a term as nodes that
refer to each other by id, and every pass over it follows those ids for a
bounded number of steps. The unfolding of an arena at an id is the tree that
such a pass goes through: the id, its node, and the unfoldings of its parts.

An arena holds at most one unfolding at an id. Once it is known, the bounds
disappear: reading a term back gives the term that the unfolding spells, and the
walk over the stack lists its ids in the order in which they are written down.
Both need as many steps as there are ids, and ids that are all different are no
more than the nodes of the arena.
-/

import TreeScript.Arena.Tree
import Mathlib.Data.List.Perm.Subperm

namespace TreeScript

/-- What an arena holds at an id, with everything below it written out. -/
inductive Unfolding where
  | mk (id : TermId) (node : Node) (parts : List Unfolding)

namespace Node

/-- The term of a node whose parts are the given terms. A node that does not have that many parts
stands for nothing. -/
def assemble : Node → List Term → Term
  | letIn name _ _, [value, next] => .letIn name value next
  | function parameters _, [body] => .function parameters body
  | ifElse _ _ _, [condition, consequent, alternative] =>
    .ifElse condition consequent alternative
  | print _, [value] => .print value
  | call _ _, callee :: arguments => .call callee arguments
  | var name, [] => .var name
  | int value, [] => .int value
  | str value, [] => .str value
  | bool value, [] => .bool value
  | binary op _ _, [lhs, rhs] => .binary op lhs rhs
  | tuple _ _, [left, right] => .tuple left right
  | first _, [value] => .first value
  | second _, [value] => .second value
  | _, _ => .bool false

/-- A list has one entry for each part of a node. -/
inductive Fits {α : Type} : Node → List α → Prop where
  | letIn (name : String) (value next : TermId) (a b : α) : Fits (letIn name value next) [a, b]
  | function (parameters : List String) (body : TermId) (a : α) :
      Fits (function parameters body) [a]
  | ifElse (condition consequent alternative : TermId) (a b c : α) :
      Fits (ifElse condition consequent alternative) [a, b, c]
  | print (value : TermId) (a : α) : Fits (print value) [a]
  | call (callee : TermId) {arguments : List TermId} (a : α) {others : List α}
      (same : others.length = arguments.length) : Fits (call callee arguments) (a :: others)
  | var (name : String) : Fits (var name) []
  | int (value : Int64) : Fits (int value) []
  | str (value : String) : Fits (str value) []
  | bool (value : Bool) : Fits (bool value) []
  | binary (op : BinaryOp) (lhs rhs : TermId) (a b : α) : Fits (binary op lhs rhs) [a, b]
  | tuple (first second : TermId) (a b : α) : Fits (tuple first second) [a, b]
  | first (value : TermId) (a : α) : Fits (first value) [a]
  | second (value : TermId) (a : α) : Fits (second value) [a]

theorem fits_of_length {α : Type} {node : Node} {entries : List α}
    (same : entries.length = node.children.length) : node.Fits entries := by
  cases node with
  | letIn | binary | tuple =>
    obtain ⟨left, right, rfl⟩ := List.length_eq_two.mp same
    constructor
  | ifElse =>
    obtain ⟨condition, consequent, alternative, rfl⟩ := List.length_eq_three.mp same
    constructor
  | function | print | first | second =>
    obtain ⟨value, rfl⟩ := List.length_eq_one_iff.mp same
    constructor
  | call =>
    obtain ⟨callee, arguments, rfl⟩ := List.exists_cons_of_length_eq_add_one same
    exact .call _ _ (Nat.succ.inj same)
  | var | int | str | bool =>
    cases List.length_eq_zero_iff.mp same
    constructor

theorem children_withChildren {node : Node} {ids : List TermId} (fits : node.Fits ids) :
    (node.withChildren ids).children = ids := by
  cases fits with
  | call callee newCallee same =>
    rw [withChildren, if_pos same]
    rfl
  | _ => rfl

/-- Other parts do not change what a node makes of terms. -/
theorem assemble_withChildren {node : Node} {ids : List TermId} {terms : List Term}
    (fits : node.Fits ids) (filled : node.Fits terms) :
    (node.withChildren ids).assemble terms = node.assemble terms := by
  cases fits with
  | call callee newCallee same =>
    cases filled
    rw [withChildren, if_pos same]
    rfl
  | _ =>
    cases filled
    rfl

end Node

namespace Unfolding

def id : Unfolding → TermId
  | mk id _ _ => id

def node : Unfolding → Node
  | mk _ node _ => node

def parts : Unfolding → List Unfolding
  | mk _ _ parts => parts

/-- The ids of an unfolding, each before those of its parts. -/
def ids : Unfolding → List TermId
  | mk id _ parts => id :: parts.flatMap ids

/-- The term that an unfolding spells. -/
def term : Unfolding → Term
  | mk _ node parts => node.assemble (parts.map term)

@[simp]
theorem id_mk (id : TermId) (node : Node) (parts : List Unfolding) : (mk id node parts).id = id :=
  rfl

@[simp]
theorem parts_mk (id : TermId) (node : Node) (parts : List Unfolding) :
    (mk id node parts).parts = parts := rfl

@[simp]
theorem ids_mk (id : TermId) (node : Node) (parts : List Unfolding) :
    (mk id node parts).ids = id :: parts.flatMap ids := by
  rw [ids]

@[simp]
theorem term_mk (id : TermId) (node : Node) (parts : List Unfolding) :
    (mk id node parts).term = node.assemble (parts.map term) := by
  rw [term]

theorem id_mem_ids (unfolding : Unfolding) : unfolding.id ∈ unfolding.ids := by
  cases unfolding
  simp

theorem ids_sublist_flatMap {part : Unfolding} {parts : List Unfolding} (member : part ∈ parts) :
    part.ids.Sublist (parts.flatMap ids) := by
  obtain ⟨before, after, rfl⟩ := List.append_of_mem member
  rw [List.flatMap_append, List.flatMap_cons]
  exact (List.sublist_append_left _ _).trans (List.sublist_append_right _ _)

theorem ids_part_sublist {part : Unfolding} {id : TermId} {node : Node} {parts : List Unfolding}
    (member : part ∈ parts) : part.ids.Sublist (mk id node parts).ids := by
  rw [ids_mk]
  exact (ids_sublist_flatMap member).cons _

theorem length_ids_part_lt {part : Unfolding} {id : TermId} {node : Node}
    {parts : List Unfolding} (member : part ∈ parts) :
    part.ids.length < (mk id node parts).ids.length := by
  rw [ids_mk, List.length_cons]
  exact Nat.lt_succ_of_le (ids_sublist_flatMap member).length_le

/-! Lists of parts with one, two and three ids. -/

theorem eq_single {parts : List Unfolding} {id : TermId} (linked : [id] = parts.map Unfolding.id) :
    ∃ part, parts = [part] ∧ part.id = id := by
  obtain ⟨part, others, rfl, same, none⟩ := List.map_eq_cons_iff.mp linked.symm
  exact ⟨part, by rw [List.map_eq_nil_iff.mp none], same⟩

theorem eq_pair {parts : List Unfolding} {first second : TermId}
    (linked : [first, second] = parts.map Unfolding.id) :
    ∃ left right, parts = [left, right] ∧ left.id = first ∧ right.id = second := by
  obtain ⟨left, others, rfl, same, rest⟩ := List.map_eq_cons_iff.mp linked.symm
  obtain ⟨right, rfl, sameRight⟩ := eq_single rest.symm
  exact ⟨left, right, rfl, same, sameRight⟩

theorem eq_triple {parts : List Unfolding} {first second third : TermId}
    (linked : [first, second, third] = parts.map Unfolding.id) :
    ∃ left middle right, parts = [left, middle, right] ∧ left.id = first ∧ middle.id = second ∧
      right.id = third := by
  obtain ⟨left, others, rfl, same, rest⟩ := List.map_eq_cons_iff.mp linked.symm
  obtain ⟨middle, right, rfl, sameMiddle, sameRight⟩ := eq_pair rest.symm
  exact ⟨left, middle, right, rfl, same, sameMiddle, sameRight⟩

end Unfolding

namespace TermTree

/-- An arena holds an unfolding when every id of it has its node, and that node refers to the
parts by their ids. -/
inductive Unfolds (tree : TermTree) : Unfolding → Prop where
  | intro {id : TermId} {node : Node} {parts : List Unfolding} (held : tree.get? id = some node)
      (linked : node.children = parts.map Unfolding.id)
      (below : ∀ part ∈ parts, tree.Unfolds part) : tree.Unfolds (.mk id node parts)

variable {tree : TermTree} {unfolding : Unfolding}

namespace Unfolds

theorem get? (unfolds : tree.Unfolds unfolding) :
    tree.get? unfolding.id = some unfolding.node := by
  obtain ⟨held, -, -⟩ := unfolds
  exact held

theorem children (unfolds : tree.Unfolds unfolding) :
    tree.children unfolding.id = unfolding.parts.map Unfolding.id := by
  obtain ⟨held, linked, -⟩ := unfolds
  rw [Unfolding.id_mk, TermTree.children, held]
  exact linked

theorem part (unfolds : tree.Unfolds unfolding) {part : Unfolding}
    (member : part ∈ unfolding.parts) : tree.Unfolds part := by
  obtain ⟨-, -, below⟩ := unfolds
  exact below part member

/-- Each id of an unfolding has an unfolding of its own inside it. -/
theorem inside (unfolds : tree.Unfolds unfolding) {id : TermId} (member : id ∈ unfolding.ids) :
    ∃ inner, tree.Unfolds inner ∧ inner.id = id ∧ inner.ids.Sublist unfolding.ids := by
  induction unfolds with
  | @intro top node parts held linked below inductionHypothesis =>
    rw [Unfolding.ids_mk, List.mem_cons, List.mem_flatMap] at member
    rcases member with rfl | ⟨part, partMember, idMember⟩
    · exact ⟨_, ⟨held, linked, below⟩, rfl, List.Sublist.refl _⟩
    · obtain ⟨inner, innerUnfolds, innerId, shorter⟩ := inductionHypothesis part partMember idMember
      exact ⟨inner, innerUnfolds, innerId, shorter.trans (Unfolding.ids_part_sublist partMember)⟩

/-- Only the nodes at its ids matter for an unfolding. -/
theorem congr (unfolds : tree.Unfolds unfolding) {other : TermTree}
    (same : ∀ id ∈ unfolding.ids, other.get? id = tree.get? id) : other.Unfolds unfolding := by
  induction unfolds with
  | @intro id node parts held linked below inductionHypothesis =>
    simp only [Unfolding.ids_mk, List.mem_cons, List.mem_flatMap] at same
    refine ⟨(same id (Or.inl rfl)).trans held, linked, fun part member => ?_⟩
    exact inductionHypothesis part member
      fun other otherMember => same other (Or.inr ⟨part, member, otherMember⟩)

theorem lt_size (unfolds : tree.Unfolds unfolding) {id : TermId} (member : id ∈ unfolding.ids) :
    id < tree.size := by
  obtain ⟨inner, innerUnfolds, rfl, -⟩ := unfolds.inside member
  exact (Array.getElem?_eq_some_iff.mp innerUnfolds.get?).1

/-- Ids that are all different are no more than the nodes of the arena. -/
theorem length_ids_le (unfolds : tree.Unfolds unfolding) (distinct : unfolding.ids.Nodup) :
    unfolding.ids.length ≤ tree.size := by
  have within : unfolding.ids ⊆ List.range tree.size := fun id member =>
    List.mem_range.mpr (unfolds.lt_size member)
  have count := (List.subperm_of_subset distinct within).length_le
  rwa [List.length_range] at count

end Unfolds

/-! ### Reading back -/

theorem readBack_of_children {depth : Nat} {id : TermId} {node : Node} {terms : List Term}
    (held : tree.get? id = some node)
    (read : node.children.mapM (tree.readBack depth) = some terms) :
    tree.readBack (depth + 1) id = some (node.assemble terms) := by
  rw [readBack, held]
  cases node with
  | letIn | binary | tuple =>
    simp [Node.children, Option.bind_eq_some_iff] at read
    obtain ⟨left, leftRead, right, rightRead, rfl⟩ := read
    simp [leftRead, rightRead, Node.assemble]
  | ifElse =>
    simp [Node.children, Option.bind_eq_some_iff] at read
    obtain ⟨condition, conditionRead, consequent, consequentRead, alternative, alternativeRead,
      rfl⟩ := read
    simp [conditionRead, consequentRead, alternativeRead, Node.assemble]
  | function | print | first | second =>
    simp [Node.children, Option.bind_eq_some_iff] at read
    obtain ⟨value, valueRead, rfl⟩ := read
    simp [valueRead, Node.assemble]
  | call =>
    simp [Node.children, Option.bind_eq_some_iff] at read
    obtain ⟨callee, calleeRead, arguments, argumentsRead, rfl⟩ := read
    simp [calleeRead, argumentsRead, Node.assemble]
  | var | int | str | bool =>
    obtain rfl : [] = terms := by simpa [Node.children] using read
    simp [Node.assemble]

/-- Reading back as many levels as an unfolding has ids gives the term that it spells. -/
theorem readBack_eq_term (unfolds : tree.Unfolds unfolding) {depth : Nat}
    (enough : unfolding.ids.length ≤ depth) :
    tree.readBack depth unfolding.id = some unfolding.term := by
  induction unfolds generalizing depth with
  | @intro id node parts held linked below inductionHypothesis =>
    cases depth with
    | zero => simp at enough
    | succ depth =>
      rw [Unfolding.term_mk]
      refine readBack_of_children held ?_
      rw [linked, List.mapM_map]
      have each : ∀ part ∈ parts, tree.readBack depth part.id = some part.term :=
        fun part member => inductionHypothesis part member
          (Nat.le_of_lt_succ (Nat.lt_of_lt_of_le (Unfolding.length_ids_part_lt member) enough))
      clear linked below inductionHypothesis enough
      induction parts with
      | nil => rfl
      | cons part parts tailHypothesis =>
        simp [each part List.mem_cons_self,
          tailHypothesis fun part member => each part (List.mem_cons_of_mem _ member)]

/-- The term at the root is the one that the unfolding there spells. -/
theorem term?_eq_term (unfolds : tree.Unfolds unfolding) (rooted : unfolding.id = tree.root)
    (distinct : unfolding.ids.Nodup) : tree.term? = some unfolding.term := by
  rw [term?, ← rooted]
  exact readBack_eq_term unfolds (Nat.le_succ_of_le (unfolds.length_ids_le distinct))

/-! ### Walking -/

/-- A walk over a stack visits the unfoldings on it one after the other. -/
theorem walk_eq_flatMap_ids {visits : Nat} (stack : List Unfolding)
    (unfolds : ∀ unfolding ∈ stack, tree.Unfolds unfolding)
    (enough : (stack.flatMap Unfolding.ids).length ≤ visits) :
    tree.walk visits (stack.map Unfolding.id) = stack.flatMap Unfolding.ids := by
  induction visits generalizing stack with
  | zero =>
    rw [List.length_eq_zero_iff.mp (Nat.le_zero.mp enough), walk]
  | succ visits inductionHypothesis =>
    match stack, unfolds, enough with
    | [], _, _ => rfl
    | .mk id node parts :: stack, unfolds, enough =>
      have top := unfolds _ List.mem_cons_self
      rw [List.map_cons, walk, top.children, Unfolding.parts_mk, ← List.map_append,
        inductionHypothesis (parts ++ stack)]
      · simp
      · intro unfolding member
        rcases List.mem_append.mp member with inParts | inStack
        · exact top.part inParts
        · exact unfolds unfolding (List.mem_cons_of_mem _ inStack)
      · simpa using enough

/-- A walk from one id visits the unfolding there. -/
theorem Unfolds.walk_eq_ids (unfolds : tree.Unfolds unfolding) {visits : Nat}
    (enough : unfolding.ids.length ≤ visits) :
    tree.walk visits [unfolding.id] = unfolding.ids := by
  have walked := walk_eq_flatMap_ids [unfolding] (by simpa using unfolds) (by simpa using enough)
  simpa using walked

/-- The linked ids are those of the unfolding at the root. -/
theorem reachable_eq_ids (unfolds : tree.Unfolds unfolding) (rooted : unfolding.id = tree.root)
    (distinct : unfolding.ids.Nodup) : tree.reachable = unfolding.ids := by
  rw [reachable, ← rooted]
  exact unfolds.walk_eq_ids (Nat.le_succ_of_le (unfolds.length_ids_le distinct))

end TermTree

end TreeScript
