/-
This file says where an id stands. The trail from a start to an id is the list of
the ids around it, the innermost first, as the links of the arena lead to it.
Trails grow at their inner end by definition; seen from the start they go through
one part of it, which is how they follow an unfolding.

Where the ids of an unfolding are all different there is exactly one trail to each
of them and none to any other id. What surrounds an id, and so which binder a
variable refers to, is then a function of the id.
-/

import TreeScript.Proofs.Arena.Unfolding
import Mathlib.Data.List.Nodup
import Mathlib.Data.List.Pairwise

namespace TreeScript

namespace Node

/-- Whether a node introduces a name for the terms inside it: a binding does so for its value and
for what follows it, a function for its body. -/
def binds (name : String) : Node → Bool
  | letIn bound _ _ => bound == name
  | function parameters _ => parameters.contains name
  | _ => false

theorem binds_withChildren (name : String) (node : Node) (ids : List TermId) :
    (node.withChildren ids).binds name = node.binds name := by
  fun_cases withChildren node ids <;> rfl

end Node

namespace Unfolding

/-- The ids of an unfolding in order, each with the ids around it; `around` is around all of
them. -/
def trails (around : List TermId) : Unfolding → List (TermId × List TermId)
  | mk id _ parts => (id, around) :: parts.flatMap (trails (id :: around))

theorem trails_mk (around : List TermId) (id : TermId) (node : Node) (parts : List Unfolding) :
    (mk id node parts).trails around = (id, around) :: parts.flatMap (trails (id :: around)) := by
  rw [trails]

end Unfolding

/-- Different parts share no id. -/
theorem Unfolding.eq_of_mem_ids {parts : List Unfolding}
    (distinct : (parts.flatMap Unfolding.ids).Nodup) {part other : Unfolding}
    (member : part ∈ parts) (otherMember : other ∈ parts) {id : TermId} (inPart : id ∈ part.ids)
    (inOther : id ∈ other.ids) : part = other := by
  by_contra different
  have symmetric : Std.Symm (Function.onFun List.Disjoint Unfolding.ids) :=
    ⟨fun _ _ apart _ inSecond inFirst => apart inFirst inSecond⟩
  exact (List.nodup_flatMap.mp distinct).2.forall member otherMember different inPart inOther

namespace TermTree

/-- The ids around an id, the innermost first, on the way to it from a start. -/
inductive Trail (tree : TermTree) (start : TermId) : TermId → List TermId → Prop where
  | here : Trail tree start start []
  | part {id child : TermId} {around : List TermId} (trail : Trail tree start id around)
      (member : child ∈ tree.children id) : Trail tree start child (id :: around)

/-- Whether the node at an id introduces a name. -/
def binds (tree : TermTree) (name : String) (id : TermId) : Bool :=
  (tree.get? id).any (Node.binds name)

/-- A variable refers to a binder, or to none: the innermost node around it that introduces its
name. -/
def Resolves (tree : TermTree) (id : TermId) (binder : Option TermId) : Prop :=
  ∃ name around, tree.get? id = some (.var name) ∧ tree.Trail tree.root id around ∧
    around.find? (tree.binds name) = binder

/-- Every linked variable refers to a binder. -/
def Closed (tree : TermTree) : Prop :=
  ∀ id ∈ tree.reachable, ∀ name, tree.get? id = some (.var name) →
    ∃ binder, tree.Resolves id (some binder)

variable {tree : TermTree} {unfolding : Unfolding}

namespace Trail

theorem inPart {start child id : TermId} {around : List TermId}
    (trail : tree.Trail child id around) (member : child ∈ tree.children start) :
    tree.Trail start id (around ++ [start]) := by
  induction trail with
  | here => exact .part .here member
  | part _ inner inductionHypothesis => exact .part inductionHypothesis inner

/-- A trail ends where it starts, or it goes on in one part of the start. -/
theorem eq_here_or_inPart {start id : TermId} {around : List TermId}
    (trail : tree.Trail start id around) :
    (id = start ∧ around = []) ∨
      ∃ child ∈ tree.children start, ∃ inner, tree.Trail child id inner ∧
        around = inner ++ [start] := by
  induction trail with
  | here => exact Or.inl ⟨rfl, rfl⟩
  | @part id child around _ member inductionHypothesis =>
    right
    rcases inductionHypothesis with ⟨rfl, rfl⟩ | ⟨first, firstMember, inner, innerTrail, rfl⟩
    · exact ⟨child, member, [], .here, rfl⟩
    · exact ⟨first, firstMember, id :: inner, .part innerTrail member, rfl⟩

/-- The trails of an unfolding: the empty one to its own id, and those through its parts. -/
theorem unfolding_cases {id top : TermId} {node : Node} {parts : List Unfolding}
    (unfolds : tree.Unfolds (.mk top node parts)) {around : List TermId}
    (trail : tree.Trail top id around) :
    (id = top ∧ around = []) ∨
      ∃ part ∈ parts, ∃ inner, tree.Trail part.id id inner ∧ around = inner ++ [top] := by
  rcases trail.eq_here_or_inPart with here | ⟨child, member, inner, innerTrail, rfl⟩
  · exact Or.inl here
  · have children : tree.children top = parts.map Unfolding.id := unfolds.children
    rw [children] at member
    obtain ⟨part, partMember, rfl⟩ := List.mem_map.mp member
    exact Or.inr ⟨part, partMember, inner, innerTrail, rfl⟩

theorem ofPart {id top : TermId} {node : Node} {parts : List Unfolding}
    (unfolds : tree.Unfolds (.mk top node parts)) {part : Unfolding} (member : part ∈ parts)
    {around : List TermId} (trail : tree.Trail part.id id around) :
    tree.Trail top id (around ++ [top]) := by
  have children : tree.children top = parts.map Unfolding.id := unfolds.children
  refine trail.inPart ?_
  rw [children]
  exact List.mem_map_of_mem member

end Trail

/-- The ids of an unfolding are those to which a trail leads. -/
theorem Unfolds.mem_ids_iff (unfolds : tree.Unfolds unfolding) {id : TermId} :
    id ∈ unfolding.ids ↔ ∃ around, tree.Trail unfolding.id id around := by
  induction unfolds with
  | @intro top node parts held linked below inductionHypothesis =>
    have whole : tree.Unfolds (.mk top node parts) := ⟨held, linked, below⟩
    rw [Unfolding.ids_mk, List.mem_cons, List.mem_flatMap]
    constructor
    · rintro (rfl | ⟨part, member, inPart⟩)
      · exact ⟨[], .here⟩
      · obtain ⟨around, trail⟩ := (inductionHypothesis part member).mp inPart
        exact ⟨around ++ [top], trail.ofPart whole member⟩
    · rintro ⟨around, trail⟩
      rcases trail.unfolding_cases whole with ⟨same, -⟩ | ⟨part, member, inner, innerTrail, -⟩
      · exact Or.inl same
      · exact Or.inr ⟨part, member, (inductionHypothesis part member).mpr ⟨inner, innerTrail⟩⟩

/-- Where ids are all different, only one trail leads to each. -/
theorem Unfolds.trail_unique (unfolds : tree.Unfolds unfolding) (distinct : unfolding.ids.Nodup)
    {id : TermId} {around others : List TermId} (trail : tree.Trail unfolding.id id around)
    (other : tree.Trail unfolding.id id others) : around = others := by
  induction unfolds generalizing around others with
  | @intro top node parts held linked below inductionHypothesis =>
    have whole : tree.Unfolds (.mk top node parts) := ⟨held, linked, below⟩
    rw [Unfolding.ids_mk, List.nodup_cons] at distinct
    obtain ⟨outside, partsDistinct⟩ := distinct
    have inside {part : Unfolding} (member : part ∈ parts) {inner : List TermId}
        (innerTrail : tree.Trail part.id id inner) : id ∈ part.ids :=
      (below part member).mem_ids_iff.mpr ⟨inner, innerTrail⟩
    rcases trail.unfolding_cases whole with ⟨rfl, rfl⟩ | ⟨part, member, inner, innerTrail, rfl⟩
    · rcases other.unfolding_cases whole with ⟨-, rfl⟩ | ⟨part, member, inner, innerTrail, rfl⟩
      · rfl
      · exact absurd (List.mem_flatMap.mpr ⟨part, member, inside member innerTrail⟩) outside
    · rcases other.unfolding_cases whole with ⟨rfl, rfl⟩ | ⟨second, secondMember, secondInner,
        secondTrail, rfl⟩
      · exact absurd (List.mem_flatMap.mpr ⟨part, member, inside member innerTrail⟩) outside
      · obtain rfl := Unfolding.eq_of_mem_ids partsDistinct member secondMember
          (inside member innerTrail) (inside secondMember secondTrail)
        rw [inductionHypothesis part member
          ((Unfolding.ids_sublist_flatMap member).nodup partsDistinct) innerTrail secondTrail]

theorem Unfolds.map_fst_trails (unfolds : tree.Unfolds unfolding) (around : List TermId) :
    (unfolding.trails around).map Prod.fst = unfolding.ids := by
  induction unfolds generalizing around with
  | @intro id node parts held linked below inductionHypothesis =>
    rw [Unfolding.trails_mk, Unfolding.ids_mk, List.map_cons, List.map_flatMap]
    exact congrArg (id :: ·) (List.flatMap_congr fun part member =>
      inductionHypothesis part member (id :: around))

theorem Unfolds.trail_of_mem_trails (unfolds : tree.Unfolds unfolding) {around full : List TermId}
    {id : TermId} (member : (id, full) ∈ unfolding.trails around) :
    ∃ inner, tree.Trail unfolding.id id inner ∧ full = inner ++ around := by
  induction unfolds generalizing around with
  | @intro top node parts held linked below inductionHypothesis =>
    rw [Unfolding.trails_mk, List.mem_cons, List.mem_flatMap] at member
    rcases member with isTop | ⟨part, partMember, inPart⟩
    · cases isTop
      exact ⟨[], .here, rfl⟩
    · obtain ⟨inner, trail, rfl⟩ := inductionHypothesis part partMember inPart
      exact ⟨inner ++ [top], trail.ofPart ⟨held, linked, below⟩ partMember, by simp⟩

/-- A linked variable refers to something. -/
theorem exists_resolves (unfolds : tree.Unfolds unfolding) (rooted : unfolding.id = tree.root)
    (distinct : unfolding.ids.Nodup) {id : TermId} {name : String} (linked : id ∈ tree.reachable)
    (held : tree.get? id = some (.var name)) : ∃ binder, tree.Resolves id binder := by
  rw [reachable_eq_ids unfolds rooted distinct] at linked
  obtain ⟨around, trail⟩ := unfolds.mem_ids_iff.mp linked
  rw [rooted] at trail
  exact ⟨_, name, around, held, trail, rfl⟩

/-- It refers to one binder only, or to none. -/
theorem Resolves.unique (unfolds : tree.Unfolds unfolding) (rooted : unfolding.id = tree.root)
    (distinct : unfolding.ids.Nodup) {id : TermId} {binder other : Option TermId}
    (resolves : tree.Resolves id binder) (otherResolves : tree.Resolves id other) :
    binder = other := by
  obtain ⟨name, around, held, trail, rfl⟩ := resolves
  obtain ⟨otherName, others, otherHeld, otherTrail, rfl⟩ := otherResolves
  rw [← rooted] at trail otherTrail
  rw [held] at otherHeld
  cases otherHeld
  rw [unfolds.trail_unique distinct trail otherTrail]

end TermTree

end TreeScript
