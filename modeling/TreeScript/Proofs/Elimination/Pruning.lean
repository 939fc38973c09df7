/-
This file says what elimination does to a term, without the arena. Pruning an
unfolding goes through it in the order of its ids with the names that are still
dead. A binding of such a name gives way to what follows it, its value is not
looked at, and the name is not dead any more; any other node keeps its id and
gets what remains of its parts. Every binding that goes is reported.

The removal in the arena does exactly that where the ids of the unfolding are all
different: the node of an id is then written only while this id is visited, so
what was pruned before is still there at the end. Everything that is proved about
elimination later follows from the pruning alone.
-/

import TreeScript.Proofs.Arena.Session
import Mathlib.Data.List.Nodup

namespace TreeScript

namespace Unfolding

/-- Whether a print or a call stands outside all functions. -/
def mayHaveEffect : Unfolding → Bool
  | mk _ (.print _) _ => true
  | mk _ (.call ..) _ => true
  | mk _ (.function ..) _ => false
  | mk _ _ parts => (parts.map mayHaveEffect).or

/-- What is reported when a binding with this value goes. -/
def warning (value : Unfolding) (name : String) : Warning :=
  ⟨if value.mayHaveEffect then .discardedEffect else .unused, name, none⟩

mutual

/-- Pruning an unfolding with some dead names gives another one, leaves some names dead, and
reports the bindings that went. -/
inductive Prunes : List String → Unfolding → Unfolding → List String → List Warning → Prop where
  | drop {dead left : List String} {name : String} {id valueId nextId : TermId}
      {value next pruned : Unfolding} {warnings : List Warning} (isDead : name ∈ dead)
      (rest : Prunes (dead.filter (· ≠ name)) next pruned left warnings) :
      Prunes dead (.mk id (.letIn name valueId nextId) [value, next]) pruned left
        (value.warning name :: warnings)
  | keep {dead left : List String} {id : TermId} {node : Node} {parts remaining : List Unfolding}
      {warnings : List Warning}
      (isLive : ∀ name valueId nextId, node = .letIn name valueId nextId → name ∉ dead)
      (each : PrunesAll dead parts remaining left warnings) :
      Prunes dead (.mk id node parts)
        (.mk id (node.withChildren (remaining.map Unfolding.id)) remaining) left warnings

/-- Pruning several unfoldings one after the other. -/
inductive PrunesAll :
    List String → List Unfolding → List Unfolding → List String → List Warning → Prop where
  | nil {dead : List String} : PrunesAll dead [] [] dead []
  | cons {dead between left : List String} {part pruned : Unfolding}
      {parts remaining : List Unfolding} {warnings others : List Warning}
      (head : Prunes dead part pruned between warnings)
      (tail : PrunesAll between parts remaining left others) :
      PrunesAll dead (part :: parts) (pruned :: remaining) left (warnings ++ others)

end

mutual

/-- What remains keeps its ids and their order. -/
theorem Prunes.ids_sublist {dead left : List String} {unfolding pruned : Unfolding}
    {warnings : List Warning} : Prunes dead unfolding pruned left warnings →
    pruned.ids.Sublist unfolding.ids
  | .drop _ rest => rest.ids_sublist.trans (ids_part_sublist (by simp))
  | .keep _ each => by
    rw [ids_mk, ids_mk]
    exact each.ids_sublist.cons_cons _

theorem PrunesAll.ids_sublist {dead left : List String} {parts remaining : List Unfolding}
    {warnings : List Warning} : PrunesAll dead parts remaining left warnings →
    (remaining.flatMap ids).Sublist (parts.flatMap ids)
  | .nil => List.Sublist.refl _
  | .cons head tail => by
    rw [List.flatMap_cons, List.flatMap_cons]
    exact head.ids_sublist.append tail.ids_sublist

end

theorem PrunesAll.length_eq {dead left : List String} {parts remaining : List Unfolding}
    {warnings : List Warning} :
    PrunesAll dead parts remaining left warnings → remaining.length = parts.length
  | .nil => rfl
  | .cons _ tail => congrArg Nat.succ tail.length_eq

theorem prunesAll_nil {parts : List Unfolding}
    (each : ∀ part ∈ parts, Prunes [] part part [] []) : PrunesAll [] parts parts [] [] := by
  induction parts with
  | nil => exact .nil
  | cons part parts inductionHypothesis =>
    exact .cons (each part List.mem_cons_self)
      (inductionHypothesis fun part member => each part (List.mem_cons_of_mem _ member))

/-- Without dead names nothing changes. -/
theorem prunes_nil {tree : TermTree} {unfolding : Unfolding} (unfolds : tree.Unfolds unfolding) :
    Prunes [] unfolding unfolding [] [] := by
  induction unfolds with
  | @intro id node parts held linked below inductionHypothesis =>
    have kept : Prunes [] (.mk id node parts)
        (.mk id (node.withChildren (parts.map Unfolding.id)) parts) [] [] :=
      .keep (by simp) (prunesAll_nil inductionHypothesis)
    rwa [← linked, Node.withChildren_children] at kept

end Unfolding

namespace Pruning

open Unfolding TermTree

/-- The search for effects in an arena finds those of the unfolding. -/
theorem mayHaveEffect_eq {nodes : Array Node} {root : TermId} {unfolding : Unfolding} {depth : Nat}
    (unfolds : TermTree.Unfolds ⟨nodes, root⟩ unfolding)
    (enough : unfolding.ids.length ≤ depth) :
    mayHaveEffect nodes depth unfolding.id = unfolding.mayHaveEffect := by
  induction unfolds generalizing depth with
  | @intro id node parts held linked below inductionHypothesis =>
    cases depth with
    | zero => simp at enough
    | succ depth =>
      have each : node.children.any (mayHaveEffect nodes depth) =
          (parts.map Unfolding.mayHaveEffect).or := by
        have same : parts.map (mayHaveEffect nodes depth ∘ Unfolding.id) =
            parts.map Unfolding.mayHaveEffect := List.map_congr_left fun part member =>
          inductionHypothesis part member
            (Nat.le_of_lt_succ (Nat.lt_of_lt_of_le (length_ids_part_lt member) enough))
        rw [← same, linked, List.or, List.any_map, List.any_map]
        rfl
      have found : nodes[id]? = some node := held
      rw [Unfolding.id_mk, mayHaveEffect, found]
      cases node <;> simp only [Unfolding.mayHaveEffect, each]

/-- The removal at an unfolding has pruned it and has written nothing elsewhere. -/
structure Splices (pruning : Pruning) (unfolding pruned : Unfolding) (result : TermId × Pruning) :
    Prop where
  id_eq : result.1 = pruned.id
  unfolds : result.2.tree.Unfolds pruned
  frame : ∀ id, id ∉ unfolding.ids → result.2.tree.get? id = pruning.tree.get? id
  prunes : ∃ warnings, Prunes pruning.dead unfolding pruned result.2.dead warnings ∧
    result.2.warnings = warnings.reverse ++ pruning.warnings

/-- The same for several unfoldings one after the other. -/
structure SplicesAll (pruning : Pruning) (parts remaining : List Unfolding)
    (result : List TermId × Pruning) : Prop where
  ids_eq : result.1 = remaining.map Unfolding.id
  unfolds : ∀ part ∈ remaining, result.2.tree.Unfolds part
  frame : ∀ id, id ∉ parts.flatMap Unfolding.ids → result.2.tree.get? id = pruning.tree.get? id
  prunes : ∃ warnings, PrunesAll pruning.dead parts remaining result.2.dead warnings ∧
    result.2.warnings = warnings.reverse ++ pruning.warnings

theorem each_cons (step : TermId → Pruning → TermId × Pruning) (id : TermId) (ids : List TermId)
    (pruning : Pruning) :
    each step (id :: ids) pruning =
      ((step id pruning).1 :: (each step ids (step id pruning).2).1,
        (each step ids (step id pruning).2).2) := rfl

theorem relink_eq (step : TermId → Pruning → TermId × Pruning) (id : TermId) (node : Node)
    (pruning : Pruning) :
    relink step id node pruning =
      (id, { (each step node.children pruning).2 with
        nodes := (each step node.children pruning).2.nodes.setIfInBounds id
          (node.withChildren (each step node.children pruning).1) }) := rfl

theorem each_splices {step : TermId → Pruning → TermId × Pruning} {parts : List Unfolding}
    {pruning : Pruning}
    (splices : ∀ part ∈ parts, ∀ pruning : Pruning, pruning.tree.Unfolds part →
      ∃ pruned, Splices pruning part pruned (step part.id pruning))
    (unfolds : ∀ part ∈ parts, pruning.tree.Unfolds part)
    (distinct : (parts.flatMap Unfolding.ids).Nodup) :
    ∃ remaining, SplicesAll pruning parts remaining
      (each step (parts.map Unfolding.id) pruning) := by
  induction parts generalizing pruning with
  | nil => exact ⟨[], rfl, by simp, fun _ _ => rfl, [], .nil, rfl⟩
  | cons part parts inductionHypothesis =>
    rw [List.flatMap_cons, List.nodup_append'] at distinct
    obtain ⟨-, tailDistinct, apart⟩ := distinct
    obtain ⟨pruned, head⟩ :=
      splices part List.mem_cons_self pruning (unfolds part List.mem_cons_self)
    obtain ⟨warnings, headPrunes, headWarnings⟩ := head.prunes
    obtain ⟨remaining, tail⟩ := inductionHypothesis
      (fun part member => splices part (List.mem_cons_of_mem _ member))
      (fun other member => (unfolds other (List.mem_cons_of_mem _ member)).congr
        fun id idMember => head.frame id fun inPart =>
          apart inPart ((ids_sublist_flatMap member).subset idMember))
      tailDistinct
    obtain ⟨others, tailPrunes, tailWarnings⟩ := tail.prunes
    refine ⟨pruned :: remaining, ?_, ?_, ?_, warnings ++ others, .cons headPrunes tailPrunes, ?_⟩
    · rw [List.map_cons, each_cons, head.id_eq, tail.ids_eq, List.map_cons]
    · intro other member
      rcases List.mem_cons.mp member with rfl | inTail
      · exact head.unfolds.congr fun id idMember => tail.frame id fun inParts =>
          apart (headPrunes.ids_sublist.subset idMember) inParts
      · exact tail.unfolds other inTail
    · intro id outside
      rw [List.flatMap_cons, List.mem_append, not_or] at outside
      exact (tail.frame id outside.2).trans (head.frame id outside.1)
    · rw [List.map_cons, each_cons, tailWarnings, headWarnings, List.reverse_append,
        List.append_assoc]

theorem relink_splices {step : TermId → Pruning → TermId × Pruning} {id : TermId} {node : Node}
    {parts : List Unfolding} {pruning : Pruning}
    (splices : ∀ part ∈ parts, ∀ pruning : Pruning, pruning.tree.Unfolds part →
      ∃ pruned, Splices pruning part pruned (step part.id pruning))
    (unfolds : pruning.tree.Unfolds (.mk id node parts))
    (distinct : (Unfolding.mk id node parts).ids.Nodup)
    (isLive : ∀ name value next, node = .letIn name value next → name ∉ pruning.dead) :
    ∃ pruned, Splices pruning (.mk id node parts) pruned (relink step id node pruning) := by
  rw [ids_mk, List.nodup_cons] at distinct
  obtain ⟨outside, partsDistinct⟩ := distinct
  cases unfolds with
  | intro held linked below =>
    obtain ⟨remaining, all⟩ := each_splices splices below partsDistinct
    obtain ⟨warnings, prunes, warned⟩ := all.prunes
    have same : (remaining.map Unfolding.id).length = node.children.length := by
      rw [linked, List.length_map, List.length_map, prunes.length_eq]
    rw [← linked] at all prunes warned
    rw [relink_eq, all.ids_eq]
    -- The node is written after its parts, none of which has its id.
    refine ⟨.mk id (node.withChildren (remaining.map Unfolding.id)) remaining, rfl,
      ⟨?_, Node.children_withChildren (Node.fits_of_length same), ?_⟩, ?_, warnings,
      .keep isLive prunes, warned⟩
    · have unchanged := all.frame id outside
      rw [held] at unchanged
      exact Array.getElem?_setIfInBounds_self_of_lt (Array.getElem?_eq_some_iff.mp unchanged).1
    · intro part member
      refine (all.unfolds part member).congr fun other inPart => ?_
      refine Array.getElem?_setIfInBounds_ne fun same => outside ?_
      rw [same]
      exact prunes.ids_sublist.subset ((ids_sublist_flatMap member).subset inPart)
    · intro other elsewhere
      rw [ids_mk, List.mem_cons, not_or] at elsewhere
      refine Eq.trans ?_ (all.frame other elsewhere.2)
      exact Array.getElem?_setIfInBounds_ne (Ne.symm elsewhere.1)

/-- A binding of a dead name gives way to what its next term is pruned to. -/
theorem remove_splices {pruning : Pruning} {name : String} {id : TermId} {value next : Unfolding}
    {result : TermId × Pruning} (isDead : name ∈ pruning.dead)
    (valueUnfolds : pruning.tree.Unfolds value) (valueDistinct : value.ids.Nodup)
    (rest : ∃ pruned, Splices (pruning.remove name value.id) next pruned result) :
    ∃ pruned, Splices pruning (.mk id (.letIn name value.id next.id) [value, next]) pruned
      result := by
  obtain ⟨pruned, splices⟩ := rest
  obtain ⟨warnings, prunes, warned⟩ := splices.prunes
  have effect : mayHaveEffect pruning.nodes (pruning.nodes.size + 1) value.id =
      value.mayHaveEffect :=
    mayHaveEffect_eq valueUnfolds (Nat.le_succ_of_le (valueUnfolds.length_ids_le valueDistinct))
  refine ⟨pruned, splices.id_eq, splices.unfolds, fun other elsewhere => ?_,
    value.warning name :: warnings, .drop isDead prunes, ?_⟩
  · exact splices.frame other fun inNext => elsewhere (by simp [inNext])
  · rw [warned, remove, effect, List.reverse_cons, List.append_assoc]
    rfl

/-- Removing dead bindings in the arena prunes the unfolding there. -/
theorem splice_splices {depth : Nat} {unfolding : Unfolding} {pruning : Pruning}
    (unfolds : pruning.tree.Unfolds unfolding) (distinct : unfolding.ids.Nodup)
    (enough : unfolding.ids.length ≤ depth) :
    ∃ pruned, Splices pruning unfolding pruned (splice depth unfolding.id pruning) := by
  induction depth generalizing unfolding pruning with
  | zero =>
    have empty := List.length_eq_zero_iff.mp (Nat.le_zero.mp enough)
    exact absurd unfolding.id_mem_ids (by simp [empty])
  | succ depth inductionHypothesis =>
    obtain ⟨id, node, parts⟩ := unfolding
    have below (part : Unfolding) (member : part ∈ parts) (pruning : Pruning)
        (partUnfolds : pruning.tree.Unfolds part) :
        ∃ pruned, Splices pruning part pruned (splice depth part.id pruning) :=
      inductionHypothesis partUnfolds ((ids_part_sublist member).nodup distinct)
        (Nat.le_of_lt_succ (Nat.lt_of_lt_of_le (length_ids_part_lt member) enough))
    have found : pruning.nodes[id]? = some node := unfolds.get?
    rw [Unfolding.id_mk, splice, found]
    split
    · contradiction
    · rename_i name valueId nextId isNode
      obtain rfl := Option.some.inj isNode
      split
      · rename_i isDead
        cases unfolds with
        | intro held linked partsUnfold =>
          obtain ⟨value, next, rfl, rfl, rfl⟩ := eq_pair linked
          exact remove_splices isDead (partsUnfold value (by simp))
            ((ids_part_sublist (by simp)).nodup distinct)
            (below next (by simp) _ (partsUnfold next (by simp)))
      · rename_i isLive
        refine relink_splices below unfolds distinct fun other _ _ isLet => ?_
        cases isLet
        exact isLive
    · rename_i isNoLet isNode
      obtain rfl := Option.some.inj isNode
      exact relink_splices below unfolds distinct fun name valueId nextId isLet =>
        (isNoLet name valueId nextId isLet).elim

end Pruning

namespace TermTree

variable {tree : TermTree} {unfolding : Unfolding}

open Unfolding in
/-- Elimination prunes what the root unfolds to, with the names that nothing reads. -/
theorem eliminate_prunes (unfolds : tree.Unfolds unfolding) (rooted : unfolding.id = tree.root)
    (distinct : unfolding.ids.Nodup) :
    ∃ pruned left, tree.eliminate.1.Unfolds pruned ∧ pruned.id = tree.eliminate.1.root ∧
      Prunes (Liveness.ofTree tree).deadNames unfolding pruned left tree.eliminate.2 := by
  rw [eliminate]
  split
  · rename_i noDead
    rw [List.isEmpty_iff.mp noDead]
    exact ⟨unfolding, [], unfolds, rooted, prunes_nil unfolds⟩
  · have start : (Pruning.mk tree.nodes (Liveness.ofTree tree).deadNames []).tree.Unfolds
        unfolding := unfolds.congr fun _ _ => rfl
    have enough : unfolding.ids.length ≤ tree.size + 1 :=
      Nat.le_succ_of_le (unfolds.length_ids_le distinct)
    obtain ⟨pruned, splices⟩ := Pruning.splice_splices start distinct enough
    rw [rooted] at splices
    generalize Pruning.splice _ _ _ = result at splices ⊢
    obtain ⟨warnings, prunes, warned⟩ := splices.prunes
    refine ⟨pruned, result.2.dead, splices.unfolds.congr fun _ _ => rfl, splices.id_eq.symm, ?_⟩
    have reported : result.2.warnings.reverse = warnings := by
      rw [warned, List.append_nil, List.reverse_reverse]
    rw [← reported] at prunes
    exact prunes

end TermTree

end TreeScript
