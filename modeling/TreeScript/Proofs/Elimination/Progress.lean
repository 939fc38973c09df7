/-
This file shows that eliminations come to an end, whatever names are bound more than
once. Removing a value can take the last variable of a name with it, so one elimination
is in general not enough. But as long as a name is dead, the first linked binding of it
goes, unless it goes together with the value that it lies in, and so each elimination
leaves fewer linked nodes than there were.

How many fewer is a matter of accounts. The bindings that a removal takes out do not lie
inside each other's values, what goes besides them lies inside the value of one of them,
and each of them is reported once. So every linked node that goes is counted once, as one
of these bindings or as a node of its value.
-/

import TreeScript.Proofs.Elimination.Guards
import Mathlib.Algebra.GroupWithZero.Nat
import Mathlib.Data.Nat.Find
import Mathlib.Logic.Function.Iterate

namespace TreeScript

namespace TermTree

variable {tree : TermTree} {term : Term}

/-! ### What a removal takes out -/

/-- The number of nodes of a binding and its value. -/
def bindingSize (tree : TermTree) (id : TermId) : Nat :=
  match tree.get? id with
  | some (.letIn _ value _) => 1 + { tree with root := value }.reachable.length
  | _ => 0

theorem bindingSize_eq {id next : TermId} {name : String} {value : Unfolding}
    (held : tree.get? id = some (.letIn name value.id next)) (unfolds : tree.Unfolds value)
    (distinct : value.ids.Nodup) : tree.bindingSize id = 1 + value.ids.length := by
  have rooted : TermTree.Unfolds { tree with root := value.id } value :=
    unfolds.congr fun _ _ => rfl
  rw [bindingSize, held]
  show 1 + { tree with root := value.id }.reachable.length = _
  rw [reachable_eq_ids rooted rfl distinct]

/-- A removal leaves some of the given ids and takes these bindings out, with these warnings. What
goes besides them lies inside their values, and they lie outside of each other's. -/
structure Accounts (tree : TermTree) (ids kept removed : List TermId) (warnings : List Warning) :
    Prop where
  kept_sublist : kept.Sublist ids
  sublist : removed.Sublist ids
  gone : ∀ id ∈ ids, id ∉ kept ↔ id ∈ removed ∨ ∃ outer ∈ removed, tree.InValue outer id
  outside : ∀ id ∈ removed, ∀ outer ∈ removed, ¬tree.InValue outer id
  reported : List.Forall₂ (fun id warning => tree.letName? id = some warning.name) removed warnings
  length_eq : ids.length = kept.length + (removed.map tree.bindingSize).sum

namespace Trims

variable {dead left : List String} {ids kept removed : List TermId} {warnings : List Warning}

/-- Each binding that is taken out is reported once, in its turn. -/
theorem reported (trims : tree.Trims dead ids kept removed left warnings) :
    List.Forall₂ (fun id warning => tree.letName? id = some warning.name) removed warnings := by
  induction trims with
  | nil => exact .nil
  | keep _ _ _ inductionHypothesis => exact inductionHypothesis
  | drop held _ _ _ _ inductionHypothesis =>
    refine .cons ?_ inductionHypothesis
    rw [letName?, held]
    rfl
  | append _ _ _ _ _ inductionHypothesis othersHypothesis =>
    exact List.rel_append inductionHypothesis othersHypothesis

/-- What goes are the bindings that are taken out and the nodes of their values. -/
theorem length_eq (trims : tree.Trims dead ids kept removed left warnings) :
    ids.length = kept.length + (removed.map tree.bindingSize).sum := by
  induction trims with
  | nil => rfl
  | keep _ _ _ inductionHypothesis =>
    rw [List.length_cons, List.length_cons, inductionHypothesis]
    omega
  | drop held unfolds increasing _ _ inductionHypothesis =>
    obtain ⟨-, rising⟩ := List.pairwise_cons.mp increasing
    have distinct := (List.pairwise_append.mp rising).1.imp Nat.ne_of_lt
    rw [List.length_cons, List.length_append, inductionHypothesis, List.map_cons, List.sum_cons,
      bindingSize_eq held unfolds distinct]
    omega
  | append _ _ _ _ _ inductionHypothesis othersHypothesis =>
    rw [List.length_append, List.length_append, inductionHypothesis, othersHypothesis,
      List.map_append, List.sum_append]
    omega

theorem left_subset (trims : tree.Trims dead ids kept removed left warnings) : left ⊆ dead := by
  induction trims with
  | nil => exact List.Subset.refl _
  | keep _ _ _ inductionHypothesis => exact inductionHypothesis
  | drop _ _ _ _ _ inductionHypothesis =>
    exact List.Subset.trans inductionHypothesis List.filter_sublist.subset
  | append _ _ _ _ _ inductionHypothesis othersHypothesis =>
    exact List.Subset.trans othersHypothesis inductionHypothesis

/-- Every warning is about another name, which was dead before and is not dead any more. -/
theorem names (trims : tree.Trims dead ids kept removed left warnings) :
    (warnings.map Warning.name).Nodup ∧
      ∀ name ∈ warnings.map Warning.name, name ∈ dead ∧ name ∉ left := by
  induction trims with
  | nil => simp
  | keep _ _ _ inductionHypothesis => exact inductionHypothesis
  | @drop _ left name _ _ _ _ _ _ warnings _ _ _ isDead rest inductionHypothesis =>
    obtain ⟨distinct, each⟩ := inductionHypothesis
    have notLeft : name ∉ left := fun isLeft => by
      simpa using (List.mem_filter.mp (rest.left_subset isLeft)).2
    have notAgain : name ∉ warnings.map Warning.name := fun again => by
      simpa using (List.mem_filter.mp (each name again).1).2
    refine ⟨List.nodup_cons.mpr ⟨notAgain, distinct⟩, List.forall_mem_cons.mpr
      ⟨⟨isDead, notLeft⟩, fun other member => ?_⟩⟩
    exact ⟨List.mem_of_mem_filter (each other member).1, (each other member).2⟩
  | append _ _ _ head tail inductionHypothesis othersHypothesis =>
    obtain ⟨headDistinct, headEach⟩ := inductionHypothesis
    obtain ⟨tailDistinct, tailEach⟩ := othersHypothesis
    rw [List.map_append]
    refine ⟨List.nodup_append'.mpr ⟨headDistinct, tailDistinct, fun name inHead inTail => ?_⟩,
      fun name member => ?_⟩
    · exact (headEach name inHead).2 (tailEach name inTail).1
    · rcases List.mem_append.mp member with inHead | inTail
      · exact ⟨(headEach name inHead).1,
          fun isLeft => (headEach name inHead).2 (tail.left_subset isLeft)⟩
      · exact ⟨head.left_subset (tailEach name inTail).1, (tailEach name inTail).2⟩

/-- The accounts are read off the ids that are visited. -/
theorem accounts (forward : tree.Forward)
    (trims : tree.Trims dead ids kept removed left warnings) :
    tree.Accounts ids kept removed warnings := by
  obtain ⟨visited, visits⟩ := trims.exists_visits forward
  refine ⟨visits.kept_sublist.trans visits.sublist, visits.removed_sublist.trans visits.sublist,
    fun id member => ?_, ?_, trims.reported, trims.length_eq⟩
  · rw [← visits.skipped id member]
    by_cases inVisited : id ∈ visited
    · rw [visits.removed_iff id inVisited, or_iff_left (not_not.mpr inVisited)]
    · exact iff_of_true (fun isKept => inVisited (visits.kept_sublist.subset isKept))
        (.inr inVisited)
  · intro id isRemoved outer outerRemoved inValue
    exact (visits.skipped id (visits.mem_ids_of_removed isRemoved)).mpr
      ⟨outer, outerRemoved, inValue⟩ (visits.removed_sublist.subset isRemoved)

end Trims

/-! ### One elimination -/

theorem eliminate_of_deadNames_eq_nil (noDead : (Liveness.ofTree tree).deadNames = []) :
    tree.eliminate = (tree, []) := by
  rw [eliminate, noDead]
  rfl

/-- The accounts of an elimination, and the names in its report. -/
theorem Reached.exists_accounts (reached : Reached term tree) :
    (∃ removed, tree.Accounts tree.reachable tree.eliminate.1.reachable removed tree.eliminate.2) ∧
      (tree.eliminate.2.map Warning.name).Nodup ∧
      tree.eliminate.2.map Warning.name ⊆ (Liveness.ofTree tree).deadNames := by
  obtain ⟨removed, left, trims⟩ := reached.exists_trims
  exact ⟨⟨removed, trims.accounts reached.forward⟩, trims.names.1,
    fun name member => (trims.names.2 name member).1⟩

/-- What is taken out are the bindings that go and do not lie inside the value of one that goes. -/
theorem Accounts.mem_removed_iff {removed : List TermId} {warnings : List Warning}
    (accounts : tree.Accounts tree.reachable tree.eliminate.1.reachable removed warnings)
    {id : TermId} : id ∈ removed ↔ tree.Removes id ∧ ¬tree.Discards id := by
  have isGone {id : TermId} (isRemoved : id ∈ removed) :
      id ∈ tree.reachable ∧ id ∉ tree.eliminate.1.reachable :=
    ⟨accounts.sublist.subset isRemoved,
      (accounts.gone id (accounts.sublist.subset isRemoved)).mpr (.inl isRemoved)⟩
  have discards_iff : tree.Discards id ↔ ∃ outer ∈ removed, tree.InValue outer id := by
    constructor
    · rintro ⟨outer, ⟨linked, -, gone⟩, inValue⟩
      rcases (accounts.gone outer linked).mp gone with isRemoved | ⟨further, isRemoved, around⟩
      · exact ⟨outer, isRemoved, inValue⟩
      · exact ⟨further, isRemoved, around.trans inValue⟩
    · rintro ⟨outer, isRemoved, inValue⟩
      refine ⟨outer, ⟨(isGone isRemoved).1, ?_, (isGone isRemoved).2⟩, inValue⟩
      obtain ⟨name, value, next, around, held, -⟩ := inValue
      simp [letName?, held]
  rw [discards_iff]
  constructor
  · intro isRemoved
    refine ⟨⟨(isGone isRemoved).1, ?_, (isGone isRemoved).2⟩, ?_⟩
    · obtain ⟨position, inRange, rfl⟩ := List.getElem_of_mem isRemoved
      have named := accounts.reported.get inRange (accounts.reported.length_eq ▸ inRange)
      simp only [List.get_eq_getElem] at named
      simp [named]
    · rintro ⟨outer, outerRemoved, inValue⟩
      exact accounts.outside id isRemoved outer outerRemoved inValue
  · rintro ⟨⟨linked, -, gone⟩, notInside⟩
    exact ((accounts.gone id linked).mp gone).resolve_right notInside

/-- While a name is dead, something goes: the first linked binding of the name does. -/
theorem Reached.exists_gone (reached : Reached term tree) {name : String}
    (isDead : name ∈ (Liveness.ofTree tree).deadNames) :
    ∃ id ∈ tree.reachable, id ∉ tree.eliminate.1.reachable := by
  classical
  have bound : ∃ id, id ∈ tree.reachable ∧ tree.letName? id = some name := by
    obtain ⟨⟨id, linked, isCandidate⟩, -⟩ := Liveness.mem_deadNames.mp isDead
    obtain ⟨value, next, held, -⟩ := Liveness.candidate?_eq_some.mp isCandidate
    exact ⟨id, linked, by rw [letName?, held]⟩
  obtain ⟨linked, isFirst⟩ := Nat.find_spec bound
  refine ⟨Nat.find bound, linked, (reached.notMem_reachable_iff linked isFirst).mpr
    (.inr ⟨isDead, fun other otherLinked earlier otherBound => ?_⟩)⟩
  exact absurd ⟨otherLinked, otherBound⟩ (Nat.find_min bound earlier)

/-- While a name is dead, an elimination leaves fewer linked nodes. -/
theorem Reached.length_eliminate_lt (reached : Reached term tree)
    (someDead : (Liveness.ofTree tree).deadNames ≠ []) :
    tree.eliminate.1.reachable.length < tree.reachable.length := by
  obtain ⟨⟨removed, accounts⟩, -, -⟩ := reached.exists_accounts
  obtain ⟨name, isDead⟩ := List.exists_mem_of_ne_nil _ someDead
  obtain ⟨id, linked, gone⟩ := reached.exists_gone isDead
  refine Nat.lt_of_le_of_ne accounts.kept_sublist.length_le fun same => gone ?_
  rw [accounts.kept_sublist.eq_of_length same]
  exact linked

theorem Reached.warnings_eq_nil_iff (reached : Reached term tree) :
    tree.eliminate.2 = [] ↔ (Liveness.ofTree tree).deadNames = [] := by
  constructor
  · intro noWarnings
    by_contra someDead
    obtain ⟨⟨removed, accounts⟩, -, -⟩ := reached.exists_accounts
    have fewer := reached.length_eliminate_lt someDead
    have reported := accounts.reported
    rw [noWarnings, List.forall₂_nil_right_iff] at reported
    have same := accounts.length_eq
    rw [reported, List.map_nil, List.sum_nil, Nat.add_zero] at same
    exact Nat.ne_of_gt fewer same
  · intro noDead
    rw [eliminate_of_deadNames_eq_nil noDead]

/-! ### Repeated eliminations -/

/-- The tree after a number of eliminations. -/
def eliminateTimes (tree : TermTree) (count : Nat) : TermTree :=
  (fun tree => tree.eliminate.1)^[count] tree

theorem eliminateTimes_succ (count : Nat) :
    tree.eliminateTimes (count + 1) = tree.eliminate.1.eliminateTimes count :=
  Function.iterate_succ_apply _ _ _

theorem eliminateTimes_add (count more : Nat) :
    tree.eliminateTimes (count + more) = (tree.eliminateTimes count).eliminateTimes more := by
  rw [Nat.add_comm]
  exact Function.iterate_add_apply _ _ _ _

/-- Without dead names any number of eliminations changes nothing. -/
theorem eliminateTimes_of_deadNames_eq_nil (noDead : (Liveness.ofTree tree).deadNames = [])
    (count : Nat) : tree.eliminateTimes count = tree := by
  refine Function.iterate_fixed ?_ count
  show tree.eliminate.1 = tree
  rw [eliminate_of_deadNames_eq_nil noDead]

/-- As many eliminations as there are linked nodes leave no dead names. -/
theorem Reached.exists_eliminateTimes (reached : Reached term tree) {bound : Nat}
    (enough : tree.reachable.length ≤ bound) :
    ∃ count ≤ bound, (Liveness.ofTree (tree.eliminateTimes count)).deadNames = [] := by
  induction bound generalizing tree with
  | zero =>
    refine ⟨0, Nat.le_refl _, ?_⟩
    by_contra someDead
    have fewer := reached.length_eliminate_lt someDead
    omega
  | succ bound inductionHypothesis =>
    by_cases noDead : (Liveness.ofTree tree).deadNames = []
    · exact ⟨0, Nat.zero_le _, noDead⟩
    · have fewer := reached.length_eliminate_lt noDead
      obtain ⟨count, within, ended⟩ := inductionHypothesis (.eliminated reached) (by omega)
      refine ⟨count + 1, Nat.succ_le_succ within, ?_⟩
      rw [eliminateTimes_succ]
      exact ended

theorem Reached.length_reachable_le (reached : Reached term tree) :
    tree.reachable.length ≤ tree.size := by
  obtain ⟨unfolding, unfolds, rooted, distinct⟩ := reached.unfolds
  rw [reachable_eq_ids unfolds rooted distinct]
  exact unfolds.length_ids_le distinct

/-- Eliminations make progress and come to an end. There are no warnings exactly if no name is dead,
and then nothing changes. Otherwise the warnings are about different dead names, some linked ids are
not linked any more and the others keep their order, and as many are gone as the bindings that were
taken out and their values have nodes. At most as many eliminations as the arena has nodes lead to a
tree without dead names, which no further elimination changes. -/
theorem eliminate_progress (reached : Reached term tree) :
    (tree.eliminate.2 = [] ↔ (Liveness.ofTree tree).deadNames = []) ∧
      ((Liveness.ofTree tree).deadNames = [] → tree.eliminate.1 = tree) ∧
      ((Liveness.ofTree tree).deadNames ≠ [] →
        (tree.eliminate.2.map Warning.name).Nodup ∧
          tree.eliminate.2.map Warning.name ⊆ (Liveness.ofTree tree).deadNames ∧
          tree.eliminate.1.reachable.Sublist tree.reachable ∧
          tree.eliminate.1.reachable ≠ tree.reachable ∧
          ∃ removed : List TermId, removed.Sublist tree.reachable ∧
            (∀ id, id ∈ removed ↔ tree.Removes id ∧ ¬tree.Discards id) ∧
            List.Forall₂ (fun id warning => tree.letName? id = some warning.name) removed
              tree.eliminate.2 ∧
            tree.reachable.length =
              tree.eliminate.1.reachable.length + (removed.map tree.bindingSize).sum) ∧
      ∃ count ≤ tree.size, (Liveness.ofTree (tree.eliminateTimes count)).deadNames = [] ∧
        ∀ more, tree.eliminateTimes (count + more) = tree.eliminateTimes count := by
  obtain ⟨⟨removed, accounts⟩, distinct, included⟩ := reached.exists_accounts
  refine ⟨reached.warnings_eq_nil_iff, fun noDead => ?_, fun someDead => ?_, ?_⟩
  · rw [eliminate_of_deadNames_eq_nil noDead]
  · refine ⟨distinct, included, accounts.kept_sublist, fun same => ?_, removed, accounts.sublist,
      fun _ => accounts.mem_removed_iff, accounts.reported, accounts.length_eq⟩
    have fewer := reached.length_eliminate_lt someDead
    rw [same] at fewer
    exact Nat.lt_irrefl _ fewer
  · obtain ⟨count, within, ended⟩ := reached.exists_eliminateTimes reached.length_reachable_le
    refine ⟨count, within, ended, fun more => ?_⟩
    rw [eliminateTimes_add, eliminateTimes_of_deadNames_eq_nil ended]

/-- `spare` is bound twice, and the only variable stands inside of the first value, where `inner` is
bound too. -/
def spareAgain : Term :=
  .letIn "base" (.int 1) (.letIn "spare" (.letIn "inner" (.var "base") (.int 2))
    (.letIn "spare" (.int 3) (.int 4)))

/-- The first binding of `spare` goes with the three nodes of its value. Its second binding stays,
and `base` has become dead. -/
theorem eliminate_progress_spareAgain :
    (Liveness.ofTree (ofTerm spareAgain)).deadNames = ["spare", "inner"] ∧
      (ofTerm spareAgain).eliminate.2 ≠ [] ∧
      (ofTerm spareAgain).eliminate.1.reachable = [0, 1, 6, 7, 8] ∧
      (Liveness.ofTree (ofTerm spareAgain).eliminate.1).deadNames = ["base", "spare"] ∧
      (∃ removed : List TermId,
        (∀ id, id ∈ removed ↔
          (ofTerm spareAgain).Removes id ∧ ¬(ofTerm spareAgain).Discards id) ∧
        9 = 5 + (removed.map (ofTerm spareAgain).bindingSize).sum) ∧
      ∃ count ≤ 9, (Liveness.ofTree ((ofTerm spareAgain).eliminateTimes count)).deadNames = [] := by
  obtain ⟨warned, -, progress, count, within, ended, -⟩ :=
    eliminate_progress (.laidOut : Reached spareAgain _)
  have isDead : (Liveness.ofTree (ofTerm spareAgain)).deadNames = ["spare", "inner"] := by decide
  have someDead : (Liveness.ofTree (ofTerm spareAgain)).deadNames ≠ [] := by
    rw [isDead]
    exact List.cons_ne_nil _ _
  obtain ⟨-, -, -, -, removed, -, isRemoved, -, same⟩ := progress someDead
  exact ⟨isDead, fun none => someDead (warned.mp none), by decide, by decide,
    ⟨removed, isRemoved, same⟩, count, within, ended⟩

end TermTree

end TreeScript
