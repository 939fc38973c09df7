/-
This file says which bindings an elimination removes, whatever names are bound more
than once. A binding is a candidate unless a print or a call follows it, but what is
remembered of the candidates are their names, and the removal goes by names: of each
dead name the first binding that is met goes. So a binding in front of a print or a
call goes if another binding has made its name dead and none of the name was met
before. Otherwise it stays, unless it lies inside the value of a binding that went.

In terms of ids, a removal goes through a list of them and keeps or removes one after
the other. It visits them in their order and leaves out those inside of the values that
it drops. Which of the visited ids stay is a matter of their list alone, the `sweep`
below. Which ids are visited is a matter of trails.
-/

import TreeScript.Proofs.Arena.Integrity
import TreeScript.Proofs.Elimination.Report

namespace TreeScript

namespace TermTree

variable {tree : TermTree} {term : Term} {unfolding : Unfolding}

/-! ### The first binding of each dead name -/

/-- What stays of a list of ids if the first binding of each dead name goes. -/
def sweep (tree : TermTree) : List String → List TermId → List TermId
  | _, [] => []
  | dead, id :: ids =>
    match tree.letName? id with
    | some name =>
      if name ∈ dead then tree.sweep (dead.filter (· ≠ name)) ids else id :: tree.sweep dead ids
    | none => id :: tree.sweep dead ids

/-- The names that are dead and that none of the ids binds. -/
def unmet (tree : TermTree) (dead : List String) (ids : List TermId) : List String :=
  dead.filter (· ∉ ids.filterMap tree.letName?)

variable {dead : List String} {id : TermId} {ids : List TermId}

theorem sweep_of_dead {name : String} (bound : tree.letName? id = some name)
    (isDead : name ∈ dead) :
    tree.sweep dead (id :: ids) = tree.sweep (dead.filter (· ≠ name)) ids := by
  rw [sweep, bound]
  exact if_pos isDead

theorem sweep_of_live (live : ∀ name, tree.letName? id = some name → name ∉ dead) :
    tree.sweep dead (id :: ids) = id :: tree.sweep dead ids := by
  rw [sweep]
  split
  next name bound => exact if_neg (live name bound)
  next => rfl

theorem unmet_of_dead {name : String} (bound : tree.letName? id = some name) :
    tree.unmet dead (id :: ids) = tree.unmet (dead.filter (· ≠ name)) ids := by
  rw [unmet, unmet, List.filterMap_cons_some bound, List.filter_filter]
  refine List.filter_congr fun other _ => ?_
  simp [not_or, Bool.and_comm]

theorem unmet_of_live (live : ∀ name, tree.letName? id = some name → name ∉ dead) :
    tree.unmet dead (id :: ids) = tree.unmet dead ids := by
  refine List.filter_congr fun other isDead => ?_
  have elsewhere : tree.letName? id ≠ some other := fun bound => live other bound isDead
  simp [elsewhere]

theorem unmet_append (others : List TermId) :
    tree.unmet dead (ids ++ others) = tree.unmet (tree.unmet dead ids) others := by
  rw [unmet, unmet, unmet, List.filterMap_append, List.filter_filter]
  refine List.filter_congr fun other _ => ?_
  simp [not_or, Bool.and_comm]

theorem sweep_append (others : List TermId) :
    tree.sweep dead (ids ++ others) =
      tree.sweep dead ids ++ tree.sweep (tree.unmet dead ids) others := by
  induction ids generalizing dead with
  | nil => simp [sweep, unmet]
  | cons id ids inductionHypothesis =>
    rw [List.cons_append]
    by_cases removed : ∃ name, tree.letName? id = some name ∧ name ∈ dead
    · obtain ⟨name, bound, isDead⟩ := removed
      rw [sweep_of_dead bound isDead, sweep_of_dead bound isDead, unmet_of_dead bound,
        inductionHypothesis]
    · have live : ∀ name, tree.letName? id = some name → name ∉ dead :=
        fun name bound isDead => removed ⟨name, bound, isDead⟩
      rw [sweep_of_live live, sweep_of_live live, unmet_of_live live, inductionHypothesis,
        List.cons_append]

theorem sweep_sublist (dead : List String) (ids : List TermId) :
    (tree.sweep dead ids).Sublist ids := by
  induction ids generalizing dead with
  | nil => exact List.Sublist.refl _
  | cons id ids inductionHypothesis =>
    rw [sweep]
    split
    · split
      · exact (inductionHypothesis _).cons id
      · exact (inductionHypothesis _).cons_cons id
    · exact (inductionHypothesis _).cons_cons id

/-- What goes is the first binding of a dead name. -/
theorem notMem_sweep_iff (increasing : ids.Pairwise (· < ·)) (member : id ∈ ids) :
    id ∉ tree.sweep dead ids ↔ ∃ name, tree.letName? id = some name ∧ name ∈ dead ∧
      ∀ other ∈ ids, other < id → tree.letName? other ≠ some name := by
  induction ids generalizing dead with
  | nil => cases member
  | cons head ids inductionHypothesis =>
    obtain ⟨first, increasing⟩ := List.pairwise_cons.mp increasing
    have notFirst : head ∉ ids := fun inIds => Nat.lt_irrefl _ (first head inIds)
    by_cases removed : ∃ name, tree.letName? head = some name ∧ name ∈ dead
    · obtain ⟨name, bound, isDead⟩ := removed
      rw [sweep_of_dead bound isDead]
      rcases List.mem_cons.mp member with rfl | inIds
      · refine iff_of_true (fun inSweep => notFirst ((sweep_sublist _ _).subset inSweep))
          ⟨name, bound, isDead, fun other inList earlier => ?_⟩
        rcases List.mem_cons.mp inList with rfl | inIds
        · exact absurd earlier (Nat.lt_irrefl _)
        · exact absurd (first other inIds) (Nat.lt_asymm earlier)
      · rw [inductionHypothesis increasing inIds]
        simp only [List.mem_filter, decide_eq_true_eq, List.forall_mem_cons, bound, first id inIds,
          forall_const, ne_eq, Option.some.injEq]
        refine exists_congr fun other => ?_
        rw [eq_comm (a := name), and_assoc]
    · have live : ∀ name, tree.letName? head = some name → name ∉ dead :=
        fun name bound isDead => removed ⟨name, bound, isDead⟩
      rw [sweep_of_live live, List.mem_cons, not_or]
      rcases List.mem_cons.mp member with rfl | inIds
      · refine iff_of_false (fun absent => absent.1 rfl) ?_
        rintro ⟨name, bound, isDead, -⟩
        exact live name bound isDead
      · have different : id ≠ head := fun same => notFirst (same ▸ inIds)
        rw [inductionHypothesis increasing inIds, and_iff_right different]
        refine exists_congr fun name => and_congr_right fun _ => and_congr_right fun isDead => ?_
        rw [List.forall_mem_cons, and_iff_right fun _ bound => live name bound isDead]

/-! ### Ids inside of values -/

/-- An id lies inside the value of the binding at another id. -/
def InValue (tree : TermTree) (outer id : TermId) : Prop :=
  ∃ name value next around, tree.get? outer = some (.letIn name value next) ∧
    tree.Trail value id around

theorem Trail.append {start middle : TermId} {around others : List TermId}
    (trail : tree.Trail start middle around) (rest : tree.Trail middle id others) :
    tree.Trail start id (others ++ around) := by
  induction rest with
  | here => exact trail
  | part _ member inductionHypothesis => exact .part inductionHypothesis member

theorem InValue.trail {outer : TermId} (inValue : tree.InValue outer id) :
    ∃ around, tree.Trail outer id around := by
  obtain ⟨name, value, next, around, held, trail⟩ := inValue
  have isChild : value ∈ tree.children outer := by simp [children, held, Node.children]
  exact ⟨_, (Trail.part .here isChild).append trail⟩

theorem InValue.trans {outer middle : TermId} (inValue : tree.InValue outer middle)
    (inner : tree.InValue middle id) : tree.InValue outer id := by
  obtain ⟨name, value, next, around, held, trail⟩ := inValue
  obtain ⟨others, rest⟩ := inner.trail
  exact ⟨name, value, next, _, held, trail.append rest⟩

theorem Forward.le_of_trail (forward : tree.Forward) {start : TermId} {around : List TermId}
    (trail : tree.Trail start id around) : start ≤ id := by
  induction trail with
  | here => exact Nat.le_refl _
  | @part outer child _ _ member inductionHypothesis =>
    rw [children] at member
    split at member
    next node held =>
      exact Nat.le_trans inductionHypothesis (Nat.le_of_lt (forward outer node held child member).1)
    next => cases member

theorem Forward.lt_of_inValue (forward : tree.Forward) {outer : TermId}
    (inValue : tree.InValue outer id) : outer < id := by
  obtain ⟨name, value, next, around, held, trail⟩ := inValue
  exact Nat.lt_of_lt_of_le (forward outer _ held value List.mem_cons_self).1
    (forward.le_of_trail trail)

theorem Unfolds.mem_ids_of_inValue (unfolds : tree.Unfolds unfolding) {outer : TermId}
    (member : outer ∈ unfolding.ids) (inValue : tree.InValue outer id) : id ∈ unfolding.ids := by
  obtain ⟨around, trail⟩ := unfolds.mem_ids_iff.mp member
  obtain ⟨others, rest⟩ := inValue.trail
  exact unfolds.mem_ids_iff.mpr ⟨_, trail.append rest⟩

theorem inValue_iff {outer next : TermId} {name : String} {value : Unfolding}
    (held : tree.get? outer = some (.letIn name value.id next)) (unfolds : tree.Unfolds value) :
    tree.InValue outer id ↔ id ∈ value.ids := by
  rw [unfolds.mem_ids_iff]
  constructor
  · rintro ⟨_, _, _, around, isLet, trail⟩
    cases held.symm.trans isLet
    exact ⟨around, trail⟩
  · rintro ⟨around, trail⟩
    exact ⟨_, _, _, around, held, trail⟩

/-! ### Removals in terms of ids -/

/-- What a removal with some dead names does to ids. It keeps some of them and takes some bindings
out, leaves some names dead and reports the bindings. Ids inside the value of a binding that is
taken out are neither kept nor taken out themselves. -/
inductive Trims (tree : TermTree) : List String → (ids kept removed : List TermId) → List String →
    List Warning → Prop where
  | nil {dead : List String} : Trims tree dead [] [] [] dead []
  | keep {dead left : List String} {id : TermId} {ids kept removed : List TermId}
      {warnings : List Warning} (first : ∀ other ∈ ids, id < other)
      (live : ∀ name, tree.letName? id = some name → name ∉ dead)
      (rest : Trims tree dead ids kept removed left warnings) :
      Trims tree dead (id :: ids) (id :: kept) removed left warnings
  | drop {dead left : List String} {name : String} {id next : TermId} {value : Unfolding}
      {ids kept removed : List TermId} {warnings : List Warning}
      (held : tree.get? id = some (.letIn name value.id next)) (unfolds : tree.Unfolds value)
      (increasing : (id :: (value.ids ++ ids)).Pairwise (· < ·)) (isDead : name ∈ dead)
      (rest : Trims tree (dead.filter (· ≠ name)) ids kept removed left warnings) :
      Trims tree dead (id :: (value.ids ++ ids)) kept (id :: removed) left
        (value.warning name :: warnings)
  | append {dead between left : List String}
      {ids others kept keptOthers removed removedOthers : List TermId}
      {warnings warningsOthers : List Warning} (apart : ids.Disjoint others)
      (closed : ∀ outer ∈ ids, ∀ id, tree.InValue outer id → id ∈ ids)
      (othersClosed : ∀ outer ∈ others, ∀ id, tree.InValue outer id → id ∈ others)
      (first : Trims tree dead ids kept removed between warnings)
      (rest : Trims tree between others keptOthers removedOthers left warningsOthers) :
      Trims tree dead (ids ++ others) (kept ++ keptOthers) (removed ++ removedOthers) left
        (warnings ++ warningsOthers)

end TermTree

namespace Unfolding

variable {tree : TermTree}

mutual

/-- Where ids increase, pruning an unfolding is a removal in terms of its ids. -/
theorem Prunes.exists_trims {dead left : List String} {unfolding pruned : Unfolding}
    {warnings : List Warning} (unfolds : tree.Unfolds unfolding)
    (increasing : unfolding.ids.Pairwise (· < ·)) :
    Prunes dead unfolding pruned left warnings →
      ∃ removed, tree.Trims dead unfolding.ids pruned.ids removed left warnings
  | @Prunes.drop _ _ name id valueId nextId value next _ _ isDead rest => by
    obtain ⟨held, linked, below⟩ := unfolds
    obtain rfl : valueId = value.id := (List.cons.inj linked).1
    simp only [ids_mk, List.flatMap_cons, List.flatMap_nil, List.append_nil] at increasing ⊢
    obtain ⟨-, rising⟩ := List.pairwise_cons.mp increasing
    obtain ⟨-, nextRising, -⟩ := List.pairwise_append.mp rising
    obtain ⟨removed, trims⟩ := rest.exists_trims (below next (by simp)) nextRising
    exact ⟨id :: removed, .drop held (below value (by simp)) increasing isDead trims⟩
  | @Prunes.keep _ _ id node parts remaining _ isLive each => by
    obtain ⟨held, linked, below⟩ := unfolds
    rw [ids_mk] at increasing ⊢
    obtain ⟨first, partsIncreasing⟩ := List.pairwise_cons.mp increasing
    obtain ⟨removed, trims⟩ := each.exists_trims below partsIncreasing
    rw [ids_mk]
    refine ⟨removed, .keep first (fun name bound => ?_) trims⟩
    obtain ⟨value, next, isLet⟩ := TermTree.letName?_eq_some bound
    exact isLive name value next (Option.some.inj (held.symm.trans isLet))

theorem PrunesAll.exists_trims {dead left : List String} {parts remaining : List Unfolding}
    {warnings : List Warning} (below : ∀ part ∈ parts, tree.Unfolds part)
    (increasing : (parts.flatMap ids).Pairwise (· < ·)) :
    PrunesAll dead parts remaining left warnings →
      ∃ removed, tree.Trims dead (parts.flatMap ids) (remaining.flatMap ids) removed left warnings
  | .nil => ⟨[], .nil⟩
  | @PrunesAll.cons _ between _ part pruned parts remaining _ _ head tail => by
    have partUnfolds : tree.Unfolds part := below part List.mem_cons_self
    have partsUnfold : ∀ other ∈ parts, tree.Unfolds other :=
      fun other member => below other (List.mem_cons_of_mem _ member)
    rw [List.flatMap_cons] at increasing ⊢
    obtain ⟨headIncreasing, tailIncreasing, apart⟩ := List.pairwise_append.mp increasing
    obtain ⟨removed, trims⟩ := head.exists_trims partUnfolds headIncreasing
    obtain ⟨removedOthers, trimsOthers⟩ := tail.exists_trims partsUnfold tailIncreasing
    refine ⟨removed ++ removedOthers, .append ?_ ?_ ?_ trims trimsOthers⟩
    · exact fun id inPart inParts => Nat.lt_irrefl _ (apart id inPart id inParts)
    · exact fun outer member id inValue => partUnfolds.mem_ids_of_inValue member inValue
    · intro outer member id inValue
      obtain ⟨other, otherMember, inOther⟩ := List.mem_flatMap.mp member
      exact List.mem_flatMap.mpr
        ⟨other, otherMember, (partsUnfold other otherMember).mem_ids_of_inValue inOther inValue⟩

end

end Unfolding

namespace TermTree

variable {tree : TermTree} {dead left : List String} {id : TermId}
  {ids kept removed : List TermId} {warnings : List Warning}

/-! ### The ids that a removal visits -/

/-- What a removal does in terms of the ids that it visits. Of these the first binding of each dead
name goes, and the others are those inside the values of bindings that go. -/
structure Visits (tree : TermTree) (dead left : List String)
    (ids kept removed visited : List TermId) : Prop where
  sublist : visited.Sublist ids
  kept_eq : kept = tree.sweep dead visited
  left_eq : left = tree.unmet dead visited
  removed_sublist : removed.Sublist visited
  removed_iff : ∀ id ∈ visited, id ∈ removed ↔ id ∉ kept
  skipped : ∀ id ∈ ids, id ∉ visited ↔ ∃ outer ∈ removed, tree.InValue outer id

namespace Visits

variable {between : List String}
  {others keptOthers removedOthers visited visitedOthers : List TermId}

theorem kept_sublist (visits : tree.Visits dead left ids kept removed visited) :
    kept.Sublist visited := by
  rw [visits.kept_eq]
  exact sweep_sublist dead visited

theorem mem_ids_of_removed (visits : tree.Visits dead left ids kept removed visited)
    (isRemoved : id ∈ removed) : id ∈ ids :=
  visits.sublist.subset (visits.removed_sublist.subset isRemoved)

theorem mem_ids_of_kept (visits : tree.Visits dead left ids kept removed visited)
    (isKept : id ∈ kept) : id ∈ ids :=
  visits.sublist.subset (visits.kept_sublist.subset isKept)

/-- A node that stays is visited before the ids below it. -/
theorem keep (forward : tree.Forward) (first : ∀ other ∈ ids, id < other)
    (live : ∀ name, tree.letName? id = some name → name ∉ dead)
    (visits : tree.Visits dead left ids kept removed visited) :
    tree.Visits dead left (id :: ids) (id :: kept) removed (id :: visited) where
  sublist := visits.sublist.cons_cons id
  kept_eq := by rw [sweep_of_live live, visits.kept_eq]
  left_eq := by rw [unmet_of_live live, visits.left_eq]
  removed_sublist := visits.removed_sublist.cons id
  removed_iff other member := by
    rcases List.mem_cons.mp member with rfl | inVisited
    · exact iff_of_false
        (fun isRemoved => Nat.lt_irrefl _ (first _ (visits.mem_ids_of_removed isRemoved)))
        (fun absent => absent List.mem_cons_self)
    · have different : other ≠ id := Nat.ne_of_gt (first other (visits.sublist.subset inVisited))
      rw [List.mem_cons, not_or, and_iff_right different, visits.removed_iff other inVisited]
  skipped other member := by
    rcases List.mem_cons.mp member with rfl | inIds
    · refine iff_of_false (fun absent => absent List.mem_cons_self) ?_
      rintro ⟨outer, isRemoved, inValue⟩
      exact Nat.lt_asymm (first outer (visits.mem_ids_of_removed isRemoved))
        (forward.lt_of_inValue inValue)
    · have different : other ≠ id := Nat.ne_of_gt (first other inIds)
      rw [List.mem_cons, not_or, and_iff_right different, visits.skipped other inIds]

/-- A binding that goes is visited before what follows it, and its value is not visited. -/
theorem drop (forward : tree.Forward) (first : ∀ other ∈ others ++ ids, id < other)
    (apart : others.Disjoint ids) (inside : ∀ other, tree.InValue id other ↔ other ∈ others)
    {name : String} (bound : tree.letName? id = some name) (isDead : name ∈ dead)
    (visits : tree.Visits (dead.filter (· ≠ name)) left ids kept removed visited) :
    tree.Visits dead left (id :: (others ++ ids)) kept (id :: removed) (id :: visited) := by
  have behind (other : TermId) (inIds : other ∈ ids) : id < other :=
    first other (List.mem_append_right _ inIds)
  refine
    { sublist := (visits.sublist.trans (List.sublist_append_right _ _)).cons_cons id
      kept_eq := by rw [sweep_of_dead bound isDead, visits.kept_eq]
      left_eq := by rw [unmet_of_dead bound, visits.left_eq]
      removed_sublist := visits.removed_sublist.cons_cons id
      removed_iff := fun other member => ?_
      skipped := fun other member => ?_ }
  · rcases List.mem_cons.mp member with rfl | inVisited
    · exact iff_of_true List.mem_cons_self
        fun isKept => Nat.lt_irrefl _ (behind _ (visits.mem_ids_of_kept isKept))
    · have different : other ≠ id := Nat.ne_of_gt (behind other (visits.sublist.subset inVisited))
      rw [List.mem_cons, or_iff_right different, visits.removed_iff other inVisited]
  · rcases List.mem_cons.mp member with rfl | below
    · refine iff_of_false (fun absent => absent List.mem_cons_self) ?_
      rintro ⟨outer, isRemoved, inValue⟩
      have later := forward.lt_of_inValue inValue
      rcases List.mem_cons.mp isRemoved with rfl | isRemoved
      · exact Nat.lt_irrefl _ later
      · exact Nat.lt_asymm later (behind outer (visits.mem_ids_of_removed isRemoved))
    have different : other ≠ id := Nat.ne_of_gt (first other below)
    rw [List.mem_cons, not_or, and_iff_right different, List.exists_mem_cons_iff, inside]
    rcases List.mem_append.mp below with inOthers | inIds
    · exact iff_of_true (fun inVisited => apart inOthers (visits.sublist.subset inVisited))
        (.inl inOthers)
    · rw [visits.skipped other inIds, or_iff_right fun inOthers => apart inOthers inIds]

/-- Ids that are visited one after the other, and do not lie inside each other. -/
theorem append (apart : ids.Disjoint others)
    (closed : ∀ outer ∈ ids, ∀ id, tree.InValue outer id → id ∈ ids)
    (othersClosed : ∀ outer ∈ others, ∀ id, tree.InValue outer id → id ∈ others)
    (visits : tree.Visits dead between ids kept removed visited)
    (visitsOthers : tree.Visits between left others keptOthers removedOthers visitedOthers) :
    tree.Visits dead left (ids ++ others) (kept ++ keptOthers) (removed ++ removedOthers)
      (visited ++ visitedOthers) where
  sublist := visits.sublist.append visitsOthers.sublist
  kept_eq := by
    rw [sweep_append, ← visits.left_eq, visits.kept_eq, visitsOthers.kept_eq]
  left_eq := by rw [unmet_append, ← visits.left_eq, visitsOthers.left_eq]
  removed_sublist := visits.removed_sublist.append visitsOthers.removed_sublist
  removed_iff id member := by
    rw [List.mem_append, List.mem_append, not_or]
    rcases List.mem_append.mp member with inVisited | inVisited
    · have apart := apart (visits.sublist.subset inVisited)
      rw [or_iff_left fun isRemoved => apart (visitsOthers.mem_ids_of_removed isRemoved),
        and_iff_left fun isKept => apart (visitsOthers.mem_ids_of_kept isKept),
        visits.removed_iff id inVisited]
    · have apart (inIds : id ∈ ids) : False := apart inIds (visitsOthers.sublist.subset inVisited)
      rw [or_iff_right fun isRemoved => apart (visits.mem_ids_of_removed isRemoved),
        and_iff_right fun isKept => apart (visits.mem_ids_of_kept isKept),
        visitsOthers.removed_iff id inVisited]
  skipped id member := by
    simp only [List.mem_append, not_or]
    rcases List.mem_append.mp member with inIds | inOthers
    · rw [and_iff_left fun inVisited => apart inIds (visitsOthers.sublist.subset inVisited),
        visits.skipped id inIds]
      refine ⟨.imp fun outer => .imp_left .inl, ?_⟩
      rintro ⟨outer, isRemoved | isRemoved, inValue⟩
      · exact ⟨outer, isRemoved, inValue⟩
      · exact absurd (othersClosed outer (visitsOthers.mem_ids_of_removed isRemoved) id inValue)
          (apart inIds)
    · rw [and_iff_right fun inVisited => apart (visits.sublist.subset inVisited) inOthers,
        visitsOthers.skipped id inOthers]
      refine ⟨.imp fun outer => .imp_left .inr, ?_⟩
      rintro ⟨outer, isRemoved | isRemoved, inValue⟩
      · exact absurd inOthers
          (apart (closed outer (visits.mem_ids_of_removed isRemoved) id inValue))
      · exact ⟨outer, isRemoved, inValue⟩

end Visits

/-- Every removal has a list of ids that it visits. -/
theorem Trims.exists_visits (forward : tree.Forward)
    (trims : tree.Trims dead ids kept removed left warnings) :
    ∃ visited, tree.Visits dead left ids kept removed visited := by
  induction trims with
  | nil => exact ⟨[], by simp, rfl, by simp [unmet], by simp, by simp, by simp⟩
  | keep first live _ inductionHypothesis =>
    obtain ⟨visited, visits⟩ := inductionHypothesis
    exact ⟨_, visits.keep forward first live⟩
  | drop held unfolds increasing isDead _ inductionHypothesis =>
    obtain ⟨visited, visits⟩ := inductionHypothesis
    obtain ⟨first, rising⟩ := List.pairwise_cons.mp increasing
    obtain ⟨-, -, apart⟩ := List.pairwise_append.mp rising
    refine ⟨_, visits.drop forward first ?_ (fun _ => inValue_iff held unfolds) ?_ isDead⟩
    · exact fun other inValue inNext => Nat.lt_irrefl _ (apart other inValue other inNext)
    · rw [letName?, held]
  | append apart closed othersClosed _ _ inductionHypothesis othersHypothesis =>
    obtain ⟨visited, visits⟩ := inductionHypothesis
    obtain ⟨visitedOthers, visitsOthers⟩ := othersHypothesis
    exact ⟨_, visits.append apart closed othersClosed visitsOthers⟩

end TermTree

/-! ### Bindings that go -/

namespace Liveness

variable {tree : TermTree} {id : TermId} {name : String}

theorem candidate?_eq_some : candidate? tree id = some name ↔
    ∃ value next, tree.get? id = some (.letIn name value next) ∧
      isGuard (tree.get? next) = false := by
  rw [candidate?]
  split
  next bound value next held =>
    constructor
    · intro isCandidate
      split at isCandidate
      · cases isCandidate
      next notGuarded =>
        cases isCandidate
        exact ⟨value, next, held, Bool.eq_false_iff.mpr notGuarded⟩
    · rintro ⟨otherValue, otherNext, otherHeld, notGuarded⟩
      cases held.symm.trans otherHeld
      rw [notGuarded]
      rfl
  next noLet =>
    refine iff_of_false (by simp) ?_
    rintro ⟨value, next, held, -⟩
    exact noLet name value next held

theorem reference?_eq_some : reference? tree id = some name ↔ tree.get? id = some (.var name) := by
  rw [reference?]
  split
  next held => simp [held]
  next noVar => exact iff_of_false (by simp) (noVar name)

/-- A name is dead if a linked binding of it is a candidate and no linked variable has it. -/
theorem mem_deadNames : name ∈ (ofTree tree).deadNames ↔
    (∃ id ∈ tree.reachable, candidate? tree id = some name) ∧
      ∀ id ∈ tree.reachable, tree.get? id ≠ some (.var name) := by
  rw [deadNames, List.mem_eraseDups, List.mem_filter, isLive, ofTree]
  simp [reference?_eq_some]

end Liveness

namespace TermTree

variable {tree : TermTree} {term : Term}

/-- A binding is linked before an elimination and not linked any more after it. -/
def Removes (tree : TermTree) (id : TermId) : Prop :=
  id ∈ tree.reachable ∧ tree.letName? id ≠ none ∧ id ∉ tree.eliminate.1.reachable

/-- An id lies inside the value of a binding that an elimination removes. -/
def Discards (tree : TermTree) (id : TermId) : Prop :=
  ∃ outer, tree.Removes outer ∧ tree.InValue outer id

/-- At every moment of a session the linked ids increase along the walk. -/
theorem Reached.increasing (reached : Reached term tree) :
    tree.reachable.Pairwise (· < ·) := by
  obtain ⟨relinked, rootInRange⟩ := reached.relinked
  obtain ⟨whole, wholeUnfolds, -, -, wholeIds⟩ := spells_ofTerm term
  have rootInside : tree.root ∈ whole.ids := by
    rw [relinked.size_eq, size_ofTerm] at rootInRange
    rw [wholeIds, List.mem_range'_1, Nat.zero_add]
    exact ⟨Nat.zero_le _, rootInRange⟩
  obtain ⟨inner, innerUnfolds, innerId, innerShorter⟩ := wholeUnfolds.inside rootInside
  obtain ⟨later, laterUnfolds, laterId, shorter⟩ :=
    relinked.unfolds innerUnfolds .refl
  have increasing : later.ids.Pairwise (· < ·) := by
    refine List.Pairwise.sublist (shorter.trans innerShorter) ?_
    rw [wholeIds]
    exact List.pairwise_lt_range'
  rw [reachable_eq_ids laterUnfolds (laterId.trans innerId) (increasing.imp Nat.ne_of_lt)]
  exact increasing

/-- What an elimination does to the linked ids. -/
theorem Reached.exists_trims (reached : Reached term tree) :
    ∃ removed left, tree.Trims (Liveness.ofTree tree).deadNames tree.reachable
      tree.eliminate.1.reachable removed left tree.eliminate.2 := by
  obtain ⟨unfolding, unfolds, rooted, distinct⟩ := reached.unfolds
  obtain ⟨pruned, left, prunedUnfolds, prunedRoot, prunes⟩ :=
    eliminate_prunes unfolds rooted distinct
  have increasing := reached.increasing
  have linked := reachable_eq_ids unfolds rooted distinct
  rw [reachable_eq_ids prunedUnfolds prunedRoot (prunes.ids_sublist.nodup distinct), linked]
  rw [linked] at increasing
  obtain ⟨removed, trims⟩ := prunes.exists_trims unfolds increasing
  exact ⟨removed, left, trims⟩

/-- The ids that are not visited are those inside the values of removed bindings. -/
theorem Visits.notMem_iff_discards {dead left : List String} {removed visited : List TermId}
    (visits : tree.Visits dead left tree.reachable tree.eliminate.1.reachable removed visited)
    {id : TermId} (linked : id ∈ tree.reachable) : id ∉ visited ↔ tree.Discards id := by
  rw [visits.skipped id linked]
  constructor
  · rintro ⟨outer, isRemoved, inValue⟩
    have inVisited := visits.removed_sublist.subset isRemoved
    refine ⟨outer, ⟨visits.mem_ids_of_removed isRemoved, ?_,
      (visits.removed_iff outer inVisited).mp isRemoved⟩, inValue⟩
    obtain ⟨name, value, next, around, held, -⟩ := inValue
    simp [letName?, held]
  · rintro ⟨outer, ⟨isLinked, -, isGone⟩, inValue⟩
    -- A removed binding may itself lie inside a dropped value; then a visited one is around both.
    by_cases inVisited : outer ∈ visited
    · exact ⟨outer, (visits.removed_iff outer inVisited).mpr isGone, inValue⟩
    · obtain ⟨further, isRemoved, around⟩ := (visits.skipped outer isLinked).mp inVisited
      exact ⟨further, isRemoved, around.trans inValue⟩

/-- A linked binding goes exactly if it lies inside the value of a binding that goes, or if its name
is dead and no earlier binding of that name lies outside of all these values. -/
theorem Reached.notMem_reachable_iff (reached : Reached term tree) {id : TermId} {name : String}
    (linked : id ∈ tree.reachable) (bound : tree.letName? id = some name) :
    id ∉ tree.eliminate.1.reachable ↔
      tree.Discards id ∨ name ∈ (Liveness.ofTree tree).deadNames ∧
        ∀ other ∈ tree.reachable, other < id → tree.letName? other = some name →
          tree.Discards other := by
  obtain ⟨removed, left, trims⟩ := reached.exists_trims
  obtain ⟨visited, visits⟩ := trims.exists_visits reached.forward
  have increasing : visited.Pairwise (· < ·) := reached.increasing.sublist visits.sublist
  rw [← visits.notMem_iff_discards linked]
  by_cases inVisited : id ∈ visited
  · rw [or_iff_right (not_not.mpr inVisited), visits.kept_eq, notMem_sweep_iff increasing inVisited]
    simp only [bound, Option.some.injEq, exists_eq_left']
    refine and_congr_right fun _ => ⟨fun none other isLinked earlier isBound => ?_,
      fun discarded other otherVisited earlier isBound => ?_⟩
    · rw [← visits.notMem_iff_discards isLinked]
      exact fun otherVisited => none other otherVisited earlier isBound
    · have isLinked := visits.sublist.subset otherVisited
      have skipped := discarded other isLinked earlier isBound
      rw [← visits.notMem_iff_discards isLinked] at skipped
      exact skipped otherVisited
  · exact iff_of_true (fun isKept => inVisited (visits.kept_sublist.subset isKept)) (.inl inVisited)

/-- A linked binding that a print or a call follows is not linked any more after an elimination
exactly in two cases. It lies inside the value of a binding that goes, or another binding of the same
name is followed by something else, no variable has the name, and every earlier binding of the name
lies inside such a value. -/
theorem eliminate_removes_guarded_iff (reached : Reached term tree) {id value next : TermId}
    {name : String} (linked : id ∈ tree.reachable)
    (held : tree.get? id = some (.letIn name value next))
    (guarded : Liveness.isGuard (tree.get? next) = true) :
    id ∉ tree.eliminate.1.reachable ↔
      tree.Discards id ∨
        (∃ other ∈ tree.reachable, other ≠ id ∧ ∃ otherValue otherNext,
          tree.get? other = some (.letIn name otherValue otherNext) ∧
            Liveness.isGuard (tree.get? otherNext) = false) ∧
        (∀ reader ∈ tree.reachable, tree.get? reader ≠ some (.var name)) ∧
        ∀ other ∈ tree.reachable, other < id → tree.letName? other = some name →
          tree.Discards other := by
  have bound : tree.letName? id = some name := by rw [letName?, held]
  rw [reached.notMem_reachable_iff linked bound, Liveness.mem_deadNames, and_assoc]
  refine or_congr_right (and_congr_left fun _ => exists_congr fun other =>
    and_congr_right fun _ => ?_)
  rw [Liveness.candidate?_eq_some, iff_and_self]
  rintro ⟨otherValue, otherNext, otherHeld, notGuarded⟩ rfl
  cases held.symm.trans otherHeld
  rw [guarded] at notGuarded
  cases notGuarded

/-- Two bindings of a blank name. A print follows the second one. -/
def guardedSecond : Term :=
  .tuple (.letIn "_" (.int 3) (.int 4)) (.letIn "_" (.print (.str "one")) (.print (.str "two")))

/-- The first binding goes, and so the second one stays. -/
theorem eliminate_removes_guarded_iff_guardedSecond :
    4 ∈ (ofTerm guardedSecond).reachable ∧
      (ofTerm guardedSecond).get? 4 = some (.letIn "_" 5 7) ∧
      Liveness.isGuard ((ofTerm guardedSecond).get? 7) = true ∧
      4 ∈ (ofTerm guardedSecond).eliminate.1.reachable := by
  have forward := forward_ofTerm guardedSecond
  have lets : ∀ id < 4, (ofTerm guardedSecond).letName? id ≠ none → id = 1 := by decide
  have first : (ofTerm guardedSecond).get? 1 = some (.letIn "_" 2 3) := by decide
  have second : (ofTerm guardedSecond).get? 4 = some (.letIn "_" 5 7) := by decide
  have guarded : Liveness.isGuard ((ofTerm guardedSecond).get? 7) = true := by decide
  have leaf : (ofTerm guardedSecond).children 2 = [] := by decide
  refine ⟨by decide, second, guarded, Decidable.not_not.mp fun isGone => ?_⟩
  rcases (eliminate_removes_guarded_iff (.laidOut : Reached guardedSecond _) (by decide) second
    guarded).mp isGone with ⟨outer, ⟨-, isLet, -⟩, inValue⟩ | ⟨-, -, none⟩
  · obtain rfl : outer = 1 := lets outer (forward.lt_of_inValue inValue) isLet
    obtain ⟨name, value, next, around, held, trail⟩ := inValue
    cases first.symm.trans held
    rcases trail.eq_here_or_inPart with ⟨same, -⟩ | ⟨child, member, -⟩
    · exact absurd same (by decide)
    · rw [leaf] at member
      cases member
  · obtain ⟨outer, ⟨-, isLet, -⟩, inValue⟩ := none 1 (by decide) (by decide) (by decide)
    obtain rfl : outer = 0 := Nat.lt_one_iff.mp (forward.lt_of_inValue inValue)
    exact isLet (by decide)

/-- The same bindings the other way round. -/
def guardedFirst : Term :=
  .tuple (.letIn "_" (.print (.str "one")) (.print (.str "two"))) (.letIn "_" (.int 3) (.int 4))

/-- A print follows the first binding, which does not lie inside the value of any other, but it goes
and the one that made its name dead stays. -/
theorem eliminate_removes_guardedFirst :
    1 ∈ (ofTerm guardedFirst).reachable ∧
      (ofTerm guardedFirst).get? 1 = some (.letIn "_" 2 4) ∧
      Liveness.isGuard ((ofTerm guardedFirst).get? 4) = true ∧
      ¬(ofTerm guardedFirst).Discards 1 ∧
      1 ∉ (ofTerm guardedFirst).eliminate.1.reachable ∧
      6 ∈ (ofTerm guardedFirst).eliminate.1.reachable := by
  refine ⟨by decide, by decide, by decide, ?_, by decide, by decide⟩
  rintro ⟨outer, ⟨-, isLet, -⟩, inValue⟩
  obtain rfl : outer = 0 := Nat.lt_one_iff.mp ((forward_ofTerm guardedFirst).lt_of_inValue inValue)
  exact isLet (by decide)

end TermTree

end TreeScript
