/-
This file compares the two ways of going through a tree. The walk keeps a stack of
ids and takes one off it at a time; the outline is written by a recursion that knows
how deep it is. Both are bounded by the size of the arena.

As long as an arena comes from a term, both go through the unfolding at the root, and
the bounds do not matter. So the outline has one entry for each id of the walk, in the
same order, and the ids around an id, which are all different, are those by which its
entry is indented. A root that is not in the arena is all that either of them meets.

An entry starts with the kind of the node that is there. No kind is called missing, so
that word is left for a root that is not in the arena.
-/

import TreeScript.Arena.Outline
import TreeScript.Proofs.Arena.Session
import TreeScript.Proofs.Arena.Trail

namespace TreeScript

/-! ### Summaries -/

/-- A summary starts with the kind of the node. -/
theorem Node.kind_prefix_summary (node : Node) :
    node.kind.name.toList <+: node.summary.toList := by
  have front (kind : Kind) {text : String} (starts : kind.name.toList <+: text.toList)
      (details : String) : kind.name.toList <+: (text ++ details).toList := by
    rw [String.toList_append]
    exact starts.trans (List.prefix_append _ _)
  cases node with
  | letIn name => exact front .letIn (by decide) name
  | function => exact front .function (front .function (by decide) _) ")"
  | var name => exact front .var (by decide) name
  | int value => exact front .int (by decide) (toString value.toInt)
  | str value => exact front .str (by decide) (Text.quoted value)
  | bool value => exact front .bool (by decide) (toString value)
  | binary op => exact front .binary (by decide) op.name
  | ifElse | print | call | tuple | first | second => exact List.prefix_rfl

theorem Node.exists_summary_eq (node : Node) :
    ∃ details, node.summary = node.kind.name ++ details := by
  obtain ⟨details, summarized⟩ := node.kind_prefix_summary
  refine ⟨String.ofList details, String.toList_injective ?_⟩
  rw [String.toList_append, String.toList_ofList, summarized]

/-- No kind is called missing. -/
theorem Node.summary_ne_missing (node : Node) : node.summary ≠ "<missing>" := by
  intro missing
  have apart (kind : Kind) : ¬kind.name.toList <+: "<missing>".toList := by
    cases kind <;> decide
  exact apart node.kind (missing ▸ node.kind_prefix_summary)

namespace TermTree

variable {term : Term} {tree : TermTree} {unfolding : Unfolding}

/-! ### What the outline visits -/

/-- The ids for which the outline has a line, each with the ids around it; the recursion is that of
`outlineFrom`. -/
def outlineVisits (tree : TermTree) : Nat → List TermId → TermId → List (TermId × List TermId)
  | 0, _, _ => []
  | levels + 1, around, id =>
    (id, around) :: (tree.children id).flatMap (tree.outlineVisits levels (id :: around))

/-- An entry of an outline: two blanks for each id around, the id, and what is said about it. -/
def entryOf (id : TermId) (around : List TermId) (said : String) : String :=
  String.join (around.map fun _ => "  ") ++ TermId.text id ++ " " ++ said ++ "\n"

/-- The entry for what is there. -/
def entry (tree : TermTree) (id : TermId) (around : List TermId) : String :=
  entryOf id around (((tree.get? id).map Node.summary).getD "<missing>")

theorem entryOf_inj {id : TermId} {around : List TermId} {said other : String} :
    entryOf id around said = entryOf id around other ↔ said = other := by
  rw [entryOf, entryOf, String.append_left_inj, String.append_right_inj]

theorem entry_eq_missing_iff {id : TermId} {around : List TermId} :
    tree.entry id around = entryOf id around "<missing>" ↔ tree.get? id = none := by
  rw [entry, entryOf_inj]
  cases tree.get? id with
  | none => exact iff_of_true rfl rfl
  | some node => exact iff_of_false node.summary_ne_missing (Option.some_ne_none node)

/-- The entry for a node says of which kind it is. -/
theorem exists_entry_eq {id : TermId} {node : Node} (held : tree.get? id = some node)
    (around : List TermId) :
    ∃ details, tree.entry id around = entryOf id around (node.kind.name ++ details) := by
  obtain ⟨details, summarized⟩ := node.exists_summary_eq
  refine ⟨details, ?_⟩
  rw [entry, held, ← summarized]
  rfl

theorem indent_length (around : List TermId) :
    indent around.length = String.join (around.map fun _ => "  ") := by
  induction around with
  | nil => rfl
  | cons id around inductionHypothesis =>
    rw [List.map_cons, String.join_cons, ← inductionHypothesis, indent, indent, List.length_cons,
      Nat.mul_succ, Nat.add_comm, List.replicate_add, String.ofList_append]
    rfl

theorem outlineLine_eq_entry (id : TermId) (around : List TermId) :
    tree.outlineLine around.length id = tree.entry id around := by
  rw [outlineLine, entry, entryOf, indent_length]
  cases tree.get? id <;> rfl

theorem join_flatMap {α : Type} (texts : α → List String) (items : List α) :
    String.join (items.flatMap texts) =
      String.join (items.map fun item => String.join (texts item)) := by
  induction items with
  | nil => rfl
  | cons item items inductionHypothesis =>
    rw [List.flatMap_cons, String.join_append, inductionHypothesis, List.map_cons, String.join_cons]

/-- In any tree, and for any number of levels, an outline has an entry for each visit. -/
theorem outlineFrom_eq_join (levels : Nat) (around : List TermId) (id : TermId) :
    tree.outlineFrom levels around.length id =
      String.join ((tree.outlineVisits levels around id).map fun place =>
        tree.entry place.1 place.2) := by
  induction levels generalizing around id with
  | zero => rfl
  | succ levels inductionHypothesis =>
    rw [outlineFrom, outlineVisits, List.map_cons, String.join_cons, outlineLine_eq_entry,
      List.map_flatMap, join_flatMap]
    congr 2
    exact List.map_congr_left fun child _ => inductionHypothesis (id :: around) child

/-- Visits go along trails. -/
theorem trail_of_mem_outlineVisits {levels : Nat} {start id : TermId} {around : List TermId}
    (trail : tree.Trail start id around) {place : TermId × List TermId}
    (member : place ∈ tree.outlineVisits levels around id) : tree.Trail start place.1 place.2 := by
  induction levels generalizing id around with
  | zero => cases member
  | succ levels inductionHypothesis =>
    rw [outlineVisits, List.mem_cons, List.mem_flatMap] at member
    rcases member with rfl | ⟨child, isPart, inChild⟩
    · exact trail
    · exact inductionHypothesis (.part trail isPart) inChild

/-- With as many levels as there are ids, the outline visits the whole unfolding. -/
theorem Unfolds.outlineVisits_eq_trails (unfolds : tree.Unfolds unfolding) {levels : Nat}
    (enough : unfolding.ids.length ≤ levels) (around : List TermId) :
    tree.outlineVisits levels around unfolding.id = unfolding.trails around := by
  induction unfolds generalizing levels around with
  | @intro id node parts held linked below inductionHypothesis =>
    cases levels with
    | zero => simp at enough
    | succ levels =>
      have children : tree.children id = parts.map Unfolding.id :=
        Unfolds.children ⟨held, linked, below⟩
      rw [Unfolding.id_mk, outlineVisits, children, Unfolding.trails_mk, List.flatMap_map]
      refine congrArg _ (List.flatMap_congr fun part member => inductionHypothesis part member ?_ _)
      exact Nat.le_of_lt_succ (Nat.lt_of_lt_of_le (Unfolding.length_ids_part_lt member) enough)

/-! ### Roots that are not in the arena -/

theorem children_root_of_missing (missing : tree.size ≤ tree.root) :
    tree.children tree.root = [] := by
  have nothing : tree.get? tree.root = none := Array.getElem?_eq_none missing
  rw [children, nothing]

theorem eq_root_of_trail_missing (missing : tree.size ≤ tree.root) {id : TermId}
    {around : List TermId} (trail : tree.Trail tree.root id around) :
    id = tree.root ∧ around = [] := by
  rcases trail.eq_here_or_inPart with here | ⟨child, isPart, -⟩
  · exact here
  · rw [children_root_of_missing missing] at isPart
    cases isPart

theorem walk_of_missing (missing : tree.size ≤ tree.root) (visits : Nat) :
    tree.walk (visits + 1) [tree.root] = [tree.root] := by
  rw [walk, children_root_of_missing missing, List.nil_append]
  cases visits <;> rfl

/-! ### Both ways through a tree -/

/-- There is a list of places that the walk and the outline go through, as soon as their bounds
exceed the size of the arena. -/
theorem Rerooted.exists_places (rerooted : Rerooted term tree) :
    ∃ places : List (TermId × List TermId),
      (∀ visits, tree.size < visits → tree.walk visits [tree.root] = places.map Prod.fst) ∧
      ∀ levels, tree.size < levels → tree.outlineVisits levels [] tree.root = places := by
  rcases Nat.lt_or_ge tree.root tree.size with inRange | missing
  · obtain ⟨unfolding, unfolds, rooted, distinct⟩ := (rerooted.reached inRange).unfolds
    have within {bound : Nat} (enough : tree.size < bound) : unfolding.ids.length ≤ bound :=
      Nat.le_trans (unfolds.length_ids_le distinct) (Nat.le_of_lt enough)
    refine ⟨unfolding.trails [], fun visits enough => ?_, fun levels enough => ?_⟩
    · rw [unfolds.map_fst_trails, ← unfolds.walk_eq_ids (within enough), rooted]
    · rw [← unfolds.outlineVisits_eq_trails (within enough), rooted]
  · refine ⟨[(tree.root, [])], fun visits enough => ?_, fun levels enough => ?_⟩
    · obtain ⟨visits, rfl⟩ := Nat.exists_eq_succ_of_ne_zero (Nat.ne_zero_of_lt enough)
      exact walk_of_missing missing visits
    · obtain ⟨levels, rfl⟩ := Nat.exists_eq_succ_of_ne_zero (Nat.ne_zero_of_lt enough)
      rw [outlineVisits, children_root_of_missing missing, List.flatMap_nil]

theorem Rerooted.trail_unique (rerooted : Rerooted term tree) {id : TermId}
    {around others : List TermId} (trail : tree.Trail tree.root id around)
    (other : tree.Trail tree.root id others) : around = others := by
  rcases Nat.lt_or_ge tree.root tree.size with inRange | missing
  · obtain ⟨unfolding, unfolds, rooted, distinct⟩ := (rerooted.reached inRange).unfolds
    change unfolding.id = tree.root at rooted
    rw [← rooted] at trail other
    exact unfolds.trail_unique distinct trail other
  · rw [(eq_root_of_trail_missing missing trail).2, (eq_root_of_trail_missing missing other).2]

/-- Only a root that is not in the arena is missing. -/
theorem Rerooted.get?_eq_none_iff (rerooted : Rerooted term tree) {id : TermId}
    (member : id ∈ tree.reachable) :
    tree.get? id = none ↔ id = tree.root ∧ tree.size ≤ tree.root := by
  have outside : tree.get? id = none ↔ tree.size ≤ id := Array.getElem?_eq_none_iff
  rw [outside]
  rcases Nat.lt_or_ge tree.root tree.size with inRange | missing
  · obtain ⟨unfolding, unfolds, rooted, distinct⟩ := (rerooted.reached inRange).unfolds
    have linked : id ∈ unfolding.ids := reachable_eq_ids unfolds rooted distinct ▸ member
    exact iff_of_false (Nat.not_le_of_lt (unfolds.lt_size linked))
      fun isRoot => Nat.not_le_of_lt inRange isRoot.2
  · rw [reachable, walk_of_missing missing, List.mem_singleton] at member
    rw [member, and_iff_right rfl]

/-- What lies around an id is reached on shorter trails. -/
theorem Trail.exists_shorter {start id outer : TermId} {around : List TermId}
    (trail : tree.Trail start id around) (member : outer ∈ around) :
    ∃ others, tree.Trail start outer others ∧ others.length < around.length := by
  induction trail with
  | here => cases member
  | part trail _ inductionHypothesis =>
    rw [List.length_cons]
    rcases List.mem_cons.mp member with rfl | further
    · exact ⟨_, trail, Nat.lt_succ_self _⟩
    · obtain ⟨others, shorter, less⟩ := inductionHypothesis further
      exact ⟨others, shorter, Nat.lt_succ_of_lt less⟩

/-- The ids around an id are all different. -/
theorem Rerooted.nodup_of_trail (rerooted : Rerooted term tree) {id : TermId}
    {around : List TermId} (trail : tree.Trail tree.root id around) : around.Nodup := by
  induction trail with
  | here => exact List.nodup_nil
  | part trail _ inductionHypothesis =>
    refine List.nodup_cons.mpr ⟨fun member => ?_, inductionHypothesis⟩
    obtain ⟨others, other, shorter⟩ := trail.exists_shorter member
    rw [rerooted.trail_unique other trail] at shorter
    exact Nat.lt_irrefl _ shorter

theorem Rerooted.map_fst_outlineVisits (rerooted : Rerooted term tree) :
    (tree.outlineVisits (tree.size + 1) [] tree.root).map Prod.fst = tree.reachable := by
  obtain ⟨places, walked, visited⟩ := rerooted.exists_places
  rw [visited _ (Nat.lt_succ_self _), reachable, walked _ (Nat.lt_succ_self _)]

/-- The ids around an id are a function of it, and the outline visits each id of the walk with
them. -/
theorem Rerooted.exists_ancestors (rerooted : Rerooted term tree) :
    ∃ ancestors : TermId → List TermId,
      (∀ id ∈ tree.reachable, ∀ around,
        tree.Trail tree.root id around ↔ around = ancestors id) ∧
      tree.outlineVisits (tree.size + 1) [] tree.root =
        tree.reachable.map fun id => (id, ancestors id) := by
  have trail (place : TermId × List TermId)
      (member : place ∈ tree.outlineVisits (tree.size + 1) [] tree.root) :
      tree.Trail tree.root place.1 place.2 := trail_of_mem_outlineVisits .here member
  -- Ids that are not linked have no trail, but a function has to say something about them.
  have onTrail (id : TermId) : ∃ around, id ∈ tree.reachable → tree.Trail tree.root id around := by
    by_cases member : id ∈ tree.reachable
    · rw [← rerooted.map_fst_outlineVisits] at member
      obtain ⟨place, visited, rfl⟩ := List.mem_map.mp member
      exact ⟨place.2, fun _ => trail place visited⟩
    · exact ⟨[], fun inside => absurd inside member⟩
  choose ancestors isTrail using onTrail
  refine ⟨ancestors, fun id member around => ⟨fun given => ?_, fun same => ?_⟩, ?_⟩
  · exact rerooted.trail_unique given (isTrail id member)
  · exact same ▸ isTrail id member
  · rw [← rerooted.map_fst_outlineVisits, List.map_map]
    refine ((List.map_congr_left fun place visited => ?_).trans (List.map_id _)).symm
    have linked : place.1 ∈ tree.reachable :=
      rerooted.map_fst_outlineVisits ▸ List.mem_map_of_mem visited
    exact Prod.ext rfl (rerooted.trail_unique (isTrail _ linked) (trail place visited))

/-- The outline goes through the ids of the walk in the same order, and no bound beyond the size of
the arena changes either of them. It is made of one entry for each of these ids, with two blanks for
each of the different ids around it, and an entry for a node says of which kind it is. Only a root
that is not in the arena is missing, and it alone is called missing. -/
theorem Rerooted.outline_follows_walk (rerooted : Rerooted term tree) :
    (∀ more, tree.walk (tree.size + 1 + more) [tree.root] = tree.reachable ∧
        tree.outlineFrom (tree.size + 1 + more) 0 tree.root = tree.outline) ∧
      (tree.outlineVisits (tree.size + 1) [] tree.root).map Prod.fst = tree.reachable ∧
      (∃ ancestors : TermId → List TermId,
        (∀ id ∈ tree.reachable, (ancestors id).Nodup ∧
          ∀ around, tree.Trail tree.root id around ↔ around = ancestors id) ∧
        tree.outline = String.join (tree.reachable.map fun id => tree.entry id (ancestors id))) ∧
      ∀ id ∈ tree.reachable, (tree.get? id = none ↔ id = tree.root ∧ tree.size ≤ tree.root) ∧
        ∀ around, (tree.entry id around = entryOf id around "<missing>" ↔
            id = tree.root ∧ tree.size ≤ tree.root) ∧
          ∀ node, tree.get? id = some node →
            ∃ details, tree.entry id around = entryOf id around (node.kind.name ++ details) := by
  have written (levels : Nat) := tree.outlineFrom_eq_join levels [] tree.root
  refine ⟨fun more => ?_, rerooted.map_fst_outlineVisits, ?_, fun id member => ?_⟩
  · obtain ⟨places, walked, visited⟩ := rerooted.exists_places
    have beyond : tree.size < tree.size + 1 + more := by omega
    refine ⟨(walked _ beyond).trans (walked _ (Nat.lt_succ_self _)).symm, ?_⟩
    refine (written _).trans (Eq.trans ?_ (written _).symm)
    rw [visited _ beyond, visited _ (Nat.lt_succ_self _)]
  · obtain ⟨ancestors, isTrail, visited⟩ := rerooted.exists_ancestors
    refine ⟨ancestors, fun id member => ⟨?_, isTrail id member⟩, ?_⟩
    · exact rerooted.nodup_of_trail ((isTrail id member _).mpr rfl)
    · refine (written _).trans ?_
      rw [visited, List.map_map]
      rfl
  · have isMissing := rerooted.get?_eq_none_iff member
    exact ⟨isMissing, fun around => ⟨entry_eq_missing_iff.trans isMissing,
      fun node held => exists_entry_eq held around⟩⟩

/-- A binding that is removed, and a call inside of what follows it. -/
def spareThenPair : Term :=
  .letIn "spare" (.int 1) (.tuple (.call (.var "f") [.int 2]) (.str "x"))

/-- The outline of what is left, and that of a root outside. -/
theorem Rerooted.outline_follows_walk_spareThenPair :
    ∃ tree, Rerooted spareThenPair tree ∧ tree.reachable = [2, 3, 4, 5, 6] ∧
      (∃ ancestors : TermId → List TermId, ancestors 5 = [3, 2] ∧
        tree.outline = String.join ([2, 3, 4, 5, 6].map fun id => tree.entry id (ancestors id)) ∧
        ∃ details, tree.entry 5 [3, 2] = entryOf 5 [3, 2] ("Int" ++ details)) ∧
      let lost := { tree with root := 9 }
      Rerooted spareThenPair lost ∧ lost.reachable = [9] ∧
        lost.entry 9 [] = entryOf 9 [] "<missing>" := by
  have rerooted : Rerooted spareThenPair (ofTerm spareThenPair).eliminate.1 :=
    .eliminated .laidOut (by decide)
  have ids : (ofTerm spareThenPair).eliminate.1.reachable = [2, 3, 4, 5, 6] := by decide
  have lost : Rerooted spareThenPair { (ofTerm spareThenPair).eliminate.1 with root := 9 } :=
    .rooted rerooted 9
  obtain ⟨-, -, ⟨ancestors, isTrail, written⟩, entries⟩ := rerooted.outline_follows_walk
  obtain ⟨-, -, -, lostEntries⟩ := lost.outline_follows_walk
  rw [ids] at isTrail written entries
  have trail : (ofTerm spareThenPair).eliminate.1.Trail 2 5 [3, 2] :=
    .part (.part .here (by decide)) (by decide)
  refine ⟨_, rerooted, ids, ⟨ancestors, ?_, written, ?_⟩, lost, by decide, ?_⟩
  · exact (((isTrail 5 (by decide)).2 _).mp trail).symm
  · exact ((entries 5 (by decide)).2 [3, 2]).2 (.int 2) rfl
  · exact ((lostEntries 9 (by decide)).2 []).1.mpr ⟨rfl, by decide⟩

end TermTree

end TreeScript
