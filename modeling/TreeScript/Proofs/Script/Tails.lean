/-
This file shows that sessions do not move tails. The tail of an id is where the
chain of bindings from it ends. Elimination moves links forward along these very
chains, also the links of bindings that are not linked any more and of bindings in
the middle of a chain. So a chain can lose bindings on the way, but from each id it
ends where it ended in the first layout.

Recording a tail is therefore independent of everything else that happens in a
session. It can be done before or after any other step, twice or once, and what is
recorded in the end are the tails that the first layout had.
-/

import TreeScript.Proofs.Arena.Integrity

namespace TreeScript

open Script

theorem Node.kind_withChildren {node : Node} {ids : List TermId} (fits : node.Fits ids) :
    (node.withChildren ids).kind = node.kind := by
  cases fits with
  | call callee newCallee same =>
    rw [withChildren, if_pos same]
    rfl
  | _ => rfl

/-! ### Where chains end -/

namespace TermTree

/-- The chain of bindings from an id ends at a node that is no binding. -/
def EndsAt (tree : TermTree) (id tail : TermId) : Prop :=
  tree.Continues id tail ∧ ∃ node, tree.get? tail = some node ∧ node.kind ≠ .letIn

variable {first tree : TermTree} {term : Term} {id : TermId}

theorem isNext_unique (tree : TermTree) : Relator.RightUnique tree.IsNext := by
  rintro id next other ⟨name, value, held⟩ ⟨otherName, otherValue, otherHeld⟩
  cases held.symm.trans otherHeld
  rfl

/-- Nothing follows the end of a chain. -/
theorem EndsAt.eq_of_continues {tail later : TermId} (ends : tree.EndsAt id tail)
    (continues : tree.Continues tail later) : later = tail := by
  obtain ⟨-, node, held, notLet⟩ := ends
  rcases continues.cases_head with same | ⟨next, ⟨name, value, isLet⟩, -⟩
  · exact same.symm
  · cases held.symm.trans isLet
    exact absurd rfl notLet

theorem EndsAt.unique {tail other : TermId} (ends : tree.EndsAt id tail)
    (otherEnds : tree.EndsAt id other) : other = tail := by
  rcases Relation.ReflTransGen.total_of_right_unique tree.isNext_unique ends.1 otherEnds.1 with
    continues | continues
  · exact ends.eq_of_continues continues
  · exact (otherEnds.eq_of_continues continues).symm

theorem EndsAt.iff {tail : TermId} (ends : tree.EndsAt id tail) (other : TermId) :
    tree.EndsAt id other ↔ other = tail := by
  constructor
  · exact ends.unique
  · rintro rfl
    exact ends

/-- Where links moved forward, a chain leads to what it led to first. -/
theorem Relinked.continues (relinked : Relinked first tree) {later : TermId}
    (continues : tree.Continues id later) : first.Continues id later := by
  induction continues with
  | refl => exact .refl
  | tail _ isNext inductionHypothesis =>
    obtain ⟨name, value, isLet⟩ := isNext
    exact inductionHypothesis.trans (relinked.next isLet).to_reflTransGen

/-- So it ends where it ended first. -/
theorem Relinked.endsAt (relinked : Relinked first tree) {tail : TermId}
    (ends : tree.EndsAt id tail) : first.EndsAt id tail := by
  obtain ⟨continues, node, held, notLet⟩ := ends
  obtain ⟨children, firstHeld, forward⟩ := relinked.first_node held
  refine ⟨relinked.continues continues, _, firstHeld, ?_⟩
  rwa [Node.kind_withChildren (Node.fits_of_length forward.length_eq)]

/-! ### Finding the end -/

theorem endsAt_of_tailFrom {bindings : Nat} {tail : TermId}
    (found : tailFrom tree bindings id = .ok tail) : tree.EndsAt id tail := by
  induction bindings generalizing id with
  | zero => cases found
  | succ bindings inductionHypothesis =>
    rw [tailFrom] at found
    split at found
    next name value next held =>
      obtain ⟨continues, isEnd⟩ := inductionHypothesis found
      exact ⟨.head ⟨name, value, held⟩ continues, isEnd⟩
    next node notLet held =>
      cases found
      refine ⟨.refl, node, held, fun isLet => ?_⟩
      cases node with
      | letIn name value next => exact notLet name value next rfl
      | _ => cases isLet
    next => cases found

theorem tailFrom_root (root : TermId) (bindings : Nat) (id : TermId) :
    tailFrom { tree with root := root } bindings id = tailFrom tree bindings id := by
  induction bindings generalizing id with
  | zero => rfl
  | succ bindings inductionHypothesis =>
    rw [tailFrom, tailFrom]
    simp only [inductionHypothesis]
    rfl

/-- At every moment of a session each id of the arena has a tail. -/
theorem Reached.exists_tail (reached : Reached term tree) (inRange : id < term.size) :
    ∃ found, tail tree id = .ok found ∧ tree.EndsAt id found ∧ (ofTerm term).EndsAt id found := by
  have relinked := reached.relinked.1
  rw [← size_ofTerm, ← relinked.size_eq] at inRange
  obtain ⟨unfolding, unfolds, rfl, distinct⟩ := reached.unfolds_at inRange
  have found : tail tree unfolding.id = .ok unfolding.tail :=
    unfolds.tailFrom_eq_tail (Nat.le_succ_of_le (unfolds.length_ids_le distinct))
  have ends := endsAt_of_tailFrom found
  exact ⟨unfolding.tail, found, ends, relinked.endsAt ends⟩

/-- An id outside of the arena has none. -/
theorem Reached.tail_eq_error (reached : Reached term tree) (outside : term.size ≤ id) :
    tail tree id = .error ⟨id, .tagging⟩ := by
  have sameSize := reached.relinked.1.size_eq
  rw [← size_ofTerm, ← sameSize] at outside
  have missing : tree.get? id = none := Array.getElem?_eq_none_iff.mpr outside
  rw [tail, tailFrom, missing]

/-- At every moment of a session tails are those of the first layout. -/
theorem Reached.tail_eq (reached : Reached term tree) (id : TermId) :
    tail tree id = tail (ofTerm term) id := by
  rcases Nat.lt_or_ge id term.size with inRange | outside
  · obtain ⟨found, isTail, -, ends⟩ := reached.exists_tail inRange
    obtain ⟨other, isFirstTail, firstEnds, -⟩ := (.laidOut : Reached term _).exists_tail inRange
    rw [isTail, isFirstTail, ends.unique firstEnds]
  · rw [reached.tail_eq_error outside, (.laidOut : Reached term _).tail_eq_error outside]

end TermTree

/-! ### Recording tails -/

namespace Script.TailPositions

theorem tag_of_ok {tree : TermTree} {id found : TermId} (isTail : tail tree id = .ok found)
    (tails : TailPositions) : tails.tag tree id = .ok (found, tails.insert found) := by
  rw [tag, isTail]
  rfl

theorem tag_of_error {tree : TermTree} {id : TermId} {missing : MissingTerm}
    (noTail : tail tree id = .error missing) (tails : TailPositions) :
    tails.tag tree id = .error missing := by
  rw [tag, noTail]
  rfl

theorem insert_of_mem {tails : TailPositions} {id : TermId} (member : id ∈ tails.ids) :
    tails.insert id = tails := by
  rw [insert, isReturning, List.contains_iff_mem.mpr member, if_pos rfl]

theorem insert_of_notMem {tails : TailPositions} {id : TermId} (absent : id ∉ tails.ids) :
    tails.insert id = ⟨id :: tails.ids⟩ := by
  rw [insert, isReturning, if_neg]
  rwa [List.contains_iff_mem]

theorem insert_insert (tails : TailPositions) (id : TermId) :
    (tails.insert id).insert id = tails.insert id :=
  insert_of_mem (mem_insert.mpr (.inl rfl))

/-- The order of two insertions is seen in the order of the list only. -/
theorem insert_comm (tails : TailPositions) (id other : TermId) :
    ((tails.insert id).insert other).ids.Perm ((tails.insert other).insert id).ids := by
  by_cases same : id = other
  · rw [same]
  have apart {first second : TermId} (different : first ≠ second) (absent : first ∉ tails.ids) :
      first ∉ (tails.insert second).ids := by
    rw [mem_insert, not_or]
    exact ⟨different, absent⟩
  by_cases member : id ∈ tails.ids
  · rw [insert_of_mem member, insert_of_mem (mem_insert.mpr (.inr member))]
  by_cases otherMember : other ∈ tails.ids
  · rw [insert_of_mem otherMember, insert_of_mem (mem_insert.mpr (.inr otherMember))]
  · rw [insert_of_notMem (apart (Ne.symm same) otherMember), insert_of_notMem (apart same member),
      insert_of_notMem member, insert_of_notMem otherMember]
    exact .swap id other tails.ids

end Script.TailPositions

namespace Session

open TermTree

variable {session : Session} {term : Term}

/-- Sessions that differ at most in the order in which tails were recorded. -/
structure Alike (session other : Session) : Prop where
  tree_eq : session.tree = other.tree
  purity_eq : session.purity = other.purity
  tails_perm : session.tails.ids.Perm other.tails.ids

theorem apply_tag_of_ok (session : Session) {id found : TermId}
    (isTail : tail session.tree id = .ok found) :
    session.apply (.tag id) = { session with tails := session.tails.insert found } := by
  rw [apply, TailPositions.tag_of_ok isTail]

theorem apply_tag_of_error (session : Session) {id : TermId} {missing : MissingTerm}
    (noTail : tail session.tree id = .error missing) : session.apply (.tag id) = session := by
  rw [apply, TailPositions.tag_of_error noTail]

theorem tree_apply_tag (session : Session) (id : TermId) :
    (session.apply (.tag id)).tree = session.tree := by
  rw [apply]
  split <;> rfl

/-- No step changes the tail of any id. -/
theorem tail_apply (reached : Reached term session.tree) (action : Action) (id : TermId) :
    tail (session.apply action).tree id = tail session.tree id := by
  cases action with
  | eliminate => exact (reached.eliminated.tail_eq id).trans (reached.tail_eq id).symm
  | assignRoot root => exact tailFrom_root root _ id
  | tag other => rw [tree_apply_tag]
  | _ => rfl

theorem apply_tag_apply_tag (session : Session) (id : TermId) :
    (session.apply (.tag id)).apply (.tag id) = session.apply (.tag id) := by
  cases isTail : tail session.tree id with
  | ok found =>
    rw [apply_tag_of_ok session isTail,
      apply_tag_of_ok { session with tails := session.tails.insert found } isTail,
      TailPositions.insert_insert]
  | error missing => rw [apply_tag_of_error session isTail, apply_tag_of_error session isTail]

/-- A tail can be recorded before or after any other step. -/
theorem apply_tag_comm (reached : Reached term session.tree) (action : Action) (id : TermId) :
    ((session.apply action).apply (.tag id)).Alike ((session.apply (.tag id)).apply action) := by
  have later := tail_apply reached action id
  cases isTail : tail session.tree id with
  | error missing =>
    rw [apply_tag_of_error _ isTail, apply_tag_of_error _ (later.trans isTail)]
    exact ⟨rfl, rfl, .refl _⟩
  | ok found =>
    rw [apply_tag_of_ok _ isTail, apply_tag_of_ok _ (later.trans isTail)]
    cases action with
    | tag other =>
      cases otherTail : tail session.tree other with
      | error missing =>
        rw [apply_tag_of_error session otherTail,
          apply_tag_of_error { session with tails := session.tails.insert found } otherTail]
        exact ⟨rfl, rfl, .refl _⟩
      | ok otherFound =>
        rw [apply_tag_of_ok session otherTail,
          apply_tag_of_ok { session with tails := session.tails.insert found } otherTail]
        exact ⟨rfl, rfl, TailPositions.insert_comm _ _ _⟩
    | _ => exact ⟨rfl, rfl, .refl _⟩

/-- A step records the tail that it is asked to record, as the first layout has it, and no other. -/
theorem mem_tails_apply (reached : Reached term session.tree) {action : Action} {found : TermId} :
    found ∈ (session.apply action).tails.ids ↔
      found ∈ session.tails.ids ∨ ∃ id, action = .tag id ∧ (ofTerm term).EndsAt id found := by
  cases action with
  | tag id =>
    simp only [Action.tag.injEq, exists_eq_left']
    rcases Nat.lt_or_ge id term.size with inRange | outside
    · obtain ⟨isFound, isTail, -, ends⟩ := reached.exists_tail inRange
      rw [apply_tag_of_ok _ isTail, TailPositions.mem_insert, ends.iff, or_comm]
    · have noEnd : ¬(ofTerm term).EndsAt id found := by
        rintro ⟨continues, node, held, -⟩
        rw [← size_ofTerm] at outside
        have missing : (ofTerm term).get? id = none := Array.getElem?_eq_none_iff.mpr outside
        rcases continues.cases_head with rfl | ⟨next, ⟨name, value, isLet⟩, -⟩
        · cases missing.symm.trans held
        · cases missing.symm.trans isLet
      rw [apply_tag_of_error _ (reached.tail_eq_error outside)]
      simp [noEnd]
  | _ => simp [apply]

/-- After a whole session the tails of all ids that were asked for are recorded, as the first layout
has them. -/
theorem mem_tails_run {actions : List Action} (reached : Reached term session.tree)
    (inRange : ∀ id, Action.assignRoot id ∈ actions → id < term.size) {found : TermId} :
    found ∈ (session.run actions).tails.ids ↔
      found ∈ session.tails.ids ∨
        ∃ id, Action.tag id ∈ actions ∧ (ofTerm term).EndsAt id found := by
  induction actions generalizing session with
  | nil => simp [run]
  | cons action actions inductionHypothesis =>
    have rest := inductionHypothesis
      (apply_reached reached fun id same => inRange id (same ▸ List.mem_cons_self))
      (fun id member => inRange id (List.mem_cons_of_mem _ member))
    refine rest.trans ?_
    rw [mem_tails_apply reached]
    simp only [List.mem_cons, or_and_right, exists_or, or_assoc, eq_comm]

/-- What holds of tails at every moment of the session of a term. -/
structure TailsStable (term : Term) (session : Session) : Prop where
  /-- From each id of the arena one node that is no binding is at the end of the chain, it is the one
  that was there first, and it is found and recorded. -/
  tail : ∀ id < term.size, ∃ found,
    (∀ other, (ofTerm term).EndsAt id other ↔ other = found) ∧
    (∀ other, session.tree.EndsAt id other ↔ other = found) ∧
    (∀ tails : TailPositions, tails.tag (ofTerm term) id = .ok (found, tails.insert found)) ∧
    (∀ tails : TailPositions, tails.tag session.tree id = .ok (found, tails.insert found))
  /-- Any other id is refused, and nothing is recorded. -/
  missing : ∀ id, term.size ≤ id →
    (∀ tails : TailPositions, tails.tag session.tree id = .error ⟨id, .tagging⟩) ∧
      session.apply (.tag id) = session
  /-- Recording commutes with elimination, with another recording and with every other step. -/
  commutes : ∀ action id,
    ((session.apply action).apply (.tag id)).Alike ((session.apply (.tag id)).apply action)
  /-- Recording once more changes nothing. -/
  repeated : ∀ id, (session.apply (.tag id)).apply (.tag id) = session.apply (.tag id)

theorem tailsStable (reached : Reached term session.tree) : TailsStable term session where
  tail id inRange := by
    obtain ⟨found, isTail, ends, firstEnds⟩ := reached.exists_tail inRange
    have isFirstTail := (reached.tail_eq id).symm.trans isTail
    exact ⟨found, firstEnds.iff, ends.iff, TailPositions.tag_of_ok isFirstTail,
      TailPositions.tag_of_ok isTail⟩
  missing id outside := by
    have noTail := reached.tail_eq_error outside
    exact ⟨TailPositions.tag_of_error noTail, apply_tag_of_error session noTail⟩
  commutes := apply_tag_comm reached
  repeated := apply_tag_apply_tag session

/-- Tails are stable over whole sessions: after any number of steps of any kind in any order, with
roots assigned within the arena, they are those of the first layout, and those that were asked for
are recorded. -/
theorem run_tailsStable {actions : List Action}
    (inRange : ∀ id, Action.assignRoot id ∈ actions → id < term.size) :
    TailsStable term ((start term).run actions) ∧
      ∀ found, ((start term).run actions).tails.isReturning found = true ↔
        ∃ id, Action.tag id ∈ actions ∧ (ofTerm term).EndsAt id found := by
  have fresh : Reached term (start term).tree := .laidOut
  refine ⟨tailsStable (run_reached fresh inRange).1, fun found => ?_⟩
  rw [TailPositions.isReturning, List.contains_iff_mem, mem_tails_run fresh inRange]
  simp [start]

/-- A binding that is read, followed by two that are not. -/
def readThenSpare : Term :=
  .letIn "read" (.int 1) (.letIn "spare" (.int 2) (.letIn "extra" (.int 3) (.var "read")))

/-- The first binding is linked to the end of its chain after the elimination. The second one is not
linked any more, until it becomes the root, and its chain still ends there too. -/
theorem run_tailsStable_readThenSpare :
    let actions : List Action := [.eliminate, .tag 0, .assignRoot 2, .eliminate, .tag 2, .tag 99]
    (∀ id, Action.assignRoot id ∈ actions → id < readThenSpare.size) ∧
      ((start readThenSpare).run actions).tree.get? 0 = some (.letIn "read" 1 6) ∧
      TailsStable readThenSpare ((start readThenSpare).run actions) ∧
      ∀ found, ((start readThenSpare).run actions).tails.isReturning found = true ↔
        ∃ id, Action.tag id ∈ actions ∧ (ofTerm readThenSpare).EndsAt id found := by
  intro actions
  have inRange : ∀ id, Action.assignRoot id ∈ actions → id < readThenSpare.size := by
    intro id member
    obtain rfl : id = 2 := by simpa [actions] using member
    decide
  exact ⟨inRange, by decide, run_tailsStable inRange⟩

end Session

end TreeScript
