/-
This file shows that elimination never changes what a variable refers to. Names
may be bound many times, and names are collected over the whole tree while
bindings are removed one at a time, so the binding that goes need not be the one
that was found unread. That does not matter: a binding goes only if its name is
dead, no variable anywhere has a dead name, and so no trail to a variable loses
the node that introduces the variable's name.

A trail in the pruned tree is a trail of the tree before it without the bindings
that went. The search for the innermost binder of a name that is not dead finds
the same id on both.
-/

import TreeScript.Proofs.Arena.Trail
import TreeScript.Proofs.Elimination.Pruning

namespace TreeScript

/-! ### Dead names -/

/-- No linked variable has a dead name. -/
theorem Liveness.notMem_deadNames {tree : TermTree} {id : TermId} {name : String}
    (linked : id ∈ tree.reachable) (held : tree.get? id = some (.var name)) :
    name ∉ (Liveness.ofTree tree).deadNames := by
  have referenced : name ∈ (Liveness.ofTree tree).referenced := by
    refine List.mem_filterMap.mpr ⟨id, linked, ?_⟩
    rw [reference?, held]
  rw [deadNames, List.mem_eraseDups, List.mem_filter]
  rintro ⟨-, unread⟩
  rw [isLive, List.contains_eq_mem, decide_eq_true referenced] at unread
  cases unread

namespace Unfolding

mutual

theorem Prunes.left_subset {dead left : List String} {unfolding pruned : Unfolding}
    {warnings : List Warning} :
    Prunes dead unfolding pruned left warnings → left ⊆ dead
  | .drop _ rest => fun _ member => List.mem_of_mem_filter (rest.left_subset member)
  | .keep _ each => each.left_subset

theorem PrunesAll.left_subset {dead left : List String} {parts remaining : List Unfolding}
    {warnings : List Warning} :
    PrunesAll dead parts remaining left warnings → left ⊆ dead
  | .nil => List.Subset.refl _
  | .cons head tail => fun _ member => head.left_subset (tail.left_subset member)

end

end Unfolding

/-! ### Trails before and after -/

namespace TermTree

variable {tree later : TermTree} {term : Term} {unfolding : Unfolding}

/-- Two lists of ids around an id in which the innermost binder of each name is the same, unless
the name is one of those given. -/
def SameBinders (tree : TermTree) (dead : List String) (around others : List TermId) : Prop :=
  ∀ name, name ∉ dead → around.find? (tree.binds name) = others.find? (tree.binds name)

theorem SameBinders.mono {dead fewer : List String} {around others : List TermId}
    (same : tree.SameBinders fewer around others) (subset : fewer ⊆ dead) :
    tree.SameBinders dead around others :=
  fun name live => same name fun isDead => live (subset isDead)

theorem SameBinders.append {dead : List String} {around others : List TermId}
    (same : tree.SameBinders dead around others) (id : TermId) :
    tree.SameBinders dead (around ++ [id]) (others ++ [id]) := by
  intro name live
  rw [List.find?_append, List.find?_append, same name live]

/-- A binding of a dead name adds no binder of another name. -/
theorem SameBinders.append_dead {dead : List String} {around others : List TermId}
    (same : tree.SameBinders dead around others) {id value next : TermId} {name : String}
    (held : tree.get? id = some (.letIn name value next)) (isDead : name ∈ dead) :
    tree.SameBinders dead (around ++ [id]) others := by
  intro other live
  have different : (name == other) = false := by
    rw [beq_eq_false_iff_ne]
    rintro rfl
    exact live isDead
  have adds : [id].find? (tree.binds other) = none := by
    simp [binds, held, Node.binds, different]
  rw [List.find?_append, adds, Option.or_none, same other live]

mutual

/-- Each trail in the pruned tree was there before, with more ids on it, and binders of names that
are not dead are the same on both. -/
theorem trail_of_prunes {dead left : List String} {unfolding pruned : Unfolding}
    {warnings : List Warning} (unfolds : tree.Unfolds unfolding)
    (laterUnfolds : later.Unfolds pruned)
    {id : TermId} {around : List TermId} (trail : later.Trail pruned.id id around) :
    Unfolding.Prunes dead unfolding pruned left warnings →
    ∃ before, tree.Trail unfolding.id id before ∧ tree.SameBinders dead before around
  | .drop isDead rest => by
    obtain ⟨before, beforeTrail, same⟩ :=
      trail_of_prunes (unfolds.part (by simp)) laterUnfolds trail rest
    refine ⟨_, beforeTrail.ofPart unfolds (by simp), ?_⟩
    exact (same.mono fun _ => List.mem_of_mem_filter).append_dead unfolds.get? isDead
  | .keep _ each => by
    rcases trail.unfolding_cases laterUnfolds with
      ⟨rfl, rfl⟩ | ⟨part, member, inner, innerTrail, rfl⟩
    · exact ⟨[], .here, fun _ _ => rfl⟩
    · obtain ⟨original, originalMember, before, beforeTrail, same⟩ :=
        trail_of_prunesAll (fun _ member => unfolds.part member)
          (fun _ member => laterUnfolds.part member) member innerTrail each
      exact ⟨_, beforeTrail.ofPart unfolds originalMember, same.append _⟩

theorem trail_of_prunesAll {dead left : List String} {parts remaining : List Unfolding}
    {warnings : List Warning} (unfolds : ∀ part ∈ parts, tree.Unfolds part)
    (laterUnfolds : ∀ part ∈ remaining, later.Unfolds part) {part : Unfolding}
    (member : part ∈ remaining) {id : TermId} {around : List TermId}
    (trail : later.Trail part.id id around) :
    Unfolding.PrunesAll dead parts remaining left warnings →
    ∃ original ∈ parts, ∃ before, tree.Trail original.id id before ∧
      tree.SameBinders dead before around
  | .nil => nomatch member
  | .cons head tail => by
    rcases List.mem_cons.mp member with rfl | inTail
    · obtain ⟨before, beforeTrail, same⟩ := trail_of_prunes (unfolds _ List.mem_cons_self)
        (laterUnfolds _ List.mem_cons_self) trail head
      exact ⟨_, List.mem_cons_self, before, beforeTrail, same⟩
    · obtain ⟨original, originalMember, before, beforeTrail, same⟩ := trail_of_prunesAll
        (fun _ member => unfolds _ (List.mem_cons_of_mem _ member))
        (fun _ member => laterUnfolds _ (List.mem_cons_of_mem _ member)) inTail trail tail
      exact ⟨original, List.mem_cons_of_mem _ originalMember, before, beforeTrail,
        same.mono head.left_subset⟩

end

/-! ### Binders before and after -/

theorem Relinked.binds_eq (relinked : Relinked tree later) (name : String) :
    later.binds name = tree.binds name := by
  funext id
  rw [binds, binds]
  cases held : later.get? id with
  | some node =>
    obtain ⟨children, firstHeld, -⟩ := relinked.first_node held
    rw [firstHeld, Option.any_some, Option.any_some, Node.binds_withChildren]
  | none =>
    have outside : tree.get? id = none := by
      have same : later.nodes.size = tree.nodes.size := relinked.size_eq
      rw [get?, Array.getElem?_eq_none_iff] at held ⊢
      rwa [same] at held
    rw [outside]

/-- A variable that is linked after an elimination was linked before, and refers to the same binder
as before. -/
theorem eliminate_resolves (unfolds : tree.Unfolds unfolding) (rooted : unfolding.id = tree.root)
    (distinct : unfolding.ids.Nodup) {id : TermId} {binder : Option TermId}
    (resolves : tree.eliminate.1.Resolves id binder) :
    id ∈ tree.reachable ∧ tree.Resolves id binder := by
  obtain ⟨name, around, laterHeld, trail, rfl⟩ := resolves
  obtain ⟨pruned, left, laterUnfolds, laterRooted, prunes⟩ :=
    eliminate_prunes unfolds rooted distinct
  rw [← laterRooted] at trail
  obtain ⟨before, beforeTrail, same⟩ := trail_of_prunes unfolds laterUnfolds trail prunes
  have linked : id ∈ tree.reachable := by
    rw [reachable_eq_ids unfolds rooted distinct]
    exact unfolds.mem_ids_iff.mpr ⟨before, beforeTrail⟩
  have relinked : Relinked tree tree.eliminate.1 := (Relinked.refl tree).eliminate.2
  obtain ⟨children, held, -⟩ := relinked.first_node laterHeld
  refine ⟨linked, name, before, held, rooted ▸ beforeTrail, ?_⟩
  rw [relinked.binds_eq]
  exact same name (Liveness.notMem_deadNames linked held)

/-- Elimination never changes what a variable refers to, at any moment of a session and whatever
names are repeated or free. Every variable that is still linked was linked before, with its name,
and there is one binder, or none, that it refers to both before and after. So a closed program stays
closed. -/
theorem eliminate_keeps_binders (reached : Reached term tree) :
    (∀ id ∈ tree.eliminate.1.reachable, ∀ name, tree.eliminate.1.get? id = some (.var name) →
      id ∈ tree.reachable ∧ tree.get? id = some (.var name) ∧
        ∃ binder : Option TermId,
          (∀ found, tree.Resolves id found ↔ found = binder) ∧
          (∀ found, tree.eliminate.1.Resolves id found ↔ found = binder)) ∧
      (tree.Closed → tree.eliminate.1.Closed) := by
  obtain ⟨unfolding, unfolds, rooted, distinct⟩ := reached.unfolds
  obtain ⟨pruned, laterUnfolds, laterRooted, laterDistinct⟩ := reached.eliminated.unfolds
  have kept (id : TermId) (linked : id ∈ tree.eliminate.1.reachable) (name : String)
      (held : tree.eliminate.1.get? id = some (.var name)) :
      ∃ binder, tree.eliminate.1.Resolves id binder ∧ id ∈ tree.reachable ∧
        tree.Resolves id binder := by
    obtain ⟨binder, later⟩ := exists_resolves laterUnfolds laterRooted laterDistinct linked held
    exact ⟨binder, later, eliminate_resolves unfolds rooted distinct later⟩
  refine ⟨fun id linked name held => ?_, fun closed id linked name held => ?_⟩
  · obtain ⟨binder, later, wasLinked, before⟩ := kept id linked name held
    obtain ⟨children, firstHeld, -⟩ := (Relinked.refl tree).eliminate.2.first_node held
    refine ⟨wasLinked, firstHeld, binder, fun found => ⟨fun resolves => ?_, ?_⟩,
      fun found => ⟨fun resolves => ?_, ?_⟩⟩
    · exact resolves.unique unfolds rooted distinct before
    · rintro rfl
      exact before
    · exact resolves.unique laterUnfolds laterRooted laterDistinct later
    · rintro rfl
      exact later
  · obtain ⟨binder, later, wasLinked, before⟩ := kept id linked name held
    obtain ⟨children, firstHeld, -⟩ := (Relinked.refl tree).eliminate.2.first_node held
    obtain ⟨bound, isBound⟩ := closed id wasLinked name firstHeld
    obtain rfl := before.unique unfolds rooted distinct isBound
    exact ⟨bound, later⟩

/-- A name that nothing reads, bound twice. The first binding of it is followed by a print, so it
is the second one that makes the name dead, and the first one that goes. -/
def boundTwice : Term :=
  .letIn "x" (.int 7) (.letIn "d" (.int 1) (.print (.letIn "d" (.int 2) (.var "x"))))

theorem eliminate_keeps_binders_boundTwice :
    Reached boundTwice (ofTerm boundTwice) ∧
      (ofTerm boundTwice).eliminate.1.reachable = [0, 1, 4, 5, 6, 7] ∧
      ∃ binder : Option TermId,
        (∀ found, (ofTerm boundTwice).Resolves 7 found ↔ found = binder) ∧
        (∀ found, (ofTerm boundTwice).eliminate.1.Resolves 7 found ↔ found = binder) :=
  ⟨.laidOut, by decide, ((eliminate_keeps_binders .laidOut).1 7 (by decide) "x" (by decide)).2.2⟩

end TermTree

end TreeScript
