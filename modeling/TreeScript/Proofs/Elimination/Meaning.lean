/-
This file shows that elimination keeps the meaning of programs. The term that is
read back afterwards is the one before without some bindings of dead names, and no
variable reads a dead name, so the two run alike: if the first gives a value, so
does the second, with the same value up to the bodies of closures. The values that
went with their bindings were evaluated before and are not any more, so the output
may lose lines. It loses none if no removal is reported as one of an effect.
-/

import TreeScript.Proofs.Elimination.Binders
import TreeScript.Proofs.Elimination.Thinning

namespace TreeScript

open Evaluation

variable {dead : List String} {quiet : Bool}

namespace Node

/-- A node of thinned parts makes a thinned term. -/
theorem thins_assemble {node : Node} {terms others : List Term} (fits : node.Fits terms)
    (isLive : ∀ name, node = .var name → name ∉ dead)
    (each : Term.ThinsAll dead quiet terms others) :
    (node.assemble terms).Thins dead quiet (node.assemble others) := by
  cases fits with
  | letIn =>
    obtain _ | ⟨values, _ | ⟨nexts, ⟨⟩⟩⟩ := each
    exact .letIn values nexts
  | function =>
    obtain _ | ⟨bodies, ⟨⟩⟩ := each
    exact .function bodies
  | ifElse =>
    obtain _ | ⟨conditions, _ | ⟨consequents, _ | ⟨alternatives, ⟨⟩⟩⟩⟩ := each
    exact .ifElse conditions consequents alternatives
  | print =>
    obtain _ | ⟨values, ⟨⟩⟩ := each
    exact .print values
  | call =>
    obtain _ | ⟨callees, rest⟩ := each
    exact .call callees rest
  | var name =>
    cases each
    exact .var (isLive name rfl)
  | int =>
    cases each
    exact .int
  | str =>
    cases each
    exact .str
  | bool =>
    cases each
    exact .bool
  | binary =>
    obtain _ | ⟨lefts, _ | ⟨rights, ⟨⟩⟩⟩ := each
    exact .binary lefts rights
  | tuple =>
    obtain _ | ⟨lefts, _ | ⟨rights, ⟨⟩⟩⟩ := each
    exact .tuple lefts rights
  | first =>
    obtain _ | ⟨values, ⟨⟩⟩ := each
    exact .first values
  | second =>
    obtain _ | ⟨values, ⟨⟩⟩ := each
    exact .second values

end Node

namespace Unfolding

/-- The effects of an unfolding are those of its term. -/
theorem mayHaveEffect_term {tree : TermTree} {unfolding : Unfolding}
    (unfolds : tree.Unfolds unfolding) :
    unfolding.term.mayHaveEffect = unfolding.mayHaveEffect := by
  induction unfolds with
  | @intro id node parts held linked below inductionHypothesis =>
    have fits : node.Fits parts := Node.fits_of_length (by rw [linked, List.length_map])
    rw [term_mk]
    cases fits <;> simp [mayHaveEffect, Term.mayHaveEffect, Node.assemble, inductionHypothesis,
      Bool.or_assoc]

mutual

/-- What is pruned spells the same term without some bindings. -/
theorem Prunes.thins {tree : TermTree} {still left : List String} {unfolding pruned : Unfolding}
    {warnings : List Warning}
    (isLive : ∀ id ∈ unfolding.ids, ∀ name, tree.get? id = some (.var name) → name ∉ dead)
    (unfolds : tree.Unfolds unfolding) (included : still ⊆ dead)
    (harmless : quiet = true → ∀ warning ∈ warnings, warning.removal ≠ .discardedEffect) :
    Prunes still unfolding pruned left warnings → unfolding.term.Thins dead quiet pruned.term
  | @Prunes.drop _ _ _ _ _ _ value _ _ _ isDead rest => by
    have valueUnfolds : tree.Unfolds value := unfolds.part List.mem_cons_self
    have silent : quiet = true → value.term.mayHaveEffect = false := fun isQuiet => by
      rw [mayHaveEffect_term valueUnfolds]
      have reported := harmless isQuiet _ List.mem_cons_self
      rw [warning] at reported
      exact Bool.eq_false_iff.mpr fun effect => reported (if_pos effect)
    rw [term_mk]
    refine .drop (included isDead) silent (rest.thins ?_ (unfolds.part (by simp)) ?_ ?_)
    · exact fun id member => isLive id ((ids_part_sublist (by simp)).subset member)
    · exact fun name member => included (List.mem_of_mem_filter member)
    · exact fun isQuiet warning member => harmless isQuiet warning (List.mem_cons_of_mem _ member)
  | @Prunes.keep _ _ id node parts remaining _ _ each => by
    obtain ⟨held, linked, below⟩ := unfolds
    have fits : node.Fits (parts.map term) :=
      Node.fits_of_length (by rw [linked, List.length_map, List.length_map])
    have relinked : node.Fits (remaining.map Unfolding.id) :=
      Node.fits_of_length (by rw [linked, List.length_map, List.length_map, each.length_eq])
    have refilled : node.Fits (remaining.map term) :=
      Node.fits_of_length (by rw [linked, List.length_map, List.length_map, each.length_eq])
    rw [term_mk, term_mk, Node.assemble_withChildren relinked refilled]
    refine Node.thins_assemble fits ?_ (each.thins ?_ below included harmless)
    · rintro name rfl
      exact isLive id (by simp) name held
    · exact fun other member => isLive other (by rw [ids_mk]; exact List.mem_cons_of_mem _ member)

theorem PrunesAll.thins {tree : TermTree} {still left : List String}
    {parts remaining : List Unfolding} {warnings : List Warning}
    (isLive : ∀ id ∈ parts.flatMap ids, ∀ name, tree.get? id = some (.var name) → name ∉ dead)
    (below : ∀ part ∈ parts, tree.Unfolds part) (included : still ⊆ dead)
    (harmless : quiet = true → ∀ warning ∈ warnings, warning.removal ≠ .discardedEffect) :
    PrunesAll still parts remaining left warnings →
    Term.ThinsAll dead quiet (parts.map term) (remaining.map term)
  | .nil => .nil
  | .cons head tail => by
    refine .cons (head.thins ?_ (below _ List.mem_cons_self) included ?_)
      (tail.thins ?_ (fun part member => below part (List.mem_cons_of_mem _ member)) ?_ ?_)
    · exact fun id member => isLive id (List.mem_append_left _ member)
    · exact fun isQuiet warning member => harmless isQuiet warning (List.mem_append_left _ member)
    · exact fun id member => isLive id (List.mem_append_right _ member)
    · exact fun name member => included (head.left_subset member)
    · exact fun isQuiet warning member => harmless isQuiet warning (List.mem_append_right _ member)

end

end Unfolding

namespace TermTree

/-- Whether no removal is reported as one of an effect. -/
def noEffectLost (warnings : List Warning) : Bool :=
  warnings.all (·.removal ≠ .discardedEffect)

theorem eliminate_thins (term : Term) :
    ∃ pruned, (ofTerm term).eliminate.1.term? = some pruned ∧
      term.Thins (Liveness.ofTree (ofTerm term)).deadNames (noEffectLost (ofTerm term).eliminate.2)
        pruned := by
  obtain ⟨unfolding, unfolds, rooted, spelled, ids⟩ := spells_ofTerm term
  have distinct : unfolding.ids.Nodup := ids ▸ List.nodup_range'
  obtain ⟨pruned, left, prunedUnfolds, prunedRoot, prunes⟩ :=
    eliminate_prunes unfolds rooted distinct
  have thins : unfolding.term.Thins (Liveness.ofTree (ofTerm term)).deadNames
      (noEffectLost (ofTerm term).eliminate.2) pruned.term := by
    refine prunes.thins ?_ unfolds (List.Subset.refl _) ?_
    · intro id member name held
      exact Liveness.notMem_deadNames (reachable_eq_ids unfolds rooted distinct ▸ member) held
    · intro isQuiet warning member
      simpa using List.all_eq_true.mp isQuiet warning member
  exact ⟨pruned.term, term?_eq_term prunedUnfolds prunedRoot (prunes.ids_sublist.nodup distinct),
    spelled ▸ thins⟩

/-- Elimination keeps the meaning of every program, whatever names are bound more than once: if a
program gives a value, so does what remains of it, in the same depth of calls. The value is the
same up to missing bindings in closures, and the output is the same but for lines that bindings
with reported effects would have printed. -/
theorem eliminate_keeps_meaning {dialect : Dialect} {depth : Nat} {term : Term} {value : Value}
    {world : World} (ran : term.run dialect depth = (.ok value, world)) :
    ∃ pruned value' world' links,
      (ofTerm term).eliminate.1.term? = some pruned ∧
      pruned.run dialect depth = (.ok value', world') ∧
      Value.Thins (Liveness.ofTree (ofTerm term)).deadNames
        (noEffectLost (ofTerm term).eliminate.2) links value value' ∧
      World.Thins (Liveness.ofTree (ofTerm term)).deadNames
        (noEffectLost (ofTerm term).eliminate.2) links world world' ∧
      (value.hasClosure = false → value' = value) ∧
      world'.output.Sublist world.output ∧
      ((∀ warning ∈ (ofTerm term).eliminate.2, warning.removal ≠ .discardedEffect) →
        world'.output = world.output) := by
  obtain ⟨pruned, readBack, thins⟩ := eliminate_thins term
  obtain ⟨links, value', world', ran', values, worlds⟩ := thins.run_thins ran
  refine ⟨pruned, value', world', links, readBack, ran', values, worlds, values.eq_of_hasClosure,
    worlds.output_sublist, fun noneLost => worlds.output_eq ?_⟩
  exact List.all_eq_true.mpr fun warning member => decide_eq_true (noneLost warning member)

/-- Binds `extra` twice and never reads it; the first binding goes, the one in the function, which
runs twice, stays. -/
def twiceExtra : Term :=
  .letIn "extra" (.tuple (.int 1) (.int 2))
    (.letIn "same" (.function ["x"] (.letIn "extra" (.bool true) (.print (.var "x"))))
      (.call (.var "same") [.call (.var "same") [.str "kept"]]))

theorem eliminate_keeps_meaning_twiceExtra :
    (∃ world, twiceExtra.run .standard 1 = (.ok (.scalar (.str "kept")), world)) ∧
    ∃ pruned world', (ofTerm twiceExtra).eliminate.1.term? = some pruned ∧
      pruned.run .standard 1 = (.ok (.scalar (.str "kept")), world') ∧
      world'.output = ["kept", "kept"] := by
  have ran : twiceExtra.run .standard 1 =
      (.ok (.scalar (.str "kept")), (twiceExtra.run .standard 1).2) := by rfl
  have noneLost : ∀ warning ∈ (ofTerm twiceExtra).eliminate.2,
      warning.removal ≠ .discardedEffect := by decide
  obtain ⟨pruned, value', world', -, readBack, ran', -, -, same, -, output⟩ :=
    eliminate_keeps_meaning ran
  rw [same rfl] at ran'
  exact ⟨⟨_, ran⟩, pruned, world', readBack, ran', output noneLost⟩

end TermTree

end TreeScript
