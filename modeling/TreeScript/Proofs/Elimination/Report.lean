/-
This file says exactly what elimination leaves of a program whose bindings all have
different names, and exactly what it reports. What is left is the term in which
each binding of a dead name has been replaced by what follows it. Reported are the
bindings of dead names that do not lie inside the value of another one, in the
order in which they are written, with the effects that their values had.

While names are different, it does not matter that the removal forgets a dead name
after it has met it, nor when a value is looked at. The names that are still dead
and the names of bindings inside dropped values are known for each part from the
part alone, and that is what the induction over the removal carries along.
-/

import TreeScript.Proofs.Elimination.Meaning
import TreeScript.Proofs.Script.Translation

namespace TreeScript

namespace Term

/-! ### Dead bindings of a term -/

/-- The name that a binding binds. -/
def letName? : Term → Option String
  | letIn name _ _ => some name
  | _ => none

/-- The names of all bindings, each before those inside the binding. -/
def letNames (term : Term) : List String :=
  term.subterms.filterMap letName?

/-- The name of a binding that is followed by neither a print nor a call. -/
def candidateName? : Term → Option String
  | letIn name _ next => if next.kind = .print ∨ next.kind = .call then none else some name
  | _ => none

/-- The names of bindings that are followed by neither a print nor a call and that no variable
reads. -/
def deadNames (term : Term) : List String :=
  (term.subterms.filterMap candidateName?).filter fun name =>
    name ∉ term.subterms.filterMap varName?

mutual

/-- The term with every binding of the given names replaced by what follows it. -/
def prune (dead : List String) : Term → Term
  | letIn name value next =>
    if name ∈ dead then next.prune dead else letIn name (value.prune dead) (next.prune dead)
  | function parameters body => function parameters (body.prune dead)
  | ifElse condition consequent alternative =>
    ifElse (condition.prune dead) (consequent.prune dead) (alternative.prune dead)
  | print value => print (value.prune dead)
  | call callee arguments => call (callee.prune dead) (pruneAll dead arguments)
  | var name => var name
  | int value => int value
  | str value => str value
  | bool value => bool value
  | binary op lhs rhs => binary op (lhs.prune dead) (rhs.prune dead)
  | tuple left right => tuple (left.prune dead) (right.prune dead)
  | first value => first (value.prune dead)
  | second value => second (value.prune dead)

def pruneAll (dead : List String) : List Term → List Term
  | [] => []
  | term :: terms => term.prune dead :: pruneAll dead terms

end

/-- The names bound inside the value of a term that is itself a binding of one of the given
names. -/
def valueNames (dead : List String) : Term → List String
  | letIn name value _ => if name ∈ dead then value.letNames else []
  | _ => []

/-- The names of the bindings that lie inside the value of a binding of one of the given names. -/
def hiddenNames (dead : List String) (term : Term) : List String :=
  term.subterms.flatMap (valueNames dead)

/-- What is reported about a binding of a dead name that is not hidden. -/
def warning? (dead hidden : List String) : Term → Option Warning
  | letIn name value _ =>
    if name ∈ dead ∧ name ∉ hidden then
      some ⟨if value.mayHaveEffect then .discardedEffect else .unused, name, none⟩
    else none
  | _ => none

/-- One warning for each binding of a dead name that does not lie inside the value of another, in
the order of the bindings. -/
def report (term : Term) : List Warning :=
  term.subterms.filterMap (warning? term.deadNames (term.hiddenNames term.deadNames))

/-! ### Names of a term and of its parts -/

variable {dead hidden : List String}

theorem pruneAll_eq_map (terms : List Term) : pruneAll dead terms = terms.map (prune dead) := by
  induction terms with
  | nil => rfl
  | cons term terms inductionHypothesis => rw [pruneAll, inductionHypothesis, List.map_cons]

theorem letNames_eq (term : Term) :
    term.letNames = term.letName?.toList ++ term.parts.flatMap letNames := by
  rw [letNames, subterms_eq_cons, List.filterMap_cons, List.filterMap_flatMap]
  cases term.letName? <;> rfl

theorem hiddenNames_eq (dead : List String) (term : Term) :
    term.hiddenNames dead = term.valueNames dead ++ term.parts.flatMap (hiddenNames dead) := by
  rw [hiddenNames, subterms_eq_cons, List.flatMap_cons, List.flatMap_assoc]
  rfl

theorem mem_letNames_of_mem_parts {term part : Term} (member : part ∈ term.parts) {name : String}
    (bound : name ∈ part.letNames) : name ∈ term.letNames := by
  rw [letNames_eq]
  exact List.mem_append_right _ (List.mem_flatMap.mpr ⟨part, member, bound⟩)

/-- Hidden names are names of bindings. -/
theorem hiddenNames_subset (term : Term) : term.hiddenNames dead ⊆ term.letNames := by
  induction term using induction_on_parts with
  | step term inductionHypothesis =>
    intro name isHidden
    rw [hiddenNames_eq, List.mem_append, List.mem_flatMap] at isHidden
    rcases isHidden with inValue | ⟨part, member, inPart⟩
    · cases term with
      | letIn bound value next =>
        rw [valueNames] at inValue
        split at inValue
        · exact mem_letNames_of_mem_parts List.mem_cons_self inValue
        · cases inValue
      | _ => cases inValue
    · exact mem_letNames_of_mem_parts member (inductionHypothesis part member inPart)

theorem valueNames_of_notMem {term : Term} (live : ∀ name, term.letName? = some name → name ∉ dead) :
    term.valueNames dead = [] := by
  cases term with
  | letIn name => rw [valueNames, if_neg (live name rfl)]
  | _ => rfl

theorem warning?_of_notMem {term : Term} (live : ∀ name, term.letName? = some name → name ∉ dead) :
    term.warning? dead hidden = none := by
  cases term with
  | letIn name => rw [warning?, if_neg fun reported => live name rfl reported.1]
  | _ => rfl

/-- Nothing is reported where all bindings are hidden. -/
theorem filterMap_warning?_of_hidden {term : Term} (isHidden : term.letNames ⊆ hidden) :
    term.subterms.filterMap (warning? dead hidden) = [] := by
  refine List.filterMap_eq_nil_iff.mpr fun inner member => ?_
  cases inner with
  | letIn name =>
    have bound : name ∈ term.letNames := List.mem_filterMap.mpr ⟨_, member, rfl⟩
    rw [warning?, if_neg fun reported => reported.2 (isHidden bound)]
  | _ => rfl

/-! ### What is known about the names of some terms -/

/-- The bindings of some terms have different names. Those that are still dead are the dead ones,
and the hidden ones are those that lie inside the value of a dead one among these terms. -/
structure Foresees (dead hidden still : List String) (terms : List Term) : Prop where
  distinct : (terms.flatMap letNames).Nodup
  dead_iff : ∀ name ∈ terms.flatMap letNames, name ∈ still ↔ name ∈ dead
  hidden_iff : ∀ name ∈ terms.flatMap letNames,
    name ∈ hidden ↔ name ∈ terms.flatMap (hiddenNames dead)

namespace Foresees

variable {still between : List String} {term : Term} {terms : List Term}

theorem parts (foresees : Foresees dead hidden still [term])
    (live : ∀ name, term.letName? = some name → name ∉ dead) :
    Foresees dead hidden still term.parts := by
  obtain ⟨distinct, dead_iff, hidden_iff⟩ := foresees
  simp only [List.flatMap_cons, List.flatMap_nil, List.append_nil] at distinct dead_iff hidden_iff
  rw [hiddenNames_eq, valueNames_of_notMem live, List.nil_append] at hidden_iff
  rw [letNames_eq] at distinct dead_iff hidden_iff
  exact ⟨(List.nodup_append'.mp distinct).2.1,
    fun name bound => dead_iff name (List.mem_append_right _ bound),
    fun name bound => hidden_iff name (List.mem_append_right _ bound)⟩

theorem head (foresees : Foresees dead hidden still (term :: terms)) :
    Foresees dead hidden still [term] := by
  obtain ⟨distinct, dead_iff, hidden_iff⟩ := foresees
  rw [List.flatMap_cons, List.nodup_append'] at distinct
  obtain ⟨headDistinct, -, apart⟩ := distinct
  simp only [List.flatMap_cons, List.mem_append] at dead_iff hidden_iff
  refine ⟨by simpa using headDistinct, fun name bound => ?_, fun name bound => ?_⟩
  all_goals
    simp only [List.flatMap_cons, List.flatMap_nil, List.append_nil] at bound ⊢
  · exact dead_iff name (.inl bound)
  · rw [hidden_iff name (.inl bound)]
    refine or_iff_left fun isHidden => ?_
    obtain ⟨other, member, inOther⟩ := List.mem_flatMap.mp isHidden
    exact apart bound (List.mem_flatMap.mpr ⟨other, member, hiddenNames_subset other inOther⟩)

/-- Pruning a term changes what is still dead only for names that are bound in it. -/
theorem tail (foresees : Foresees dead hidden still (term :: terms))
    (unchanged : ∀ name, name ∉ term.letNames → (name ∈ between ↔ name ∈ still)) :
    Foresees dead hidden between terms := by
  obtain ⟨distinct, dead_iff, hidden_iff⟩ := foresees
  rw [List.flatMap_cons, List.nodup_append'] at distinct
  obtain ⟨-, tailDistinct, apart⟩ := distinct
  simp only [List.flatMap_cons, List.mem_append] at dead_iff hidden_iff
  refine ⟨tailDistinct, fun name bound => ?_, fun name bound => ?_⟩
  · rw [unchanged name fun inTerm => apart inTerm bound]
    exact dead_iff name (.inr bound)
  · rw [hidden_iff name (.inr bound)]
    exact or_iff_right fun isHidden => apart (hiddenNames_subset term isHidden) bound

variable {name : String} {value next : Term}

/-- A dead binding is not hidden, and everything in its value is. -/
theorem of_dead (foresees : Foresees dead hidden still [.letIn name value next])
    (isDead : name ∈ still) :
    name ∈ dead ∧ name ∉ hidden ∧ value.letNames ⊆ hidden ∧
      Foresees dead hidden (still.filter (· ≠ name)) [next] := by
  obtain ⟨distinct, dead_iff, hidden_iff⟩ := foresees
  have names : (letIn name value next).letNames = name :: (value.letNames ++ next.letNames) := by
    simp [letNames_eq (letIn name value next), letName?, Term.parts]
  simp only [List.flatMap_cons, List.flatMap_nil, List.append_nil, names, List.nodup_cons,
    List.mem_append, not_or, List.nodup_append'] at distinct dead_iff hidden_iff
  obtain ⟨⟨notInValue, notInNext⟩, -, nextDistinct, apart⟩ := distinct
  have nowDead : name ∈ dead := (dead_iff name List.mem_cons_self).mp isDead
  have isHidden_iff (other : String) : other ∈ (letIn name value next).hiddenNames dead ↔
      other ∈ value.letNames ∨ other ∈ value.hiddenNames dead ∨ other ∈ next.hiddenNames dead := by
    simp [hiddenNames_eq dead (letIn name value next), valueNames, nowDead, Term.parts]
  refine ⟨nowDead, ?_, fun other inValue => ?_, ?_, fun other bound => ?_, fun other bound => ?_⟩
  · rw [hidden_iff name List.mem_cons_self, isHidden_iff]
    rintro (inValue | inValue | inNext)
    · exact notInValue inValue
    · exact notInValue (hiddenNames_subset value inValue)
    · exact notInNext (hiddenNames_subset next inNext)
  · rw [hidden_iff other (List.mem_cons_of_mem _ (List.mem_append_left _ inValue)), isHidden_iff]
    exact .inl inValue
  all_goals simp only [List.flatMap_cons, List.flatMap_nil, List.append_nil] at *
  · exact nextDistinct
  · have different : other ≠ name := fun same => notInNext (same ▸ bound)
    rw [List.mem_filter, ← dead_iff other (List.mem_cons_of_mem _ (List.mem_append_right _ bound))]
    simp [different]
  · rw [hidden_iff other (List.mem_cons_of_mem _ (List.mem_append_right _ bound)), isHidden_iff]
    constructor
    · rintro (inValue | inValue | inNext)
      · exact absurd bound (apart inValue)
      · exact absurd bound (apart (hiddenNames_subset value inValue))
      · exact inNext
    · exact fun inNext => .inr (.inr inNext)

end Foresees

end Term

/-! ### Names of a term and of its node -/

namespace TermTree

variable {tree : TermTree} {unfolding : Unfolding}

theorem letName?_eq_some {id : TermId} {name : String} (bound : tree.letName? id = some name) :
    ∃ value next, tree.get? id = some (.letIn name value next) := by
  rw [letName?] at bound
  split at bound
  next held =>
    cases bound
    exact ⟨_, _, held⟩
  next => cases bound

theorem Unfolds.letName?_term (unfolds : tree.Unfolds unfolding) :
    unfolding.term.letName? = tree.letName? unfolding.id := by
  obtain ⟨held, linked, -⟩ := unfolds
  have fits := fits_of_linked linked
  rw [letName?, Unfolding.id_mk, held, Unfolding.term_mk]
  generalize List.map Unfolding.term _ = terms at fits
  cases fits <;> rfl

theorem Unfolds.kind_term (unfolds : tree.Unfolds unfolding) :
    unfolding.term.kind = unfolding.node.kind := by
  obtain ⟨-, linked, -⟩ := unfolds
  have fits := fits_of_linked linked
  rw [Unfolding.term_mk]
  generalize List.map Unfolding.term _ = terms at fits
  cases fits <;> rfl

end TermTree

/-! ### What is left and what is reported -/

theorem Node.prune_assemble {node : Node} {terms : List Term} {dead : List String}
    (fits : node.Fits terms)
    (live : ∀ name, (node.assemble terms).letName? = some name → name ∉ dead) :
    (node.assemble terms).prune dead = node.assemble (terms.map (Term.prune dead)) := by
  cases fits with
  | letIn name =>
    have notDead : name ∉ dead := live name rfl
    simp [assemble, Term.prune, notDead]
  | _ => simp [assemble, Term.prune, Term.pruneAll_eq_map]

namespace Unfolding

open Term

variable {tree : TermTree} {dead hidden : List String}

mutual

/-- Names that are not bound in a term stay dead or not dead. -/
theorem Prunes.mem_left_iff {still left : List String} {unfolding pruned : Unfolding}
    {warnings : List Warning} (unfolds : tree.Unfolds unfolding) {name : String}
    (absent : name ∉ unfolding.term.letNames) :
    Prunes still unfolding pruned left warnings → (name ∈ left ↔ name ∈ still)
  | @Prunes.drop _ _ bound _ _ _ value next _ _ _ rest => by
    have names : name ≠ bound ∧ name ∉ next.term.letNames := by
      rw [letNames_eq, unfolds.parts_term] at absent
      simp only [term_mk, Node.assemble, letName?, List.map_cons, List.map_nil,
        List.mem_append, not_or] at absent
      simp_all
    rw [rest.mem_left_iff (unfolds.part (by simp)) names.2, List.mem_filter]
    simp [names.1]
  | .keep _ each => by
    rw [letNames_eq, List.mem_append, not_or, unfolds.parts_term] at absent
    exact each.mem_left_iff (fun _ => unfolds.part) absent.2

theorem PrunesAll.mem_left_iff {still left : List String} {parts remaining : List Unfolding}
    {warnings : List Warning} (below : ∀ part ∈ parts, tree.Unfolds part) {name : String}
    (absent : name ∉ (parts.map term).flatMap letNames) :
    PrunesAll still parts remaining left warnings → (name ∈ left ↔ name ∈ still)
  | .nil => Iff.rfl
  | .cons head tail => by
    rw [List.map_cons, List.flatMap_cons, List.mem_append, not_or] at absent
    exact (tail.mem_left_iff (fun part member => below part (List.mem_cons_of_mem _ member))
      absent.2).trans (head.mem_left_iff (below _ List.mem_cons_self) absent.1)

end

mutual

theorem Prunes.eq_prune {still left : List String} {unfolding pruned : Unfolding}
    {warnings : List Warning} (unfolds : tree.Unfolds unfolding)
    (foresees : Foresees dead hidden still [unfolding.term]) :
    Prunes still unfolding pruned left warnings →
      pruned.term = unfolding.term.prune dead ∧
        warnings = unfolding.term.subterms.filterMap (warning? dead hidden)
  | @Prunes.drop _ _ name id valueId nextId value next _ _ isDead rest => by
    have valueUnfolds : tree.Unfolds value := unfolds.part List.mem_cons_self
    have spelled : (mk id (.letIn name valueId nextId) [value, next]).term =
        .letIn name value.term next.term := term_mk _ _ _
    rw [spelled] at foresees ⊢
    obtain ⟨nowDead, notHidden, valueHidden, nextForesees⟩ := foresees.of_dead isDead
    obtain ⟨isPruned, reported⟩ := rest.eq_prune (unfolds.part (by simp)) nextForesees
    refine ⟨by rw [isPruned, prune, if_pos nowDead], ?_⟩
    have here : (Term.letIn name value.term next.term).warning? dead hidden =
        some (value.warning name) := by
      rw [warning?, if_pos ⟨nowDead, notHidden⟩, mayHaveEffect_term valueUnfolds, warning]
    rw [subterms, List.filterMap_cons_some here, List.filterMap_append,
      filterMap_warning?_of_hidden valueHidden, List.nil_append, reported]
  | @Prunes.keep _ _ id node parts remaining _ isLive each => by
    obtain ⟨held, linked, below⟩ := unfolds
    have whole : tree.Unfolds (.mk id node parts) := ⟨held, linked, below⟩
    have fits : node.Fits (parts.map term) := TermTree.fits_of_linked linked
    have relinked : node.Fits (remaining.map Unfolding.id) :=
      Node.fits_of_length (by rw [linked, List.length_map, List.length_map, each.length_eq])
    have refilled : node.Fits (remaining.map term) :=
      Node.fits_of_length (by rw [linked, List.length_map, List.length_map, each.length_eq])
    have live (name : String) (isLet : (mk id node parts).term.letName? = some name) :
        name ∉ dead := by
      rw [← foresees.dead_iff name]
      · obtain ⟨valueId, nextId, isNode⟩ :=
          TermTree.letName?_eq_some (whole.letName?_term.symm.trans isLet)
        exact isLive name valueId nextId (Option.some.inj (held.symm.trans isNode))
      · rw [List.flatMap_singleton, letNames_eq, isLet]
        exact List.mem_append_left _ List.mem_cons_self
    have partsForesee := foresees.parts live
    rw [whole.parts_term] at partsForesee
    obtain ⟨arePruned, reported⟩ := each.eq_prune below partsForesee
    constructor
    · rw [term_mk, term_mk, Node.assemble_withChildren relinked refilled, arePruned,
        Node.prune_assemble fits (term_mk id node parts ▸ live)]
    · rw [subterms_eq_cons, List.filterMap_cons_none (warning?_of_notMem live), whole.parts_term,
        reported]
      rfl

theorem PrunesAll.eq_prune {still left : List String} {parts remaining : List Unfolding}
    {warnings : List Warning} (below : ∀ part ∈ parts, tree.Unfolds part)
    (foresees : Foresees dead hidden still (parts.map term)) :
    PrunesAll still parts remaining left warnings →
      remaining.map term = (parts.map term).map (prune dead) ∧
        warnings =
          ((parts.map term).flatMap subterms).filterMap (warning? dead hidden)
  | .nil => ⟨rfl, rfl⟩
  | .cons head tail => by
    have headUnfolds := below _ List.mem_cons_self
    rw [List.map_cons] at foresees
    obtain ⟨isPruned, reported⟩ := head.eq_prune headUnfolds foresees.head
    obtain ⟨arePruned, othersReported⟩ :=
      tail.eq_prune (fun part member => below part (List.mem_cons_of_mem _ member))
        (foresees.tail fun name absent => head.mem_left_iff headUnfolds absent)
    constructor
    · rw [List.map_cons, List.map_cons, List.map_cons, isPruned, arePruned]
    · rw [List.map_cons, List.flatMap_cons, List.filterMap_append, reported, othersReported]

end

end Unfolding

namespace Liveness

variable {tree : TermTree} {unfolding : Unfolding}

theorem isGuard_iff {node : Node} :
    isGuard (some node) = true ↔ node.kind = .print ∨ node.kind = .call := by
  cases node <;> simp [isGuard, Node.kind]

theorem candidate?_eq (unfolds : tree.Unfolds unfolding) :
    candidate? tree unfolding.id = unfolding.term.candidateName? := by
  obtain @⟨id, node, parts, held, linked, below⟩ := unfolds
  have fits := TermTree.fits_of_linked linked
  rw [candidate?, Unfolding.id_mk, held, Unfolding.term_mk]
  cases node with
  | letIn name value next =>
    obtain ⟨valuePart, nextPart, rfl, -, rfl⟩ := Unfolding.eq_pair linked
    have nextUnfolds := below nextPart (by simp)
    dsimp only
    rw [nextUnfolds.get?, List.map_cons, List.map_cons, List.map_nil, Node.assemble,
      Term.candidateName?, nextUnfolds.kind_term]
    simp only [isGuard_iff]
  | _ =>
    generalize parts.map Unfolding.term = terms at fits
    cases fits
    rfl

theorem reference?_eq (unfolds : tree.Unfolds unfolding) :
    reference? tree unfolding.id = unfolding.term.varName? := by
  rw [reference?, unfolds.get?, unfolds.varName?_term]
  cases unfolding.node <;> rfl

/-- The dead names of a tree are those of the term that it holds. -/
theorem mem_deadNames_iff (unfolds : tree.Unfolds unfolding) (rooted : unfolding.id = tree.root)
    (distinct : unfolding.ids.Nodup) {name : String} :
    name ∈ (ofTree tree).deadNames ↔ name ∈ unfolding.term.deadNames := by
  have candidates : (ofTree tree).candidates =
      unfolding.term.subterms.filterMap Term.candidateName? := by
    rw [ofTree, TermTree.reachable_eq_ids unfolds rooted distinct]
    exact unfolds.filterMap_ids fun inner innerUnfolds => candidate?_eq innerUnfolds
  have referenced : (ofTree tree).referenced = unfolding.term.subterms.filterMap Term.varName? := by
    rw [ofTree, TermTree.reachable_eq_ids unfolds rooted distinct]
    exact unfolds.filterMap_ids fun inner innerUnfolds => reference?_eq innerUnfolds
  rw [deadNames, List.mem_eraseDups, List.mem_filter, Term.deadNames, List.mem_filter, candidates,
    isLive, referenced]
  simp

end Liveness

namespace TermTree

/-- Elimination is exact where bindings have different names. What is left is the term with every
dead binding replaced by what follows it, and the warnings are one for each dead binding that does
not lie inside the value of another, in order, with the effects of the values as they were. -/
theorem eliminate_exact {term : Term} (distinct : term.letNames.Nodup) :
    (ofTerm term).eliminate.1.term? = some (term.prune term.deadNames) ∧
      (ofTerm term).eliminate.2 = term.report := by
  obtain ⟨unfolding, unfolds, rooted, rfl, ids⟩ := spells_ofTerm term
  have idsDistinct : unfolding.ids.Nodup := ids ▸ List.nodup_range'
  obtain ⟨pruned, left, prunedUnfolds, prunedRoot, prunes⟩ :=
    eliminate_prunes unfolds rooted idsDistinct
  have foresees : Term.Foresees unfolding.term.deadNames
      (unfolding.term.hiddenNames unfolding.term.deadNames)
      (Liveness.ofTree (ofTerm unfolding.term)).deadNames [unfolding.term] := by
    refine ⟨by simpa using distinct, fun name _ => ?_, fun name _ => by simp⟩
    exact Liveness.mem_deadNames_iff unfolds rooted idsDistinct
  obtain ⟨isPruned, reported⟩ := prunes.eq_prune unfolds foresees
  refine ⟨?_, reported⟩
  rw [term?_eq_term prunedUnfolds prunedRoot (prunes.ids_sublist.nodup idsDistinct), isPruned]

/-- Nothing reads `spare`, `inner`, `noisy` and `extra`: one of them is bound inside the value of
another, one in a function and one in an argument. Nothing reads `guarded` either, but a print
follows. -/
def spareEverywhere : Term :=
  .letIn "spare" (.letIn "inner" (.print (.int 1)) (.int 2))
    (.letIn "same" (.function ["x"]
        (.letIn "noisy" (.function [] (.print (.int 3))) (.var "x")))
      (.letIn "guarded" (.int 4)
        (.print (.call (.var "same") [.letIn "extra" (.call (.var "same") [.int 5]) (.int 6)]))))

theorem eliminate_exact_spareEverywhere :
    spareEverywhere.letNames.Nodup ∧
      (ofTerm spareEverywhere).eliminate.1.term? =
        some (.letIn "same" (.function ["x"] (.var "x"))
          (.letIn "guarded" (.int 4) (.print (.call (.var "same") [.int 6])))) ∧
      (ofTerm spareEverywhere).eliminate.2 =
        [⟨.discardedEffect, "spare", none⟩, ⟨.unused, "noisy", none⟩,
          ⟨.discardedEffect, "extra", none⟩] := by
  have distinct : spareEverywhere.letNames.Nodup := by decide
  obtain ⟨left, reported⟩ := eliminate_exact distinct
  exact ⟨distinct, left.trans (by rfl), reported.trans (by decide)⟩

end TermTree

end TreeScript
