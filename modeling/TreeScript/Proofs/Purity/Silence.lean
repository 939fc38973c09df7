/-
This file says when an inferred purity can be relied on. The walk that infers it
knows a function only by its name, only through calls by name, and only once it
has seen the whole body. So names must be bound once, every call must be a call of
a variable that refers to a function bound by name, and what a function calls must
be the function itself or one whose body stands before the call. Then a function
that is inferred to be pure prints nothing, whatever the arguments are, wherever in
a run it is called or could be called.

The conditions are about the nodes of an arena and their trails. They are carried
over to the term that the arena spells, where names then tell functions apart, and
where no print and no call of an impure function stands in the body of a pure one.
-/

import TreeScript.Proofs.Purity.Chains
import TreeScript.Proofs.Purity.Runs

namespace TreeScript

/-! ### Contained terms and their ids -/

theorem Term.quietAll_iff {silent : String → Prop} {terms : List Term} :
    QuietAll silent terms ↔ ∀ term ∈ terms, term.Quiet silent := by
  induction terms with
  | nil => simp [QuietAll]
  | cons term terms inductionHypothesis =>
    rw [QuietAll, inductionHypothesis, List.forall_mem_cons]

namespace TermTree

variable {tree : TermTree} {unfolding : Unfolding}

/-- A contained term is spelled by the unfolding of some id. -/
theorem Unfolds.exists_of_contains (unfolds : tree.Unfolds unfolding) {term : Term}
    (contains : unfolding.term.Contains term) :
    ∃ inner, tree.Unfolds inner ∧ inner.term = term ∧ inner.id ∈ unfolding.ids := by
  induction contains with
  | refl => exact ⟨unfolding, unfolds, rfl, unfolding.id_mem_ids⟩
  | tail _ member inductionHypothesis =>
    obtain ⟨outer, outerUnfolds, rfl, linked⟩ := inductionHypothesis
    rw [outerUnfolds.parts_term] at member
    obtain ⟨part, partMember, rfl⟩ := List.mem_map.mp member
    refine ⟨part, outerUnfolds.part partMember, rfl, ?_⟩
    obtain ⟨around, trail⟩ := unfolds.mem_ids_iff.mp linked
    refine unfolds.mem_ids_iff.mpr ⟨_, .part trail ?_⟩
    rw [outerUnfolds.children]
    exact List.mem_map_of_mem partMember

/-- The unfolding of every id spells a contained term. -/
theorem Unfolds.contains_of_mem_ids (unfolds : tree.Unfolds unfolding) {id : TermId}
    (member : id ∈ unfolding.ids) :
    ∃ inner, tree.Unfolds inner ∧ inner.id = id ∧ unfolding.term.Contains inner.term := by
  obtain ⟨around, trail⟩ := unfolds.mem_ids_iff.mp member
  induction trail with
  | here => exact ⟨unfolding, unfolds, rfl, .refl⟩
  | @part outer child around trail isChild inductionHypothesis =>
    obtain ⟨inner, innerUnfolds, rfl, contains⟩ :=
      inductionHypothesis (unfolds.mem_ids_iff.mpr ⟨around, trail⟩)
    rw [innerUnfolds.children] at isChild
    obtain ⟨part, partMember, rfl⟩ := List.mem_map.mp isChild
    refine ⟨part, innerUnfolds.part partMember, rfl, contains.part ?_⟩
    rw [innerUnfolds.parts_term]
    exact List.mem_map_of_mem partMember

/-! ### Names that are bound once, calls that can be seen -/

/-- The names that the node at an id introduces. -/
def boundNames (tree : TermTree) (id : TermId) : List String :=
  match tree.get? id with
  | some (.letIn name _ _) => [name]
  | some (.function parameters _) => parameters
  | _ => []

/-- Linked bindings and parameters all have different names. -/
def BindsOnce (tree : TermTree) : Prop :=
  (tree.reachable.flatMap tree.boundNames).Nodup

/-- The node at an id is a call of a variable with this name, and the variable refers to a binding
of a function with this body. -/
def Targets (tree : TermTree) (id : TermId) (name : String) (body : TermId) : Prop :=
  ∃ callee arguments binder value next parameters,
    tree.get? id = some (.call callee arguments) ∧ tree.get? callee = some (.var name) ∧
    tree.Resolves callee (some binder) ∧ tree.get? binder = some (.letIn name value next) ∧
    tree.get? value = some (.function parameters body)

/-- Every linked call has a function bound by name as its target. -/
def CallsNamed (tree : TermTree) : Prop :=
  ∀ id ∈ tree.reachable, ∀ callee arguments, tree.get? id = some (.call callee arguments) →
    ∃ name body, tree.Targets id name body

/-- Every call in a function bound by name has that function as its target, or one whose whole
body comes before the call. -/
def CallsBackward (tree : TermTree) : Prop :=
  ∀ position id function name body, tree.reachable[position]? = some id →
    tree.Within id function → tree.Targets id name body →
      name = function ∨ ∀ inner around, tree.Trail body inner around →
        ∃ earlier : Nat, earlier < position ∧ tree.reachable[earlier]? = some inner

theorem BindsOnce.eq_of_mem (once : tree.BindsOnce) {id other : TermId} {name : String}
    (linked : id ∈ tree.reachable) (otherLinked : other ∈ tree.reachable)
    (bound : name ∈ tree.boundNames id) (otherBound : name ∈ tree.boundNames other) :
    id = other := by
  by_contra different
  have symmetric : Std.Symm (Function.onFun List.Disjoint tree.boundNames) :=
    ⟨fun _ _ apart _ inSecond inFirst => apart inFirst inSecond⟩
  exact (List.nodup_flatMap.mp once).2.forall linked otherLinked different bound otherBound

theorem boundNames_letIn {id value next : TermId} {name : String}
    (held : tree.get? id = some (.letIn name value next)) : tree.boundNames id = [name] := by
  rw [boundNames, held]

theorem boundNames_of_functionName? {id : TermId} {name : String}
    (named : tree.functionName? id = some name) : tree.boundNames id = [name] := by
  obtain ⟨value, next, parameters, body, held, -⟩ := functionName?_eq_some.mp named
  exact boundNames_letIn held

theorem BindsOnce.letIn_unique (once : tree.BindsOnce) {id other value otherValue next otherNext :
    TermId} {name : String} (linked : id ∈ tree.reachable) (otherLinked : other ∈ tree.reachable)
    (held : tree.get? id = some (.letIn name value next))
    (otherHeld : tree.get? other = some (.letIn name otherValue otherNext)) : id = other := by
  have bound : name ∈ tree.boundNames id := by simp [boundNames_letIn held]
  have otherBound : name ∈ tree.boundNames other := by simp [boundNames_letIn otherHeld]
  exact once.eq_of_mem linked otherLinked bound otherBound

theorem BindsOnce.namesFunctionsOnce (once : tree.BindsOnce) : tree.NamesFunctionsOnce := by
  have shorter (ids : List TermId) :
      (ids.filterMap tree.functionName?).Sublist (ids.flatMap tree.boundNames) := by
    induction ids with
    | nil => exact List.Sublist.refl _
    | cons id ids inductionHypothesis =>
      rw [List.flatMap_cons]
      cases named : tree.functionName? id with
      | none =>
        rw [List.filterMap_cons_none named]
        exact inductionHypothesis.trans (List.sublist_append_right _ _)
      | some name =>
        rw [List.filterMap_cons_some named, boundNames_of_functionName? named]
        exact inductionHypothesis.cons_cons name
  exact (shorter _).nodup once

/-! ### Bindings, functions and calls among contained terms -/

theorem Unfolds.eq_letIn (unfolds : tree.Unfolds unfolding) {name : String} {value next : Term}
    (spelled : unfolding.term = .letIn name value next) :
    ∃ id valuePart nextPart,
      unfolding = .mk id (.letIn name valuePart.id nextPart.id) [valuePart, nextPart] ∧
        valuePart.term = value ∧ nextPart.term = next := by
  obtain @⟨id, node, parts, held, linked, below⟩ := unfolds
  have fits := fits_of_linked linked
  rw [Unfolding.term_mk] at spelled
  cases node with
  | letIn =>
    obtain ⟨valuePart, nextPart, rfl, rfl, rfl⟩ := Unfolding.eq_pair linked
    cases spelled
    exact ⟨id, valuePart, nextPart, rfl, rfl, rfl⟩
  | _ =>
    generalize parts.map Unfolding.term = terms at fits spelled
    cases fits
    cases spelled

theorem Unfolds.eq_function (unfolds : tree.Unfolds unfolding) {parameters : List String}
    {body : Term} (spelled : unfolding.term = .function parameters body) :
    ∃ id bodyPart, unfolding = .mk id (.function parameters bodyPart.id) [bodyPart] ∧
      bodyPart.term = body := by
  obtain @⟨id, node, parts, held, linked, below⟩ := unfolds
  have fits := fits_of_linked linked
  rw [Unfolding.term_mk] at spelled
  cases node with
  | function =>
    obtain ⟨bodyPart, rfl, rfl⟩ := Unfolding.eq_single linked
    cases spelled
    exact ⟨id, bodyPart, rfl, rfl⟩
  | _ =>
    generalize parts.map Unfolding.term = terms at fits spelled
    cases fits
    cases spelled

theorem Unfolds.eq_call (unfolds : tree.Unfolds unfolding) {callee : Term} {arguments : List Term}
    (spelled : unfolding.term = .call callee arguments) :
    ∃ id calleePart argumentParts,
      unfolding = .mk id (.call calleePart.id (argumentParts.map Unfolding.id))
        (calleePart :: argumentParts) ∧ calleePart.term = callee := by
  obtain @⟨id, node, parts, held, linked, below⟩ := unfolds
  have fits := fits_of_linked linked
  rw [Unfolding.term_mk] at spelled
  cases node with
  | call =>
    obtain ⟨calleePart, argumentParts, rfl, rfl, rfl⟩ := List.map_eq_cons_iff.mp linked.symm
    cases spelled
    exact ⟨id, calleePart, argumentParts, rfl, rfl⟩
  | _ =>
    generalize parts.map Unfolding.term = terms at fits spelled
    cases fits
    cases spelled

/-- A variable spells its name. -/
theorem Unfolds.term_var (unfolds : tree.Unfolds unfolding) {name : String}
    (held : tree.get? unfolding.id = some (.var name)) : unfolding.term = .var name := by
  obtain @⟨id, node, parts, heldNode, linked, below⟩ := unfolds
  obtain rfl := Option.some.inj (heldNode.symm.trans held)
  obtain rfl := List.map_eq_nil_iff.mp linked.symm
  rw [Unfolding.term_mk]
  rfl

/-- Where a function is bound, the body of that function is spelled in place. -/
theorem Unfolds.functionName?_eq (unfolds : tree.Unfolds unfolding) {name : String}
    {parameters : List String} {body next : Term}
    (spelled : unfolding.term = .letIn name (.function parameters body) next) :
    ∃ value nextId bodyPart, tree.get? unfolding.id = some (.letIn name value nextId) ∧
      tree.get? value = some (.function parameters bodyPart.id) ∧ tree.Unfolds bodyPart ∧
      bodyPart.term = body := by
  obtain ⟨id, valuePart, nextPart, rfl, isFunction, -⟩ := unfolds.eq_letIn spelled
  have valueUnfolds : tree.Unfolds valuePart := unfolds.part (by simp)
  obtain ⟨valueId, bodyPart, rfl, rfl⟩ := valueUnfolds.eq_function isFunction
  exact ⟨_, _, bodyPart, unfolds.get?, valueUnfolds.get?, valueUnfolds.part (by simp), rfl⟩

section Program

variable (unfolds : tree.Unfolds unfolding) (rooted : unfolding.id = tree.root)
  (distinct : unfolding.ids.Nodup)

include unfolds rooted distinct

theorem mem_reachable_iff {id : TermId} : id ∈ tree.reachable ↔ id ∈ unfolding.ids := by
  rw [reachable_eq_ids unfolds rooted distinct]

/-- What a linked node binds to a function, the program binds to a function. -/
theorem namesFunction_of_functionName? {id : TermId} (linked : id ∈ tree.reachable) {name : String}
    (named : tree.functionName? id = some name) : unfolding.term.NamesFunction name := by
  obtain ⟨inner, innerUnfolds, rfl, contains⟩ := unfolds.contains_of_mem_ids
    ((mem_reachable_iff unfolds rooted distinct).mp linked)
  obtain ⟨value, next, parameters, body, held, function⟩ := functionName?_eq_some.mp named
  obtain @⟨id, node, parts, heldNode, isLinked, below⟩ := innerUnfolds
  obtain rfl := Option.some.inj (heldNode.symm.trans held)
  obtain ⟨valuePart, nextPart, rfl, rfl, rfl⟩ := Unfolding.eq_pair isLinked
  obtain @⟨valueId, valueNode, valueParts, heldValue, valueLinked, valueBelow⟩ :=
    below valuePart (by simp)
  obtain rfl := Option.some.inj (heldValue.symm.trans function)
  obtain ⟨bodyPart, rfl, rfl⟩ := Unfolding.eq_single valueLinked
  refine ⟨parameters, bodyPart.term, nextPart.term, ?_⟩
  simpa [Node.assemble] using contains

/-- A linked call calls a name that the program binds to a function. -/
theorem Targets.exists_binding {id : TermId} {name : String} {body : TermId}
    (targets : tree.Targets id name body) :
    ∃ binder ∈ tree.reachable, ∃ value next parameters,
      tree.get? binder = some (.letIn name value next) ∧
        tree.get? value = some (.function parameters body) := by
  obtain ⟨callee, arguments, binder, value, next, parameters, -, -, resolves, bound, function⟩ :=
    targets
  obtain ⟨_, around, -, trail, found⟩ := resolves
  have isPlaces := unfolds.places rooted distinct
  obtain ⟨position, there⟩ := List.mem_iff_getElem?.mp (isPlaces.linked callee around trail)
  obtain ⟨earlier, -, binderThere⟩ :=
    isPlaces.around_first trail there binder (List.mem_of_find?_eq_some found)
  exact ⟨binder, List.mem_of_getElem? binderThere, value, next, parameters, bound, function⟩

end Program

/-- What lies in a function bound by name lies in the body of that function. -/
theorem exists_body_of_enclosing? {start id : TermId} {around : List TermId}
    (trail : tree.Trail start id around) {name : String}
    (inside : tree.enclosing? around = some name) :
    ∃ binding ∈ around, ∃ value next parameters body inner,
      tree.get? binding = some (.letIn name value next) ∧
      tree.get? value = some (.function parameters body) ∧ tree.Trail body id inner := by
  induction trail with
  | here => cases inside
  | @part id child around trail member inductionHypothesis =>
    have further (inside : tree.enclosing? around = some name) :
        ∃ binding ∈ id :: around, ∃ value next parameters body inner,
          tree.get? binding = some (.letIn name value next) ∧
          tree.get? value = some (.function parameters body) ∧ tree.Trail body child inner := by
      obtain ⟨binding, isAround, value, next, parameters, body, inner, bound, function, inBody⟩ :=
        inductionHypothesis inside
      exact ⟨binding, List.mem_cons_of_mem _ isAround, value, next, parameters, body, id :: inner,
        bound, function, inBody.part member⟩
    cases around with
    | nil => cases inside
    | cons outer around =>
      rw [enclosing?] at inside
      split at inside
      · rename_i parameters body bound value next function held
        split at inside
        · rename_i isValue
          subst isValue
          cases inside
          have isBody : child = body := by simpa [children, function, Node.children] using member
          exact ⟨outer, by simp, value, next, parameters, body, [], held, function, isBody ▸ .here⟩
        · exact further inside
      · exact further inside

/-- What a pure function calls is pure: had the walk known better about it, it would have done so
before it came to the call. -/
theorem Targets.isPure (unfolds : tree.Unfolds unfolding) (rooted : unfolding.id = tree.root)
    (distinct : unfolding.ids.Nodup) (once : tree.BindsOnce) (backward : tree.CallsBackward)
    (reflects : tree.Reflects tree.reachable.length tree.purity) {position : Nat} {id : TermId}
    {function : String} (there : tree.reachable[position]? = some id)
    (within : tree.Within id function) (isPure : tree.purity.isPure function = true)
    {name : String} {body : TermId} (targets : tree.Targets id name body) :
    tree.purity.isPure name = true := by
  have isPlaces := unfolds.places rooted distinct
  obtain ⟨binder, binderLinked, value, next, parameters, bound, isFunction⟩ :=
    targets.exists_binding unfolds rooted distinct
  have binderNamed : tree.functionName? binder = some name :=
    functionName?_eq_some.mpr ⟨value, next, parameters, body, bound, isFunction⟩
  rw [PurityTable.isPure_iff] at isPure ⊢
  match known : tree.purity.get? name with
  | some true => rfl
  | none =>
    obtain ⟨registered, binderThere⟩ := List.mem_iff_getElem?.mp binderLinked
    refine absurd known ((reflects.registered name).mpr
      ⟨registered, (List.getElem?_eq_some_iff.mp binderThere).1, binder, binderThere, binderNamed⟩)
  | some false =>
    exfalso
    obtain ⟨tainting, inWalk, tainted⟩ := (reflects.impure name).mp known
    rcases backward position id function name body there within targets with rfl | before
    · cases isPure.symm.trans known
    obtain ⟨inner, innerThere, innerAround, innerTrail, inside⟩ := tainted.within
    obtain ⟨other, isAround, otherValue, otherNext, otherParameters, otherBody, path, otherBound,
      otherFunction, inBody⟩ := exists_body_of_enclosing? innerTrail inside
    obtain ⟨outer, -, otherThere⟩ := isPlaces.around_first innerTrail innerThere other isAround
    -- Only one function has this name, so the chain of the callee starts in the body of the target.
    obtain rfl := once.letIn_unique binderLinked (List.mem_of_getElem? otherThere) bound otherBound
    cases bound.symm.trans otherBound
    cases isFunction.symm.trans otherFunction
    obtain ⟨earlier, isEarlier, earlierThere⟩ := before inner path inBody
    obtain rfl : earlier = tainting := (List.getElem?_inj
      (List.getElem?_eq_some_iff.mp earlierThere).1 isPlaces.distinct).mp
      (earlierThere.trans innerThere.symm)
    obtain ⟨callee, arguments, _, _, _, _, isCall, isVar, -⟩ := targets
    have taintsCaller : tree.Taints function position := taints_iff.mpr (.inr
      ⟨name, ⟨id, callee, arguments, there, isCall, isVar, within⟩, earlier, isEarlier, tainted⟩)
    have impure := (reflects.impure function).mpr
      ⟨position, (List.getElem?_eq_some_iff.mp there).1, taintsCaller⟩
    cases isPure.symm.trans impure

/-- In the body of a function that is not impure nothing prints, and calls are of functions that
are not impure either. -/
theorem Unfolds.quiet_of_pure {start : Unfolding} (whole : tree.Unfolds start)
    (rooted : start.id = tree.root) (distinct : start.ids.Nodup) (once : tree.BindsOnce)
    (named : tree.CallsNamed) (backward : tree.CallsBackward)
    (reflects : tree.Reflects tree.reachable.length tree.purity) {function : String}
    (isPure : tree.purity.isPure function = true) (unfolds : tree.Unfolds unfolding)
    {around : List TermId} (trail : tree.Trail tree.root unfolding.id around)
    (inside : tree.enclosing? around = some function) :
    unfolding.term.Quiet fun name => tree.purity.isPure name = true := by
  have isPlaces := whole.places rooted distinct
  have untainted (position : Nat) (inWalk : position < tree.reachable.length) :
      ¬tree.Taints function position := fun tainted => by
    have impure := (reflects.impure function).mpr ⟨position, inWalk, tainted⟩
    rw [PurityTable.isPure_iff.mp isPure] at impure
    cases impure
  induction unfolds generalizing around with
  | @intro id node parts held linked below inductionHypothesis =>
    obtain ⟨position, there⟩ := List.mem_iff_getElem?.mp (isPlaces.linked id around trail)
    have inWalk := (List.getElem?_eq_some_iff.mp there).1
    have within : tree.Within id function := ⟨around, trail, inside⟩
    -- The parts of a node that is no function lie in the same function.
    have each (notFunction : node.kind ≠ .function) (part : Unfolding) (member : part ∈ parts) :
        part.term.Quiet fun name => tree.purity.isPure name = true := by
      refine inductionHypothesis part member (.part trail ?_)
        ((keepsEnclosing_of_not_function held notFunction around).trans inside)
      simp only [TermTree.children, Unfolding.id_mk, held, linked]
      exact List.mem_map_of_mem member
    rw [Unfolding.term_mk]
    cases node with
    | letIn =>
      obtain ⟨value, next, rfl, -, -⟩ := Unfolding.eq_pair linked
      exact ⟨each (by simp [Node.kind]) value (by simp), each (by simp [Node.kind]) next (by simp)⟩
    | function =>
      obtain ⟨body, rfl, -⟩ := Unfolding.eq_single linked
      trivial
    | ifElse =>
      obtain ⟨condition, consequent, alternative, rfl, -⟩ := Unfolding.eq_triple linked
      exact ⟨each (by simp [Node.kind]) condition (by simp),
        each (by simp [Node.kind]) consequent (by simp),
        each (by simp [Node.kind]) alternative (by simp)⟩
    | print =>
      exact absurd (taints_iff.mpr (.inl ⟨id, _, there, held, within⟩)) (untainted position inWalk)
    | call calleeId argumentIds =>
      obtain ⟨callee, arguments, rfl, rfl, -⟩ := List.map_eq_cons_iff.mp linked.symm
      obtain ⟨name, body, targets⟩ := named id (List.mem_of_getElem? there) _ _ held
      have isCallee : tree.get? callee.id = some (.var name) := by
        obtain ⟨_, _, _, _, _, _, isCall, isVar, -⟩ := targets
        cases held.symm.trans isCall
        exact isVar
      refine ⟨⟨name, (below callee (by simp)).term_var isCallee, ?_⟩, Term.quietAll_iff.mpr ?_⟩
      · exact targets.isPure whole rooted distinct once backward reflects there within isPure
      · intro term member
        obtain ⟨argument, isArgument, rfl⟩ := List.mem_map.mp member
        exact each (by simp [Node.kind]) argument (List.mem_cons_of_mem _ isArgument)
    | var | int | str | bool =>
      obtain rfl := List.map_eq_nil_iff.mp linked.symm
      trivial
    | binary | tuple =>
      obtain ⟨left, right, rfl, -, -⟩ := Unfolding.eq_pair linked
      exact ⟨each (by simp [Node.kind]) left (by simp), each (by simp [Node.kind]) right (by simp)⟩
    | first | second =>
      obtain ⟨value, rfl, -⟩ := Unfolding.eq_single linked
      exact each (by simp [Node.kind]) value (by simp)

/-- In the term that an arena spells, names tell functions apart, and pure functions are quiet. -/
theorem Unfolds.orderly (unfolds : tree.Unfolds unfolding) (rooted : unfolding.id = tree.root)
    (distinct : unfolding.ids.Nodup) (once : tree.BindsOnce) (named : tree.CallsNamed)
    (backward : tree.CallsBackward)
    (reflects : tree.Reflects tree.reachable.length tree.purity) :
    unfolding.term.Orderly fun name => tree.purity.isPure name = true := by
  have linked {id : TermId} : id ∈ tree.reachable ↔ id ∈ unfolding.ids :=
    mem_reachable_iff unfolds rooted distinct
  constructor
  case binding =>
    rintro name value next contains parameters body ⟨otherNext, otherContains⟩
    obtain ⟨inner, innerUnfolds, spelled, member⟩ := unfolds.exists_of_contains contains
    obtain ⟨other, otherUnfolds, otherSpelled, otherMember⟩ :=
      unfolds.exists_of_contains otherContains
    obtain ⟨id, _, _, rfl, -, -⟩ := innerUnfolds.eq_letIn spelled
    obtain ⟨otherId, _, _, rfl, -, -⟩ := otherUnfolds.eq_letIn otherSpelled
    have same := innerUnfolds.eq_of_id_eq otherUnfolds (once.letIn_unique (linked.mpr member)
      (linked.mpr otherMember) innerUnfolds.get? otherUnfolds.get?)
    rw [same, otherSpelled] at spelled
    cases spelled
    rfl
  case parameter =>
    rintro parameters body contains name isParameter ⟨otherParameters, otherBody, next, binds⟩
    obtain ⟨inner, innerUnfolds, spelled, member⟩ := unfolds.exists_of_contains contains
    obtain ⟨other, otherUnfolds, otherSpelled, otherMember⟩ := unfolds.exists_of_contains binds
    obtain ⟨id, _, rfl, -⟩ := innerUnfolds.eq_function spelled
    obtain ⟨otherId, _, _, rfl, -, -⟩ := otherUnfolds.eq_letIn otherSpelled
    have bound : name ∈ tree.boundNames id := by
      rw [boundNames, show tree.get? id = _ from innerUnfolds.get?]
      exact isParameter
    have otherBound : name ∈ tree.boundNames otherId := by
      simp [boundNames_letIn (show tree.get? otherId = _ from otherUnfolds.get?)]
    have same := innerUnfolds.eq_of_id_eq otherUnfolds
      (once.eq_of_mem (linked.mpr member) (linked.mpr otherMember) bound otherBound)
    cases same
  case call =>
    intro callee arguments contains
    obtain ⟨inner, innerUnfolds, spelled, member⟩ := unfolds.exists_of_contains contains
    obtain ⟨id, calleePart, argumentParts, rfl, rfl⟩ := innerUnfolds.eq_call spelled
    obtain ⟨name, body, targets⟩ := named id (linked.mpr member) _ _ innerUnfolds.get?
    obtain ⟨binder, binderLinked, value, next, parameters, bound, isFunction⟩ :=
      targets.exists_binding unfolds rooted distinct
    obtain ⟨_, _, _, _, _, _, isCall, isVar, -⟩ := targets
    cases (show tree.get? id = _ from innerUnfolds.get?).symm.trans isCall
    exact ⟨name, (innerUnfolds.part (by simp)).term_var isVar,
      namesFunction_of_functionName? unfolds rooted distinct binderLinked
        (functionName?_eq_some.mpr ⟨value, next, parameters, body, bound, isFunction⟩)⟩
  case quiet =>
    rintro name parameters body isPure ⟨next, contains⟩
    obtain ⟨inner, innerUnfolds, spelled, member⟩ := unfolds.exists_of_contains contains
    obtain ⟨value, nextId, bodyPart, held, function, bodyUnfolds, rfl⟩ :=
      innerUnfolds.functionName?_eq spelled
    obtain ⟨around, trail⟩ := unfolds.mem_ids_iff.mp member
    rw [rooted] at trail
    have valueTrail : tree.Trail tree.root value (inner.id :: around) :=
      .part trail (by simp [TermTree.children, held, Node.children])
    have bodyTrail : tree.Trail tree.root bodyPart.id (value :: inner.id :: around) :=
      .part valueTrail (by simp [TermTree.children, function, Node.children])
    exact unfolds.quiet_of_pure rooted distinct once named backward reflects isPure bodyUnfolds
      bodyTrail (enclosing?_named held function)

section Silence

open Evaluation

/-- Where names are bound once and calls can be seen, a function that is inferred to be pure prints
nothing in any run: neither when it is called, with whatever arguments, nor at any other moment at
which its name stands for it. -/
theorem purity_silent {source program : Term} (reached : Reached source tree)
    (spelled : tree.term? = some program) (once : tree.BindsOnce) (named : tree.CallsNamed)
    (backward : tree.CallsBackward) {name : String} (isPure : tree.purity.isPure name = true)
    {dialect : Dialect} {depth : Nat} {moment : Moment}
    (occurs : moment.Occurs dialect depth program) :
    (∀ function values, moment.task = .call (.var name) function values → ∀ others,
      (invoke dialect moment.depth function others moment.world).2.output = moment.world.output) ∧
    ∀ scope term, moment.task = .evaluate scope term → ∀ cell, (name, cell) ∈ scope →
      ∀ function, moment.world.value? cell = some function → ∀ depth values,
        (invoke dialect depth function values moment.world).2.output = moment.world.output := by
  have reflects := reached.purity_reflects once.namesFunctionsOnce
  obtain ⟨unfolding, unfolds, rooted, distinct⟩ := reached.unfolds
  obtain rfl : unfolding.term = program :=
    Option.some.inj ((term?_eq_term unfolds rooted distinct).symm.trans spelled)
  have orderly := unfolds.orderly rooted distinct once named backward reflects
  obtain ⟨owners, owned, belongs⟩ := occurs.belongs orderly
  constructor
  · intro function values isCall others
    rw [isCall] at belongs
    obtain ⟨called, same, isOf⟩ := belongs
    cases same
    exact invoke_silent orderly owned isOf isPure moment.depth others
  · intro scope term isEvaluation cell inScope function held depth values
    rw [isEvaluation] at belongs
    have known : tree.purity.get? name ≠ none := by simp [PurityTable.isPure_iff.mp isPure]
    obtain ⟨position, -, binder, there, binderNamed⟩ := (reflects.registered name).mp known
    have isFunction := namesFunction_of_functionName? unfolds rooted distinct
      (List.mem_of_getElem? there) binderNamed
    have owns := belongs.2 name cell inScope isFunction
    exact invoke_silent orderly owned (owned.values cell name function owns held) isPure depth
      values

/-- `keep` is pure although it makes a function that prints, and `again`, which calls `keep` and
itself, is called with an argument that is printed. -/
def keptPrinter : Term :=
  .letIn "log" (.function ["x"] (.print (.var "x")))
    (.letIn "keep" (.function ["y"]
        (.letIn "inner" (.function [] (.print (.var "y"))) (.tuple (.var "y") (.var "inner"))))
      (.letIn "again" (.function ["z"] (.ifElse (.var "z") (.call (.var "keep") [.var "z"])
          (.call (.var "again") [.bool true])))
        (.call (.var "again") [.call (.var "log") [.bool false]])))

namespace keptPrinter

theorem reachable_eq : (ofTerm keptPrinter).reachable = List.range 28 := by
  decide

/-- Where the callees of the four calls stand. -/
theorem trail_callee :
    (ofTerm keptPrinter).Trail 0 18 [17, 15, 14, 13, 4, 0] ∧
    (ofTerm keptPrinter).Trail 0 21 [20, 15, 14, 13, 4, 0] ∧
    (ofTerm keptPrinter).Trail 0 24 [23, 13, 4, 0] ∧
    (ofTerm keptPrinter).Trail 0 26 [25, 23, 13, 4, 0] := by
  have again : (ofTerm keptPrinter).Trail 0 13 [4, 0] :=
    .part (.part .here (by decide)) (by decide)
  have branches : (ofTerm keptPrinter).Trail 0 15 [14, 13, 4, 0] :=
    .part (.part again (by decide)) (by decide)
  have last : (ofTerm keptPrinter).Trail 0 23 [13, 4, 0] := .part again (by decide)
  exact ⟨.part (.part branches (by decide)) (by decide),
    .part (.part branches (by decide)) (by decide), .part last (by decide),
    .part (.part last (by decide)) (by decide)⟩

theorem call_cases {id callee : TermId} {arguments : List TermId}
    (isCall : (ofTerm keptPrinter).get? id = some (.call callee arguments)) :
    id = 17 ∨ id = 20 ∨ id = 23 ∨ id = 25 := by
  have inRange : id < 28 := (Array.getElem?_eq_some_iff.mp isCall).1
  have calls : ((List.range 28).filter fun id =>
      ((ofTerm keptPrinter).get? id).map Node.kind = some .call) = [17, 20, 23, 25] := by decide
  have member : id ∈ [17, 20, 23, 25] := by
    rw [← calls, List.mem_filter]
    exact ⟨List.mem_range.mpr inRange, by simp [isCall, Node.kind]⟩
  simpa using member

theorem bindsOnce : (ofTerm keptPrinter).BindsOnce := by
  rw [BindsOnce]
  decide

theorem callsNamed : (ofTerm keptPrinter).CallsNamed := by
  obtain ⟨keep, again, outer, log⟩ := trail_callee
  intro id _ callee arguments isCall
  rcases call_cases isCall with rfl | rfl | rfl | rfl <;> cases isCall
  · exact ⟨"keep", 6, 18, _, 4, 5, 13, ["y"], rfl, rfl,
      ⟨"keep", _, rfl, keep, rfl⟩, rfl, rfl⟩
  · exact ⟨"again", 15, 21, _, 13, 14, 23, ["z"], rfl, rfl,
      ⟨"again", _, rfl, again, rfl⟩, rfl, rfl⟩
  · exact ⟨"again", 15, 24, _, 13, 14, 23, ["z"], rfl, rfl,
      ⟨"again", _, rfl, outer, rfl⟩, rfl, rfl⟩
  · exact ⟨"log", 2, 26, _, 0, 1, 4, ["x"], rfl, rfl,
      ⟨"log", _, rfl, log, rfl⟩, rfl, rfl⟩

theorem callsBackward : (ofTerm keptPrinter).CallsBackward := by
  obtain ⟨unfolding, unfolds, rooted, distinct⟩ := (Reached.laidOut : Reached keptPrinter _).unfolds
  have unique := (unfolds.places rooted distinct).trail_unique
  obtain ⟨keep, again, outer, log⟩ := trail_callee
  rintro position id function name body there ⟨around, trail, inside⟩
    ⟨callee, arguments, binder, value, next, parameters, isCall, isVar, -, bound, isFunction⟩
  have here : id = position := by
    rw [reachable_eq, List.getElem?_eq_some_iff] at there
    obtain ⟨inRange, there⟩ := there
    rwa [List.getElem_range, eq_comm] at there
  subst here
  rcases call_cases isCall with rfl | rfl | rfl | rfl <;> cases isCall
  · cases isVar
    have inRange : binder < 28 := (Array.getElem?_eq_some_iff.mp bound).1
    have keepBound : (ofTerm keptPrinter).get? 4 = some (.letIn "keep" 5 13) := rfl
    obtain rfl := bindsOnce.letIn_unique (by rwa [reachable_eq, List.mem_range]) (by decide) bound
      keepBound
    cases bound
    cases isFunction
    refine .inr fun inner path inBody => ?_
    have closed : ∀ id ∈ List.range' 6 7, ∀ child ∈ (ofTerm keptPrinter).children id,
        child ∈ List.range' 6 7 := by decide
    have member : inner ∈ List.range' 6 7 := by
      induction inBody with
      | here => decide
      | part _ isChild inductionHypothesis => exact closed _ inductionHypothesis _ isChild
    obtain ⟨-, below⟩ := List.mem_range'_1.mp member
    exact ⟨inner, Nat.lt_of_lt_of_le below (by decide), by
      rw [reachable_eq, List.getElem?_range (Nat.lt_of_lt_of_le below (by decide))]⟩
  · cases isVar
    cases (unique _ _ _ (.part trail (by decide)) again)
    cases inside
    exact .inl rfl
  · cases (unique _ _ _ (.part trail (by decide)) outer)
    cases inside
  · cases (unique _ _ _ (.part trail (by decide)) log)
    cases inside

end keptPrinter

theorem purity_silent_keptPrinter :
    Reached keptPrinter (ofTerm keptPrinter) ∧
    (ofTerm keptPrinter).term? = some keptPrinter ∧ (ofTerm keptPrinter).BindsOnce ∧
    (ofTerm keptPrinter).CallsNamed ∧ (ofTerm keptPrinter).CallsBackward ∧
    (ofTerm keptPrinter).purity.isPure "keep" = true ∧
    ∃ (moment : Moment) (function : Value) (values : List Value),
      moment.Occurs .standard 3 keptPrinter ∧
      moment.task = .call (.var "keep") function values ∧ moment.world.output = ["false"] ∧
      ∀ others, (invoke .standard moment.depth function others moment.world).2.output =
        ["false"] := by
  have spelled : (ofTerm keptPrinter).term? = some keptPrinter := rfl
  have isPure : (ofTerm keptPrinter).purity.isPure "keep" = true := by decide
  have start : Moment.Occurs .standard 3 keptPrinter (.start 3 keptPrinter) := .refl
  have afterLog := start.tail (.next rfl rfl rfl)
  have afterKeep := afterLog.tail (.next rfl rfl rfl)
  have afterAgain := afterKeep.tail (.next rfl rfl rfl)
  have outerCall := afterAgain.tail (.call rfl rfl)
  have outerBody := outerCall.tail (.body rfl)
  have alternative := outerBody.tail (.alternative rfl)
  have innerCall := alternative.tail (.call rfl rfl)
  have innerBody := innerCall.tail (.body rfl)
  have consequent := innerBody.tail (.consequent rfl)
  have kept := consequent.tail (.call rfl rfl)
  exact ⟨.laidOut, spelled, keptPrinter.bindsOnce, keptPrinter.callsNamed,
    keptPrinter.callsBackward, isPure, _, _, _, kept, rfl, rfl,
    (purity_silent .laidOut spelled keptPrinter.bindsOnce keptPrinter.callsNamed
      keptPrinter.callsBackward isPure kept).1 _ _ rfl⟩

end Silence

end TermTree

end TreeScript
