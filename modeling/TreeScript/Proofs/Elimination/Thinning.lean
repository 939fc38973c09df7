/-
This file compares the runs of two terms, the second of which is the first one
without some of its bindings. The bindings that are missing have names that no
variable reads. Values, scopes and worlds are compared along links between the
cells of the two runs: a binding that stayed has linked cells, the cells that a
missing binding and its value allocate are linked to nothing.

The comparison is built like the runs are. One lemma says that it passes from the
parts of a run to the whole, one that a missing binding leaves everything linked
as it was, and evaluation then follows the two terms side by side.
-/

import TreeScript.Proofs.Evaluation
import Mathlib.Data.List.Forall2

namespace TreeScript

/-! ### Terms without some of their bindings -/

mutual

/-- The second term is the first one without some bindings of the given names, none of which is
read. The values of these bindings have no effect if `quiet` is set. -/
inductive Term.Thins (dead : List String) (quiet : Bool) : Term → Term → Prop where
  | drop {name : String} {value next thinned : Term} (isDead : name ∈ dead)
      (harmless : quiet = true → value.mayHaveEffect = false)
      (rest : Term.Thins dead quiet next thinned) :
      Term.Thins dead quiet (.letIn name value next) thinned
  | letIn {name : String} {value next value' next' : Term}
      (values : Term.Thins dead quiet value value') (nexts : Term.Thins dead quiet next next') :
      Term.Thins dead quiet (.letIn name value next) (.letIn name value' next')
  | function {parameters : List String} {body body' : Term}
      (bodies : Term.Thins dead quiet body body') :
      Term.Thins dead quiet (.function parameters body) (.function parameters body')
  | ifElse {condition consequent alternative condition' consequent' alternative' : Term}
      (conditions : Term.Thins dead quiet condition condition')
      (consequents : Term.Thins dead quiet consequent consequent')
      (alternatives : Term.Thins dead quiet alternative alternative') :
      Term.Thins dead quiet (.ifElse condition consequent alternative)
        (.ifElse condition' consequent' alternative')
  | print {value value' : Term} (values : Term.Thins dead quiet value value') :
      Term.Thins dead quiet (.print value) (.print value')
  | call {callee callee' : Term} {arguments arguments' : List Term}
      (callees : Term.Thins dead quiet callee callee')
      (each : Term.ThinsAll dead quiet arguments arguments') :
      Term.Thins dead quiet (.call callee arguments) (.call callee' arguments')
  | var {name : String} (isLive : name ∉ dead) : Term.Thins dead quiet (.var name) (.var name)
  | int {value : Int64} : Term.Thins dead quiet (.int value) (.int value)
  | str {value : String} : Term.Thins dead quiet (.str value) (.str value)
  | bool {value : Bool} : Term.Thins dead quiet (.bool value) (.bool value)
  | binary {op : BinaryOp} {lhs rhs lhs' rhs' : Term} (lefts : Term.Thins dead quiet lhs lhs')
      (rights : Term.Thins dead quiet rhs rhs') :
      Term.Thins dead quiet (.binary op lhs rhs) (.binary op lhs' rhs')
  | tuple {left right left' right' : Term} (lefts : Term.Thins dead quiet left left')
      (rights : Term.Thins dead quiet right right') :
      Term.Thins dead quiet (.tuple left right) (.tuple left' right')
  | first {value value' : Term} (values : Term.Thins dead quiet value value') :
      Term.Thins dead quiet (.first value) (.first value')
  | second {value value' : Term} (values : Term.Thins dead quiet value value') :
      Term.Thins dead quiet (.second value) (.second value')

/-- The same for several terms. -/
inductive Term.ThinsAll (dead : List String) (quiet : Bool) : List Term → List Term → Prop where
  | nil : Term.ThinsAll dead quiet [] []
  | cons {term thinned : Term} {terms others : List Term}
      (head : Term.Thins dead quiet term thinned) (tail : Term.ThinsAll dead quiet terms others) :
      Term.ThinsAll dead quiet (term :: terms) (thinned :: others)

end

namespace Evaluation

/-! ### Linked values, scopes and worlds -/

/-- Pairs of a cell of one run and the cell that stands for the same binding in the other. -/
abbrev Links := List (Nat × Nat)

/-- The second scope is the first one without some entries for dead names, with linked cells. -/
inductive Scope.Thins (dead : List String) (links : Links) : Scope → Scope → Prop where
  | nil : Scope.Thins dead links [] []
  | drop {name : String} {cell : Nat} {scope other : Scope} (isDead : name ∈ dead)
      (rest : Scope.Thins dead links scope other) :
      Scope.Thins dead links ((name, cell) :: scope) other
  | keep {name : String} {cell twin : Nat} {scope other : Scope} (linked : (cell, twin) ∈ links)
      (rest : Scope.Thins dead links scope other) :
      Scope.Thins dead links ((name, cell) :: scope) ((name, twin) :: other)

/-- Values that are equal up to missing bindings in the bodies of closures. -/
inductive Value.Thins (dead : List String) (quiet : Bool) (links : Links) :
    Value → Value → Prop where
  | scalar {value : Scalar} : Value.Thins dead quiet links (.scalar value) (.scalar value)
  | tuple {left right left' right' : Value} (lefts : Value.Thins dead quiet links left left')
      (rights : Value.Thins dead quiet links right right') :
      Value.Thins dead quiet links (.tuple left right) (.tuple left' right')
  | closure {parameters : List String} {body body' : Term} {scope scope' : Scope}
      (bodies : Term.Thins dead quiet body body') (scopes : Scope.Thins dead links scope scope') :
      Value.Thins dead quiet links (.closure parameters body scope)
        (.closure parameters body' scope')

/-- Worlds in which linked cells hold equal values in this sense or are both empty. -/
structure World.Thins (dead : List String) (quiet : Bool) (links : Links) (world other : World) :
    Prop where
  allocated : ∀ link ∈ links, link.1 < world.cells.length ∧ link.2 < other.cells.length
  oneToOne : ∀ link ∈ links, ∀ second ∈ links, link.1 = second.1 ↔ link.2 = second.2
  values : ∀ link ∈ links,
    Option.Rel (Value.Thins dead quiet links) (world.value? link.1) (other.value? link.2)
  output_sublist : other.output.Sublist world.output
  output_eq : quiet = true → other.output = world.output

/-- If the first run gives a result, so does the second from a linked world, the results are
related, and the worlds are linked again. -/
def Run.Thins (dead : List String) (quiet : Bool) (links : Links) {α β : Type}
    (related : Links → α → β → Prop) (run : Run α) (other : Run β) : Prop :=
  ∀ ⦃world world' : World⦄, World.Thins dead quiet links world world' →
    ∀ ⦃result : α⦄ ⦃final : World⦄, run world = (.ok result, final) →
      ∃ more result' final', other world' = (.ok result', final') ∧ links ⊆ more ∧
        related more result result' ∧ World.Thins dead quiet more final final'

variable {dead : List String} {quiet : Bool} {links more : Links}

theorem Scope.Thins.mono {scope other : Scope} (included : links ⊆ more)
    (thins : Scope.Thins dead links scope other) : Scope.Thins dead more scope other := by
  induction thins with
  | nil => exact .nil
  | drop isDead _ inductionHypothesis => exact .drop isDead inductionHypothesis
  | keep linked _ inductionHypothesis => exact .keep (included linked) inductionHypothesis

namespace Value

theorem Thins.mono {value other : Value} (included : links ⊆ more)
    (thins : Thins dead quiet links value other) : Thins dead quiet more value other := by
  induction thins with
  | scalar => exact .scalar
  | tuple _ _ lefts rights => exact .tuple lefts rights
  | closure bodies scopes => exact .closure bodies (scopes.mono included)

theorem Thins.optionMono {value? other? : Option Value} (included : links ⊆ more)
    (thins : Option.Rel (Thins dead quiet links) value? other?) :
    Option.Rel (Thins dead quiet more) value? other? := by
  cases thins with
  | some values => exact .some (values.mono included)
  | none => exact .none

theorem Thins.text_eq {value other : Value} (thins : Thins dead quiet links value other) :
    other.text = value.text := by
  induction thins with
  | scalar => rfl
  | tuple _ _ lefts rights => rw [text, text, lefts, rights]
  | closure => rfl

theorem Thins.eq_of_hasClosure {value other : Value} (thins : Thins dead quiet links value other)
    (plain : value.hasClosure = false) : other = value := by
  induction thins with
  | scalar => rfl
  | tuple _ _ lefts rights =>
    obtain ⟨left, right⟩ := Bool.or_eq_false_iff.mp plain
    rw [lefts left, rights right]
  | closure => cases plain

end Value

/-! ### Runs side by side -/

namespace World

variable {world other final : World}

/-- Work that the second run does not do changes nothing that is linked. -/
theorem Thins.keeps {bound : Nat} (thins : Thins dead quiet links world other)
    (below : ∀ link ∈ links, link.1 < bound) (keeps : world.Keeps bound quiet final) :
    Thins dead quiet links final other where
  allocated link linked := by
    have inRange := thins.allocated link linked
    exact ⟨Nat.lt_of_lt_of_le inRange.1 keeps.length_le, inRange.2⟩
  oneToOne := thins.oneToOne
  values link linked := by
    rw [keeps.value?_eq link.1 (below link linked)]
    exact thins.values link linked
  output_sublist := thins.output_sublist.trans keeps.output_grows
  output_eq isQuiet := (thins.output_eq isQuiet).trans (keeps.output_eq isQuiet).symm

end World

namespace Run

variable {α β γ δ : Type} {related : Links → α → β → Prop} {related' : Links → γ → δ → Prop}

theorem thins_pure {result : α} {other : β} (same : related links result other) :
    Thins dead quiet links related (pure result) (pure other) := by
  rintro world world' worlds _ _ ⟨⟩
  exact ⟨links, other, world', rfl, List.Subset.refl _, same, worlds⟩

theorem thins_fail {failure : Failure} {other : Run β} :
    Thins dead quiet links related (fail failure) other := by
  rintro world world' worlds _ _ ⟨⟩

theorem bind_eq_ok {run : Run α} {next : α → Run γ} {world final : World} {result : γ}
    (ran : (run >>= next) world = (.ok result, final)) :
    ∃ first between, run world = (.ok first, between) ∧
      next first between = (.ok result, final) := by
  change andThen run next world = _ at ran
  rw [andThen] at ran
  rcases start : run world with ⟨_ | first, between⟩ <;> rw [start] at ran
  · cases ran
  · exact ⟨first, between, rfl, ran⟩

theorem bind_of_ok {run : Run α} {next : α → Run γ} {world between : World} {first : α}
    (ran : run world = (.ok first, between)) : (run >>= next) world = next first between := by
  show andThen run next world = _
  rw [andThen, ran]

theorem thins_bind {run : Run α} {other : Run β} {next : α → Run γ} {next' : β → Run δ}
    (firsts : Thins dead quiet links related run other)
    (rests : ∀ more result result', links ⊆ more → related more result result' →
      Thins dead quiet more related' (next result) (next' result')) :
    Thins dead quiet links related' (run >>= next) (other >>= next') := by
  intro world world' worlds result final ran
  obtain ⟨first, between, started, ended⟩ := bind_eq_ok ran
  obtain ⟨more, first', between', started', included, same, betweens⟩ := firsts worlds started
  obtain ⟨most, result', final', ended', includes, results, finals⟩ :=
    rests more first first' included same betweens ended
  refine ⟨most, result', final', ?_, List.Subset.trans included includes, results, finals⟩
  rw [bind_of_ok started', ended']

/-- Two new cells become linked. -/
theorem thins_allocate :
    Thins dead quiet links (fun more cell twin => (cell, twin) ∈ more) allocate allocate := by
  rintro world world' worlds _ _ ⟨⟩
  have new : ∀ link ∈ links, link.1 ≠ world.cells.length ∧ link.2 ≠ world'.cells.length :=
    fun link linked =>
      ⟨Nat.ne_of_lt (worlds.allocated link linked).1, Nat.ne_of_lt (worlds.allocated link linked).2⟩
  refine ⟨(world.cells.length, world'.cells.length) :: links, _, _, rfl, List.subset_cons_self _ _,
    List.mem_cons_self, ?_, ?_, ?_, worlds.output_sublist, worlds.output_eq⟩
  · rintro link (_ | ⟨_, linked⟩)
    · simp
    · have inRange := worlds.allocated link linked
      simp only [List.length_append, List.length_singleton]
      omega
  · rintro link (_ | ⟨_, linked⟩) second (_ | ⟨_, alsoLinked⟩)
    · simp
    · exact iff_of_false (new second alsoLinked).1.symm (new second alsoLinked).2.symm
    · exact iff_of_false (new link linked).1 (new link linked).2
    · exact worlds.oneToOne link linked second alsoLinked
  · rintro link (_ | ⟨_, linked⟩)
    · simp [World.value?]
    · have inRange := worlds.allocated link linked
      rw [World.value?_append inRange.1, World.value?_append inRange.2]
      exact Value.Thins.optionMono (List.subset_cons_self _ _) (worlds.values link linked)

theorem thins_assign {cell twin : Nat} {value other : Value} (linked : (cell, twin) ∈ links)
    (values : Value.Thins dead quiet links value other) :
    Thins dead quiet links (fun _ _ _ => True) (assign cell value) (assign twin other) := by
  rintro world world' worlds _ _ ⟨⟩
  refine ⟨links, _, _, rfl, List.Subset.refl _, trivial, ?_, worlds.oneToOne, ?_,
    worlds.output_sublist, worlds.output_eq⟩
  · intro link isLink
    simpa using worlds.allocated link isLink
  · intro link isLink
    have together := worlds.oneToOne (cell, twin) linked link isLink
    by_cases here : cell = link.1
    · have there : twin = link.2 := together.mp here
      rw [← here, ← there, World.value?_set_self (worlds.allocated _ linked).1,
        World.value?_set_self (worlds.allocated _ linked).2]
      exact .some values
    · have elsewhere : twin ≠ link.2 := fun there => here (together.mpr there)
      rw [World.value?_set_ne here, World.value?_set_ne elsewhere]
      exact worlds.values link isLink

theorem thins_write (text : String) :
    Thins dead quiet links (fun _ _ _ => True) (write text) (write text) := by
  rintro world world' worlds _ _ ⟨⟩
  refine ⟨links, _, _, rfl, List.Subset.refl _, trivial, worlds.allocated, worlds.oneToOne,
    worlds.values, worlds.output_sublist.append (List.Sublist.refl _), fun isQuiet => ?_⟩
  show world'.output ++ [text] = world.output ++ [text]
  rw [worlds.output_eq isQuiet]

theorem thins_look {cell twin : Nat} (linked : (cell, twin) ∈ links) :
    Thins dead quiet links (fun more => Option.Rel (Value.Thins dead quiet more))
      (look cell) (look twin) := by
  rintro world world' worlds _ _ ⟨⟩
  exact ⟨links, _, world', rfl, List.Subset.refl _, worlds.values _ linked, worlds⟩

end Run

section Evaluate

open Run

variable {dialect : Dialect} {invoke : Value → List Value → Run Value}

/-- Related values called with related arguments run side by side. -/
def Invokes (dead : List String) (quiet : Bool) (invoke : Value → List Value → Run Value) : Prop :=
  ∀ ⦃links : Links⦄ ⦃function function' : Value⦄ ⦃values values' : List Value⦄,
    Value.Thins dead quiet links function function' →
    List.Forall₂ (Value.Thins dead quiet links) values values' →
    Run.Thins dead quiet links (Value.Thins dead quiet) (invoke function values)
      (invoke function' values')

/-- Names that are not dead are read alike, because their entries are all there. -/
theorem read_thins {name : String} {scope scope' : Scope} (isLive : name ∉ dead)
    (scopes : Scope.Thins dead links scope scope') (included : links ⊆ more) :
    Run.Thins dead quiet more (Value.Thins dead quiet) (dialect.read name scope)
      (dialect.read name scope') := by
  -- a name may be read further outward after a look at its cell, with the links of that moment
  induction scopes generalizing more with
  | nil => exact thins_fail
  | @drop bound cell scope other isDead rest inductionHypothesis =>
    have apart : bound ≠ name := fun same => isLive (same ▸ isDead)
    rw [Dialect.read, if_neg apart]
    exact inductionHypothesis included
  | @keep bound cell twin scope other linked rest inductionHypothesis =>
    rw [Dialect.read, Dialect.read]
    split
    · refine thins_bind (thins_look (included linked)) fun most value? other? includes values? => ?_
      cases values? with
      | some values => exact thins_pure values
      | none =>
        dsimp only
        split
        · exact inductionHypothesis (List.Subset.trans included includes)
        · exact thins_fail
    · exact inductionHypothesis included

theorem operand_thins {op : BinaryOp} {value other : Value}
    (values : Value.Thins dead quiet links value other) :
    Run.Thins dead quiet links (fun _ => Eq) (operand op value) (operand op other) := by
  cases values with
  | scalar => exact thins_pure rfl
  | tuple => exact thins_fail
  | closure => exact thins_fail

theorem bindAll_thins {names : List String} {values others : List Value} {scope scope' : Scope}
    (each : List.Forall₂ (Value.Thins dead quiet links) values others)
    (scopes : Scope.Thins dead links scope scope') :
    Run.Thins dead quiet links (Scope.Thins dead) (bindAll names values scope)
      (bindAll names others scope') := by
  induction names generalizing links values others scope scope' with
  | nil =>
    cases each with
    | nil => exact thins_pure scopes
    | cons => exact thins_fail
  | cons name names inductionHypothesis =>
    cases each with
    | nil => exact thins_fail
    | cons head tail =>
      refine thins_bind thins_allocate fun more cell twin included linked =>
        thins_bind (thins_assign linked (head.mono included)) fun most _ _ includes _ => ?_
      have all := List.Subset.trans included includes
      exact inductionHypothesis (tail.imp fun _ _ values => values.mono all)
        (.keep (includes linked) (scopes.mono all))

/-- A binding that only the first run makes fills new cells, and they are not linked. -/
theorem drop_thins {name : String} {value next thinned : Term} {scope scope' : Scope}
    (quietly : ∀ bound function values, Run.Keeps bound false (invoke function values))
    (harmless : quiet = true → value.mayHaveEffect = false)
    (rests : ∀ cell, Run.Thins dead quiet links (Value.Thins dead quiet)
      (evaluate dialect invoke ((name, cell) :: scope) next)
      (evaluate dialect invoke scope' thinned)) :
    Run.Thins dead quiet links (Value.Thins dead quiet)
      (evaluate dialect invoke scope (.letIn name value next))
      (evaluate dialect invoke scope' thinned) := by
  intro world world' worlds result final ran
  rw [evaluate] at ran
  obtain ⟨cell, _, allocated, ran⟩ := bind_eq_ok ran
  obtain ⟨held, _, evaluated, ran⟩ := bind_eq_ok ran
  obtain ⟨_, between, assigned, ran⟩ := bind_eq_ok ran
  have dropped : (allocate >>= fun cell =>
      evaluate dialect invoke ((name, cell) :: scope) value >>= assign cell) world =
        (.ok (), between) := by
    rw [bind_of_ok allocated, bind_of_ok evaluated, assigned]
  have keeps := keeps_allocate (fun cell above => keeps_bind
    (show Run.Keeps _ quiet (evaluate dialect invoke ((name, cell) :: scope) value) from
      evaluate_keeps (quietly _) value harmless _)
    fun held => keeps_assign above held) world (Nat.le_refl _)
  rw [dropped] at keeps
  exact rests cell (worlds.keeps (fun link linked => (worlds.allocated link linked).1) keeps) ran

mutual

/-- A term and the same term without some of its bindings evaluate alike. -/
theorem evaluate_thins (invokes : Invokes dead quiet invoke)
    (quietly : ∀ bound function values, Run.Keeps bound false (invoke function values))
    {term thinned : Term} {links : Links} {scope scope' : Scope} :
    Term.Thins dead quiet term thinned → Scope.Thins dead links scope scope' →
    Run.Thins dead quiet links (Value.Thins dead quiet) (evaluate dialect invoke scope term)
      (evaluate dialect invoke scope' thinned)
  | .drop isDead harmless rest, scopes =>
    drop_thins quietly harmless fun cell =>
      evaluate_thins invokes quietly rest (.drop isDead scopes)
  | .letIn values nexts, scopes => by
    rw [evaluate, evaluate]
    refine thins_bind thins_allocate fun more cell twin included linked =>
      thins_bind (evaluate_thins invokes quietly values (.keep linked (scopes.mono included)))
        fun most result result' includes results =>
          thins_bind (thins_assign (includes linked) results) fun all _ _ contains _ => ?_
    exact evaluate_thins invokes quietly nexts (.keep (contains (includes linked))
      (scopes.mono (List.Subset.trans included (List.Subset.trans includes contains))))
  | .function bodies, scopes => by
    rw [evaluate, evaluate]
    exact thins_pure (.closure bodies scopes)
  | .ifElse conditions consequents alternatives, scopes => by
    rw [evaluate, evaluate]
    refine thins_bind (evaluate_thins invokes quietly conditions scopes)
      fun more result result' included results => ?_
    cases results with
    | @scalar value =>
      match value with
      | .bool true => exact evaluate_thins invokes quietly consequents (scopes.mono included)
      | .bool false => exact evaluate_thins invokes quietly alternatives (scopes.mono included)
      | .int _ => exact thins_fail
      | .str _ => exact thins_fail
    | tuple => exact thins_fail
    | closure => exact thins_fail
  | .print values, scopes => by
    rw [evaluate, evaluate]
    refine thins_bind (evaluate_thins invokes quietly values scopes)
      fun more result result' included results => ?_
    rw [results.text_eq]
    exact thins_bind (thins_write _) fun most _ _ includes _ => thins_pure (results.mono includes)
  | .call callees each, scopes => by
    rw [evaluate, evaluate]
    exact thins_bind (evaluate_thins invokes quietly callees scopes)
      fun more function function' included functions =>
        thins_bind (evaluateAll_thins invokes quietly each (scopes.mono included))
          fun most values values' includes all => invokes (functions.mono includes) all
  | .var isLive, scopes => by
    rw [evaluate, evaluate]
    exact read_thins isLive scopes (List.Subset.refl _)
  | .int, _ => by
    rw [evaluate, evaluate]
    exact thins_pure .scalar
  | .str, _ => by
    rw [evaluate, evaluate]
    exact thins_pure .scalar
  | .bool, _ => by
    rw [evaluate, evaluate]
    exact thins_pure .scalar
  | @Term.Thins.binary _ _ op _ _ _ _ lefts rights, scopes => by
    rw [evaluate, evaluate]
    refine thins_bind (evaluate_thins invokes quietly lefts scopes)
      fun more _ _ included firsts => thins_bind (operand_thins firsts) ?_
    rintro most left _ includes rfl
    cases dialect.decides op left with
    | some => exact thins_pure .scalar
    | none =>
      refine thins_bind (evaluate_thins invokes quietly rights
        (scopes.mono (List.Subset.trans included includes)))
        fun all _ _ contains seconds => thins_bind (operand_thins seconds) ?_
      rintro last right _ - rfl
      cases dialect.combine op left right with
      | some => exact thins_pure .scalar
      | none => exact thins_fail
  | .tuple lefts rights, scopes => by
    rw [evaluate, evaluate]
    exact thins_bind (evaluate_thins invokes quietly lefts scopes)
      fun more _ _ included firsts =>
        thins_bind (evaluate_thins invokes quietly rights (scopes.mono included))
          fun most _ _ includes seconds => thins_pure (.tuple (firsts.mono includes) seconds)
  | .first values, scopes => by
    rw [evaluate, evaluate]
    refine thins_bind (evaluate_thins invokes quietly values scopes)
      fun more _ _ included results => ?_
    cases results with
    | scalar => exact thins_fail
    | tuple lefts _ => exact thins_pure lefts
    | closure => exact thins_fail
  | .second values, scopes => by
    rw [evaluate, evaluate]
    refine thins_bind (evaluate_thins invokes quietly values scopes)
      fun more _ _ included results => ?_
    cases results with
    | scalar => exact thins_fail
    | tuple _ rights => exact thins_pure rights
    | closure => exact thins_fail

theorem evaluateAll_thins (invokes : Invokes dead quiet invoke)
    (quietly : ∀ bound function values, Run.Keeps bound false (invoke function values))
    {terms thinned : List Term} {links : Links} {scope scope' : Scope} :
    Term.ThinsAll dead quiet terms thinned → Scope.Thins dead links scope scope' →
    Run.Thins dead quiet links (fun more => List.Forall₂ (Value.Thins dead quiet more))
      (evaluateAll dialect invoke scope terms) (evaluateAll dialect invoke scope' thinned)
  | .nil, _ => by
    rw [evaluateAll, evaluateAll]
    exact thins_pure .nil
  | .cons head tail, scopes => by
    rw [evaluateAll, evaluateAll]
    exact thins_bind (evaluate_thins invokes quietly head scopes) fun more _ _ included values =>
      thins_bind (evaluateAll_thins invokes quietly tail (scopes.mono included))
        fun most _ _ includes others => thins_pure (.cons (values.mono includes) others)

end

theorem invoke_thins (depth : Nat) : Invokes dead quiet (Evaluation.invoke dialect depth) := by
  induction depth with
  | zero => exact fun _ _ _ _ _ _ _ => thins_fail
  | succ depth inductionHypothesis =>
    intro links function function' values values' functions each
    cases functions with
    | scalar => exact thins_fail
    | tuple => exact thins_fail
    | closure bodies scopes =>
      exact thins_bind (bindAll_thins each scopes) fun more _ _ _ inner =>
        evaluate_thins inductionHypothesis (fun _ => invoke_keeps depth) bodies inner

end Evaluate

end Evaluation

open Evaluation

/-- A program and the same program without some of its bindings run alike. -/
theorem Term.Thins.run_thins {dead : List String} {quiet : Bool} {dialect : Dialect} {depth : Nat}
    {term thinned : Term} {value : Value} {world : World} (thins : Thins dead quiet term thinned)
    (ran : term.run dialect depth = (.ok value, world)) :
    ∃ links value' world', thinned.run dialect depth = (.ok value', world') ∧
      Value.Thins dead quiet links value value' ∧ World.Thins dead quiet links world world' := by
  have start : World.Thins dead quiet [] ⟨[], []⟩ ⟨[], []⟩ :=
    ⟨by simp, by simp, by simp, List.Sublist.refl _, fun _ => rfl⟩
  obtain ⟨links, value', world', ran', -, values, worlds⟩ :=
    evaluate_thins (invoke_thins depth) (fun _ => invoke_keeps depth) thins .nil start ran
  exact ⟨links, value', world', ran', values, worlds⟩

end TreeScript
