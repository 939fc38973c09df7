/-
This file follows a run from the inside. A moment of a run is a term that is about
to be evaluated or a function that is about to be called, in the world that has
come about by then; what is to be done at a moment leads to further moments, until
the run is written out completely.

Programs are looked at here in which names tell functions apart: a name that is
bound to a function is bound nowhere else, and every call is a call of such a name.
Then a cell that was allocated for such a name never holds anything but a closure of
that function. Cells for other names may hold anything at all, even what no program
could produce, because nothing in them is ever called. So which code runs is known
from the program alone, and a run prints nothing if that code has no print in it.
-/

import TreeScript.Proofs.Evaluation
import TreeScript.Proofs.Arena.Layout
import Mathlib.Logic.Function.Basic
import Mathlib.Logic.Relation

namespace TreeScript

/-! ### Programs in which names tell functions apart -/

namespace Term

/-- One term stands somewhere inside another one, or is that one. -/
def Contains (whole part : Term) : Prop :=
  Relation.ReflTransGen (fun outer inner => inner ∈ outer.parts) whole part

/-- Somewhere in a program, a function is bound to this name. -/
def BindsFunction (program : Term) (name : String) (parameters : List String) (body : Term) :
    Prop :=
  ∃ next, program.Contains (.letIn name (.function parameters body) next)

/-- Some function is bound to this name. -/
def NamesFunction (program : Term) (name : String) : Prop :=
  ∃ parameters body, program.BindsFunction name parameters body

mutual

/-- Outside functions a term has no print, and calls only of names that are taken to be silent. -/
def Quiet (silent : String → Prop) : Term → Prop
  | letIn _ value next => value.Quiet silent ∧ next.Quiet silent
  | function .. => True
  | ifElse condition consequent alternative =>
    condition.Quiet silent ∧ consequent.Quiet silent ∧ alternative.Quiet silent
  | print _ => False
  | call callee arguments =>
    (∃ name, callee = .var name ∧ silent name) ∧ QuietAll silent arguments
  | var _ => True
  | int _ => True
  | str _ => True
  | bool _ => True
  | binary _ lhs rhs => lhs.Quiet silent ∧ rhs.Quiet silent
  | tuple left right => left.Quiet silent ∧ right.Quiet silent
  | first value => value.Quiet silent
  | second value => value.Quiet silent

def QuietAll (silent : String → Prop) : List Term → Prop
  | [] => True
  | term :: terms => term.Quiet silent ∧ QuietAll silent terms

end

/-- Names tell functions apart, calls are by name, and silent functions are quiet. -/
structure Orderly (program : Term) (silent : String → Prop) : Prop where
  binding : ∀ name value next, program.Contains (.letIn name value next) →
    ∀ parameters body, program.BindsFunction name parameters body →
      value = .function parameters body
  parameter : ∀ parameters body, program.Contains (.function parameters body) →
    ∀ name ∈ parameters, ¬program.NamesFunction name
  call : ∀ callee arguments, program.Contains (.call callee arguments) →
    ∃ name, callee = .var name ∧ program.NamesFunction name
  quiet : ∀ name parameters body, silent name → program.BindsFunction name parameters body →
    body.Quiet silent

variable {program : Term}

theorem Contains.part {outer inner : Term} (contains : program.Contains outer)
    (member : inner ∈ outer.parts) : program.Contains inner :=
  contains.tail member

theorem BindsFunction.contains_function {name : String} {parameters : List String} {body : Term}
    (binds : program.BindsFunction name parameters body) :
    program.Contains (.function parameters body) := by
  obtain ⟨next, contains⟩ := binds
  exact contains.part (by simp [parts])

theorem BindsFunction.contains_body {name : String} {parameters : List String} {body : Term}
    (binds : program.BindsFunction name parameters body) : program.Contains body :=
  binds.contains_function.part (by simp [parts])

end Term

namespace Evaluation

/-! ### Cells that belong to functions -/

/-- For some cells, the name of the function that they were allocated for. -/
abbrev Owners := Nat → Option String

/-- In a scope, names of functions stand for cells that belong to these functions. -/
def Scope.Owned (program : Term) (owners : Owners) (scope : Scope) : Prop :=
  ∀ name cell, (name, cell) ∈ scope → program.NamesFunction name → owners cell = some name

/-- A value is a closure of the function of this name, made in a scope of the run. -/
def Value.IsOf (program : Term) (owners : Owners) (name : String) (value : Value) : Prop :=
  ∃ parameters body scope, value = .closure parameters body scope ∧
    program.BindsFunction name parameters body ∧ Scope.Owned program owners scope

/-- Cells that belong to a function are empty or hold a closure of it. -/
structure World.Owned (program : Term) (owners : Owners) (world : World) : Prop where
  allocated : ∀ cell name, owners cell = some name → cell < world.cells.length
  values : ∀ cell name value, owners cell = some name → world.value? cell = some value →
    Value.IsOf program owners name value

/-- A later world of a run, with more cells and perhaps more of them owned. A quiet run has not
printed. -/
structure World.Follows (program : Term) (quiet : Bool) (owners later : Owners)
    (before after : World) : Prop where
  owned : after.Owned program later
  agree : ∀ cell < before.cells.length, later cell = owners cell
  length_le : before.cells.length ≤ after.cells.length
  output_eq : quiet = true → after.output = before.output

/-- A run from a world leads to a later world, and its result, if it has one, is as described. -/
def Run.Steady (program : Term) (quiet : Bool) (owners : Owners) {α : Type}
    (described : Owners → World → α → Prop) (run : Run α) (world : World) : Prop :=
  ∃ later, world.Follows program quiet owners later (run world).2 ∧
    ∀ result, (run world).1 = .ok result → described later (run world).2 result

variable {program : Term} {quiet : Bool} {owners later last : Owners} {before between after world :
  World}

namespace World

theorem Owned.refl (owned : world.Owned program owners) :
    world.Follows program quiet owners owners world :=
  ⟨owned, fun _ _ => rfl, Nat.le_refl _, fun _ => rfl⟩

theorem Follows.trans (early : before.Follows program quiet owners later between)
    (late : between.Follows program quiet later last after) :
    before.Follows program quiet owners last after where
  owned := late.owned
  agree cell below := (late.agree cell (Nat.lt_of_lt_of_le below early.length_le)).trans
    (early.agree cell below)
  length_le := Nat.le_trans early.length_le late.length_le
  output_eq isQuiet := (late.output_eq isQuiet).trans (early.output_eq isQuiet)

/-- What belongs to a function goes on belonging to it. -/
theorem Follows.extends (follows : before.Follows program quiet owners later after)
    (owned : before.Owned program owners) {cell : Nat} {name : String}
    (belongs : owners cell = some name) : later cell = some name := by
  rw [follows.agree cell (owned.allocated cell name belongs), belongs]

end World

theorem Scope.Owned.mono {scope : Scope} (ownedScope : Scope.Owned program owners scope)
    (kept : ∀ cell name, owners cell = some name → later cell = some name) :
    Scope.Owned program later scope :=
  fun name cell member isFunction => kept cell name (ownedScope name cell member isFunction)

theorem Value.IsOf.mono {name : String} {value : Value}
    (isOf : Value.IsOf program owners name value)
    (kept : ∀ cell name, owners cell = some name → later cell = some name) :
    Value.IsOf program later name value := by
  obtain ⟨parameters, body, scope, rfl, binds, ownedScope⟩ := isOf
  exact ⟨parameters, body, scope, rfl, binds, ownedScope.mono kept⟩

theorem Scope.Owned.cons {scope : Scope} (ownedScope : Scope.Owned program owners scope)
    {name : String} {cell : Nat}
    (belongs : program.NamesFunction name → owners cell = some name) :
    Scope.Owned program owners ((name, cell) :: scope) := by
  intro other otherCell member isFunction
  rcases List.mem_cons.mp member with same | inScope
  · cases same
    exact belongs isFunction
  · exact ownedScope other otherCell inScope isFunction

namespace World

/-- A new cell may be given to a function or to none. -/
theorem Owned.allocate (owned : world.Owned program owners) (owner : Option String) (quiet : Bool) :
    World.Follows program quiet owners (Function.update owners world.cells.length owner) world
      { world with cells := world.cells ++ [none] } := by
  have agree : ∀ cell < world.cells.length,
      Function.update owners world.cells.length owner cell = owners cell :=
    fun cell below => Function.update_of_ne (Nat.ne_of_lt below) _ _
  have kept (cell : Nat) (name : String) (belongs : owners cell = some name) :
      Function.update owners world.cells.length owner cell = some name :=
    (agree cell (owned.allocated cell name belongs)).trans belongs
  refine ⟨⟨fun cell name belongs => ?_, fun cell name value belongs held => ?_⟩, agree, by simp,
    fun _ => rfl⟩
  · rw [List.length_append, List.length_singleton]
    by_cases fresh : cell = world.cells.length
    · exact Nat.lt_succ_of_le (Nat.le_of_eq fresh)
    · rw [Function.update_of_ne fresh] at belongs
      exact Nat.lt_succ_of_lt (owned.allocated cell name belongs)
  · by_cases fresh : cell = world.cells.length
    · subst fresh
      simp [World.value?] at held
    · rw [Function.update_of_ne fresh] at belongs
      rw [value?_append (owned.allocated cell name belongs)] at held
      exact (owned.values cell name value belongs held).mono kept

/-- A cell may be filled with anything if it belongs to no function, and else with a closure of
that function. -/
theorem Owned.assign (owned : world.Owned program owners) {cell : Nat} {value : Value}
    (fits : ∀ name, owners cell = some name → Value.IsOf program owners name value)
    (quiet : Bool) : world.Follows program quiet owners owners
      { world with cells := world.cells.set cell (some value) } := by
  refine ⟨⟨fun other name belongs => ?_, fun other name held belongs there => ?_⟩, fun _ _ => rfl,
    by simp, fun _ => rfl⟩
  · rw [List.length_set]
    exact owned.allocated other name belongs
  · by_cases same : cell = other
    · subst same
      rw [value?_set_self (owned.allocated cell name belongs)] at there
      cases there
      exact fits name belongs
    · rw [value?_set_ne same] at there
      exact owned.values other name held belongs there

end World

/-! ### Steady runs -/

namespace Run

variable {α β : Type} {described : Owners → World → α → Prop} {wanted : Owners → World → β → Prop}

theorem steady_pure (owned : world.Owned program owners) {result : α}
    (isDescribed : described owners world result) :
    Steady program quiet owners described (pure result) world := by
  refine ⟨owners, owned.refl, fun other same => ?_⟩
  cases same
  exact isDescribed

theorem steady_fail (owned : world.Owned program owners) (failure : Failure) :
    Steady program quiet owners described (fail failure) world :=
  ⟨owners, owned.refl, fun _ same => by cases same⟩

/-- A run goes on from where an earlier one has led. -/
theorem steady_bind {run : Run α} {next : α → Run β}
    (first : Steady program quiet owners described run world)
    (rest : ∀ result later after, world.Follows program quiet owners later after →
      described later after result → Steady program quiet later wanted (next result) after) :
    Steady program quiet owners wanted (run >>= next) world := by
  obtain ⟨later, follows, isDescribed⟩ := first
  show ∃ last, world.Follows program quiet owners last (andThen run next world).2 ∧
    ∀ result, (andThen run next world).1 = .ok result →
      wanted last (andThen run next world).2 result
  rw [andThen]
  rcases ran : run world with ⟨failure | result, after⟩ <;> rw [ran] at follows isDescribed
  · exact ⟨later, follows, fun _ same => by cases same⟩
  · obtain ⟨last, follows', isWanted⟩ := rest result later after follows (isDescribed result rfl)
    exact ⟨last, follows.trans follows', isWanted⟩

theorem Steady.weaken {run : Run α} {weaker : Owners → World → α → Prop}
    (steady : Steady program quiet owners described run world)
    (implies : ∀ later after result, described later after result → weaker later after result) :
    Steady program quiet owners weaker run world := by
  obtain ⟨later, follows, isDescribed⟩ := steady
  exact ⟨later, follows, fun result ran => implies _ _ _ (isDescribed result ran)⟩

theorem steady_look (owned : world.Owned program owners) (cell : Nat) :
    Steady program quiet owners (fun later after found => later = owners ∧ after = world ∧
      found = world.value? cell) (look cell) world := by
  refine ⟨owners, owned.refl, fun result same => ?_⟩
  cases same
  exact ⟨rfl, rfl, rfl⟩

theorem steady_write (owned : world.Owned program owners) (loud : quiet = false) (text : String) :
    Steady program quiet owners (fun _ _ _ => True) (write text) world := by
  refine ⟨owners, ⟨⟨owned.allocated, owned.values⟩, fun _ _ => rfl, Nat.le_refl _, ?_⟩,
    fun _ _ => trivial⟩
  simp [loud]

end Run

section Steady

open Run

variable {dialect : Dialect} {silent : String → Prop}

/-- Reading the name of a function gives a closure of it. -/
theorem read_steady (owned : world.Owned program owners) {name : String} {scope : Scope}
    (ownedScope : Scope.Owned program owners scope) :
    Run.Steady program quiet owners
      (fun later _ value => program.NamesFunction name → Value.IsOf program later name value)
      (dialect.read name scope) world := by
  induction scope with
  | nil => exact steady_fail owned _
  | cons entry scope inductionHypothesis =>
    obtain ⟨bound, cell⟩ := entry
    have further := inductionHypothesis fun name cell member =>
      ownedScope name cell (List.mem_cons_of_mem _ member)
    rw [Dialect.read]
    split
    · rename_i same
      subst same
      refine steady_bind (steady_look owned cell) ?_
      rintro found later after - ⟨rfl, rfl, rfl⟩
      cases held : after.value? cell with
      | some value =>
        exact steady_pure owned fun isFunction =>
          owned.values cell bound value (ownedScope bound cell List.mem_cons_self isFunction) held
      | none =>
        show Run.Steady program quiet later _ (if _ then _ else _) after
        split
        · exact further
        · exact steady_fail owned _
    · exact further

theorem operand_steady (owned : world.Owned program owners) (op : BinaryOp) (value : Value) :
    Run.Steady program quiet owners (fun _ _ _ => True) (operand op value) world := by
  cases value with
  | scalar => exact steady_pure owned trivial
  | tuple => exact steady_fail owned _
  | closure => exact steady_fail owned _

/-- Parameters do not have the name of a function, so they may be bound to anything. -/
theorem bindAll_steady {names : List String} (free : ∀ name ∈ names, ¬program.NamesFunction name)
    (values : List Value) {scope : Scope} (owned : world.Owned program owners)
    (ownedScope : Scope.Owned program owners scope) :
    Run.Steady program quiet owners (fun later _ inner => Scope.Owned program later inner)
      (bindAll names values scope) world := by
  induction names generalizing values scope owners world with
  | nil =>
    cases values with
    | nil => exact steady_pure owned ownedScope
    | cons => exact steady_fail owned _
  | cons name names inductionHypothesis =>
    cases values with
    | nil => exact steady_fail owned _
    | cons value values =>
      have allocated := owned.allocate none quiet
      have unowned (owner : String) (belongs :
            Function.update owners world.cells.length none world.cells.length = some owner) :
          Value.IsOf program (Function.update owners world.cells.length none) owner value := by
        simp at belongs
      have filled := allocated.owned.assign unowned quiet
      obtain ⟨last, follows, described⟩ := inductionHypothesis
        (fun other member => free other (List.mem_cons_of_mem _ member)) values filled.owned
        ((ownedScope.mono fun _ _ => allocated.extends owned).cons
          fun isFunction => absurd isFunction (free name List.mem_cons_self))
      exact ⟨last, (allocated.trans filled).trans follows, described⟩

/-- What a call may count on when the callee is a closure of a function. -/
def CallsSteadily (program : Term) (silent : String → Prop) (quiet : Bool)
    (invoke : Value → List Value → Run Value) : Prop :=
  ∀ {name function owners world}, World.Owned program owners world →
    Value.IsOf program owners name function → (quiet = true → silent name) →
      ∀ values, Run.Steady program quiet owners (fun _ _ _ => True) (invoke function values) world

/-- The scope in which the value of a binding and what follows it are evaluated. The new cell
belongs to the bound name if that is the name of a function. -/
theorem allocate_binding (orderly : program.Orderly silent) {name : String}
    {value next : Term} (contains : program.Contains (.letIn name value next)) {scope : Scope}
    (owned : world.Owned program owners) (ownedScope : Scope.Owned program owners scope)
    (quiet : Bool) :
    Run.Steady program quiet owners
      (fun later after cell => cell < after.cells.length ∧
        Scope.Owned program later ((name, cell) :: scope) ∧
        ∀ owner, later cell = some owner →
          ∃ parameters body, value = .function parameters body ∧
            program.BindsFunction owner parameters body) allocate world := by
  by_cases isFunction : program.NamesFunction name
  · obtain ⟨parameters, body, binds⟩ := isFunction
    have allocated := owned.allocate (some name) quiet
    refine ⟨_, allocated, fun cell same => ?_⟩
    cases same
    refine ⟨by simp [allocate], (ownedScope.mono fun _ _ => allocated.extends owned).cons
      fun _ => Function.update_self .., fun owner belongs => ?_⟩
    rw [Function.update_self] at belongs
    cases belongs
    exact ⟨parameters, body, orderly.binding name value next contains parameters body binds, binds⟩
  · have allocated := owned.allocate none quiet
    refine ⟨_, allocated, fun cell same => ?_⟩
    cases same
    refine ⟨by simp [allocate], (ownedScope.mono fun _ _ => allocated.extends owned).cons
      (absurd · isFunction), fun owner belongs => ?_⟩
    rw [Function.update_self] at belongs
    cases belongs

/-- The cell of a function is filled with a closure of it. -/
theorem binding_value {invoke : Value → List Value → Run Value} {inner : Scope} {value : Term}
    {cell : Nat} (owned : world.Owned program owners)
    (ownedScope : Scope.Owned program owners inner) (allocated : cell < world.cells.length)
    (belongs : ∀ owner, owners cell = some owner → ∃ parameters body,
      value = .function parameters body ∧ program.BindsFunction owner parameters body)
    (steady : Run.Steady program quiet owners (fun _ _ _ => True)
      (evaluate dialect invoke inner value) world) :
    Run.Steady program quiet owners
      (fun later _ result => ∀ owner, later cell = some owner →
        Value.IsOf program later owner result) (evaluate dialect invoke inner value) world := by
  obtain ⟨later, follows, -⟩ := steady
  refine ⟨later, follows, fun result ran owner owns => ?_⟩
  rw [follows.agree cell allocated] at owns
  obtain ⟨parameters, body, rfl, binds⟩ := belongs owner owns
  rw [evaluate] at ran
  cases ran
  exact ⟨parameters, body, inner, rfl, binds, ownedScope.mono fun _ _ => follows.extends owned⟩

theorem assign_steady (owned : world.Owned program owners) {cell : Nat} {value : Value}
    (fits : ∀ name, owners cell = some name → Value.IsOf program owners name value) :
    Run.Steady program quiet owners (fun later _ _ => later = owners) (assign cell value) world :=
  ⟨owners, owned.assign fits quiet, fun _ _ => rfl⟩

mutual

/-- Evaluation keeps the cells of functions to their functions, and it prints nothing where the
term is quiet. -/
theorem evaluate_steady {invoke : Value → List Value → Run Value}
    (orderly : program.Orderly silent) (invokes : CallsSteadily program silent quiet invoke)
    (term : Term) (contains : program.Contains term)
    (isQuiet : quiet = true → term.Quiet silent) {owners : Owners} {scope : Scope} {world : World}
    (owned : world.Owned program owners) (ownedScope : Scope.Owned program owners scope) :
    Run.Steady program quiet owners (fun _ _ _ => True)
      (evaluate dialect invoke scope term) world :=
  match term with
  | .letIn name value next => by
    have valueQuiet (asked : quiet = true) := (isQuiet asked).1
    have nextQuiet (asked : quiet = true) := (isQuiet asked).2
    have inValue : program.Contains value := contains.part (by simp [Term.parts])
    have inNext : program.Contains next := contains.part (by simp [Term.parts])
    rw [evaluate]
    refine steady_bind (allocate_binding orderly contains owned ownedScope quiet)
      fun cell later after allocated ⟨inRange, inner, belongs⟩ => ?_
    refine steady_bind (binding_value allocated.owned inner inRange belongs
      (evaluate_steady orderly invokes value inValue valueQuiet allocated.owned inner))
      fun result last final evaluated fits => ?_
    refine steady_bind (assign_steady evaluated.owned fits) fun _ _ _ assigned same => ?_
    subst same
    exact evaluate_steady orderly invokes next inNext nextQuiet assigned.owned
      (inner.mono fun _ _ => evaluated.extends allocated.owned)
  | .function .. => by
    rw [evaluate]
    exact steady_pure owned trivial
  | .ifElse condition consequent alternative => by
    have inCondition : program.Contains condition := contains.part (by simp [Term.parts])
    have inConsequent : program.Contains consequent := contains.part (by simp [Term.parts])
    have inAlternative : program.Contains alternative := contains.part (by simp [Term.parts])
    rw [evaluate]
    refine steady_bind (evaluate_steady orderly invokes condition inCondition
      (fun asked => (isQuiet asked).1) owned ownedScope) fun result later after follows _ => ?_
    have kept := ownedScope.mono fun _ _ => follows.extends owned
    split
    · exact evaluate_steady orderly invokes consequent inConsequent
        (fun asked => (isQuiet asked).2.1) follows.owned kept
    · exact evaluate_steady orderly invokes alternative inAlternative
        (fun asked => (isQuiet asked).2.2) follows.owned kept
    · exact steady_fail follows.owned _
  | .print value => by
    have inValue : program.Contains value := contains.part (by simp [Term.parts])
    have loud : quiet = false := Bool.eq_false_iff.mpr isQuiet
    rw [evaluate]
    refine steady_bind (evaluate_steady orderly invokes value inValue (by simp [loud]) owned
      ownedScope) fun result later after follows _ => ?_
    refine steady_bind (steady_write follows.owned loud _) fun _ _ _ wrote _ => ?_
    exact steady_pure wrote.owned trivial
  | .call callee arguments => by
    obtain ⟨name, rfl, isFunction⟩ := orderly.call callee arguments contains
    have silentName (asked : quiet = true) : silent name := by
      obtain ⟨other, same, isSilent⟩ := (isQuiet asked).1
      cases same
      exact isSilent
    rw [evaluate, evaluate]
    refine steady_bind (read_steady owned ownedScope) fun function later after follows isOf => ?_
    refine steady_bind (evaluateAll_steady orderly invokes arguments
      (fun argument member => contains.part (by simp [Term.parts, member]))
      (fun asked => (isQuiet asked).2) follows.owned
      (ownedScope.mono fun _ _ => follows.extends owned))
      fun values last final evaluated _ => ?_
    exact invokes evaluated.owned
      ((isOf isFunction).mono fun _ _ => evaluated.extends follows.owned) silentName values
  | .var name => by
    rw [evaluate]
    exact (read_steady owned ownedScope).weaken fun _ _ _ _ => trivial
  | .int _ => by
    rw [evaluate]
    exact steady_pure owned trivial
  | .str _ => by
    rw [evaluate]
    exact steady_pure owned trivial
  | .bool _ => by
    rw [evaluate]
    exact steady_pure owned trivial
  | .binary op lhs rhs => by
    have inLeft : program.Contains lhs := contains.part (by simp [Term.parts])
    have inRight : program.Contains rhs := contains.part (by simp [Term.parts])
    rw [evaluate]
    refine steady_bind (evaluate_steady orderly invokes lhs inLeft
      (fun asked => (isQuiet asked).1) owned ownedScope) fun first later after follows _ => ?_
    refine steady_bind (operand_steady follows.owned op first)
      fun left later' after' follows' _ => ?_
    have both := follows.trans follows'
    split
    · exact steady_pure both.owned trivial
    · refine steady_bind (evaluate_steady orderly invokes rhs inRight
        (fun asked => (isQuiet asked).2) both.owned
        (ownedScope.mono fun _ _ => both.extends owned)) fun second _ _ evaluated _ => ?_
      refine steady_bind (operand_steady evaluated.owned op second) fun right _ _ last _ => ?_
      split
      · exact steady_pure last.owned trivial
      · exact steady_fail last.owned _
  | .tuple left right => by
    have inLeft : program.Contains left := contains.part (by simp [Term.parts])
    have inRight : program.Contains right := contains.part (by simp [Term.parts])
    rw [evaluate]
    refine steady_bind (evaluate_steady orderly invokes left inLeft
      (fun asked => (isQuiet asked).1) owned ownedScope) fun _ _ _ follows _ => ?_
    refine steady_bind (evaluate_steady orderly invokes right inRight
      (fun asked => (isQuiet asked).2) follows.owned
      (ownedScope.mono fun _ _ => follows.extends owned)) fun _ _ _ last _ => ?_
    exact steady_pure last.owned trivial
  | .first value => by
    have inValue : program.Contains value := contains.part (by simp [Term.parts])
    rw [evaluate]
    refine steady_bind (evaluate_steady orderly invokes value inValue isQuiet owned ownedScope)
      fun result _ _ follows _ => ?_
    split
    · exact steady_pure follows.owned trivial
    · exact steady_fail follows.owned _
  | .second value => by
    have inValue : program.Contains value := contains.part (by simp [Term.parts])
    rw [evaluate]
    refine steady_bind (evaluate_steady orderly invokes value inValue isQuiet owned ownedScope)
      fun result _ _ follows _ => ?_
    split
    · exact steady_pure follows.owned trivial
    · exact steady_fail follows.owned _

theorem evaluateAll_steady {invoke : Value → List Value → Run Value}
    (orderly : program.Orderly silent) (invokes : CallsSteadily program silent quiet invoke)
    (terms : List Term) (contains : ∀ term ∈ terms, program.Contains term)
    (isQuiet : quiet = true → Term.QuietAll silent terms) {owners : Owners} {scope : Scope}
    {world : World} (owned : world.Owned program owners)
    (ownedScope : Scope.Owned program owners scope) :
    Run.Steady program quiet owners (fun _ _ _ => True)
      (evaluateAll dialect invoke scope terms) world :=
  match terms with
  | [] => by
    rw [evaluateAll]
    exact steady_pure owned trivial
  | term :: terms => by
    rw [evaluateAll]
    refine steady_bind (evaluate_steady orderly invokes term (contains term List.mem_cons_self)
      (fun asked => (isQuiet asked).1) owned ownedScope) fun _ _ _ follows _ => ?_
    refine steady_bind (evaluateAll_steady orderly invokes terms
      (fun other member => contains other (List.mem_cons_of_mem _ member))
      (fun asked => (isQuiet asked).2) follows.owned
      (ownedScope.mono fun _ _ => follows.extends owned)) fun _ _ _ last _ => ?_
    exact steady_pure last.owned trivial

end

theorem invoke_steady (orderly : program.Orderly silent) (quiet : Bool) (depth : Nat) :
    CallsSteadily program silent quiet (invoke dialect depth) := by
  induction depth with
  | zero => exact fun owned _ _ _ => steady_fail owned _
  | succ depth inductionHypothesis =>
    intro name function owners world owned isOf silentName values
    obtain ⟨parameters, body, scope, rfl, binds, ownedScope⟩ := isOf
    have free := orderly.parameter parameters body binds.contains_function
    exact steady_bind (bindAll_steady free values owned ownedScope)
      fun inner later after follows ownedInner =>
        evaluate_steady orderly inductionHypothesis body binds.contains_body
          (fun asked => orderly.quiet name parameters body (silentName asked) binds)
          follows.owned ownedInner

end Steady

/-! ### Moments of a run -/

/-- What is to be done at a moment of a run. A call is given with the term that was called. -/
inductive Task where
  | evaluate (scope : Scope) (term : Term)
  | call (callee : Term) (function : Value) (values : List Value)

/-- What is to be done, in which world, and how deep calls may still go. -/
structure Moment where
  depth : Nat
  task : Task
  world : World

/-- One moment leads to another one that comes about while its task is done: the evaluation of a
part, once what is evaluated before it has given a value, a call once its arguments have values,
or the evaluation of the body of the function that is called. -/
inductive Moment.Leads (dialect : Dialect) : Moment → Moment → Prop where
  | value {depth name value next scope world cell allocated}
      (allocates : Run.allocate world = (.ok cell, allocated)) :
      Leads dialect ⟨depth, .evaluate scope (.letIn name value next), world⟩
        ⟨depth, .evaluate ((name, cell) :: scope) value, allocated⟩
  | next {depth name value next scope world cell allocated result evaluated filled}
      (allocates : Run.allocate world = (.ok cell, allocated))
      (evaluates : evaluate dialect (invoke dialect depth) ((name, cell) :: scope) value allocated =
        (.ok result, evaluated))
      (assigns : Run.assign cell result evaluated = (.ok (), filled)) :
      Leads dialect ⟨depth, .evaluate scope (.letIn name value next), world⟩
        ⟨depth, .evaluate ((name, cell) :: scope) next, filled⟩
  | condition {depth condition consequent alternative scope world} :
      Leads dialect ⟨depth, .evaluate scope (.ifElse condition consequent alternative), world⟩
        ⟨depth, .evaluate scope condition, world⟩
  | consequent {depth condition consequent alternative scope world later}
      (holds : evaluate dialect (invoke dialect depth) scope condition world =
        (.ok (.scalar (.bool true)), later)) :
      Leads dialect ⟨depth, .evaluate scope (.ifElse condition consequent alternative), world⟩
        ⟨depth, .evaluate scope consequent, later⟩
  | alternative {depth condition consequent alternative scope world later}
      (fails : evaluate dialect (invoke dialect depth) scope condition world =
        (.ok (.scalar (.bool false)), later)) :
      Leads dialect ⟨depth, .evaluate scope (.ifElse condition consequent alternative), world⟩
        ⟨depth, .evaluate scope alternative, later⟩
  | printed {depth value scope world} :
      Leads dialect ⟨depth, .evaluate scope (.print value), world⟩
        ⟨depth, .evaluate scope value, world⟩
  | callee {depth callee arguments scope world} :
      Leads dialect ⟨depth, .evaluate scope (.call callee arguments), world⟩
        ⟨depth, .evaluate scope callee, world⟩
  | argument {depth callee before argument behind scope world found function values later}
      (evaluates : evaluate dialect (invoke dialect depth) scope callee world =
        (.ok function, found))
      (evaluatesAll : evaluateAll dialect (invoke dialect depth) scope before found =
        (.ok values, later)) :
      Leads dialect
        ⟨depth, .evaluate scope (.call callee (before ++ argument :: behind)), world⟩
        ⟨depth, .evaluate scope argument, later⟩
  | call {depth callee arguments scope world found function values later}
      (evaluates : evaluate dialect (invoke dialect depth) scope callee world =
        (.ok function, found))
      (evaluatesAll : evaluateAll dialect (invoke dialect depth) scope arguments found =
        (.ok values, later)) :
      Leads dialect ⟨depth, .evaluate scope (.call callee arguments), world⟩
        ⟨depth, .call callee function values, later⟩
  | body {depth callee parameters body scope values inner world later}
      (binds : bindAll parameters values scope world = (.ok inner, later)) :
      Leads dialect ⟨depth + 1, .call callee (.closure parameters body scope) values, world⟩
        ⟨depth, .evaluate inner body, later⟩
  | lhs {depth op lhs rhs scope world} :
      Leads dialect ⟨depth, .evaluate scope (.binary op lhs rhs), world⟩
        ⟨depth, .evaluate scope lhs, world⟩
  | rhs {depth op lhs rhs scope world data later}
      (evaluates : evaluate dialect (invoke dialect depth) scope lhs world =
        (.ok (.scalar data), later))
      (undecided : dialect.decides op data = none) :
      Leads dialect ⟨depth, .evaluate scope (.binary op lhs rhs), world⟩
        ⟨depth, .evaluate scope rhs, later⟩
  | left {depth left right scope world} :
      Leads dialect ⟨depth, .evaluate scope (.tuple left right), world⟩
        ⟨depth, .evaluate scope left, world⟩
  | right {depth left right scope world result later}
      (evaluates : evaluate dialect (invoke dialect depth) scope left world = (.ok result, later)) :
      Leads dialect ⟨depth, .evaluate scope (.tuple left right), world⟩
        ⟨depth, .evaluate scope right, later⟩
  | first {depth value scope world} :
      Leads dialect ⟨depth, .evaluate scope (.first value), world⟩
        ⟨depth, .evaluate scope value, world⟩
  | second {depth value scope world} :
      Leads dialect ⟨depth, .evaluate scope (.second value), world⟩
        ⟨depth, .evaluate scope value, world⟩

/-- The moment at which a run of a program starts. -/
def Moment.start (depth : Nat) (program : Term) : Moment :=
  ⟨depth, .evaluate [] program, ⟨[], []⟩⟩

/-- A moment comes about in a run of a program. -/
def Moment.Occurs (dialect : Dialect) (depth : Nat) (program : Term) (moment : Moment) : Prop :=
  Relation.ReflTransGen (Moment.Leads dialect) (.start depth program) moment

/-- What is to be done belongs to the program. -/
def Task.Belongs (program : Term) (owners : Owners) : Task → Prop
  | .evaluate scope term => program.Contains term ∧ Scope.Owned program owners scope
  | .call callee function _ => ∃ name, callee = .var name ∧ Value.IsOf program owners name function

def Moment.Belongs (program : Term) (moment : Moment) : Prop :=
  ∃ owners, moment.world.Owned program owners ∧ moment.task.Belongs program owners

section Moments

open Run

variable {dialect : Dialect} {silent : String → Prop}

theorem Run.Steady.of_ran {α : Type} {described : Owners → World → α → Prop} {run : Run α}
    {result : α} (steady : Run.Steady program quiet owners described run world)
    (ran : run world = (.ok result, after)) :
    ∃ later, world.Follows program quiet owners later after ∧ described later after result := by
  obtain ⟨later, follows, isDescribed⟩ := steady
  rw [ran] at follows isDescribed
  exact ⟨later, follows, isDescribed result rfl⟩

/-- Evaluation of a term of the program, loud or not, goes on to a world in which the scope is
still good. -/
theorem evaluated_owned (orderly : program.Orderly silent) {depth : Nat} {term : Term}
    (contains : program.Contains term) {scope : Scope} {result : Value}
    (owned : world.Owned program owners) (ownedScope : Scope.Owned program owners scope)
    (ran : evaluate dialect (invoke dialect depth) scope term world = (.ok result, after)) :
    ∃ later, after.Owned program later ∧ Scope.Owned program later scope := by
  obtain ⟨later, follows, -⟩ := (evaluate_steady orderly (invoke_steady orderly false depth) term
    contains (by simp) owned ownedScope).of_ran ran
  exact ⟨later, follows.owned, ownedScope.mono fun _ _ => follows.extends owned⟩

/-- A callee is read and then arguments are evaluated, all of them or only the first few. -/
theorem called_owned (orderly : program.Orderly silent) {depth : Nat} {callee : Term}
    {arguments evaluated : List Term} (contains : program.Contains (.call callee arguments))
    (among : ∀ argument ∈ evaluated, argument ∈ arguments) {scope : Scope} {function : Value}
    {values : List Value} (owned : world.Owned program owners)
    (ownedScope : Scope.Owned program owners scope)
    (ran : evaluate dialect (invoke dialect depth) scope callee world = (.ok function, between))
    (ranAll : evaluateAll dialect (invoke dialect depth) scope evaluated between =
      (.ok values, after)) :
    ∃ later, after.Owned program later ∧ Scope.Owned program later scope ∧
      ∃ name, callee = .var name ∧ Value.IsOf program later name function := by
  obtain ⟨name, rfl, isFunction⟩ := orderly.call callee arguments contains
  rw [evaluate] at ran
  have reads : Run.Steady program false owners _ (dialect.read name scope) world :=
    read_steady owned ownedScope
  obtain ⟨found, follows, isOf⟩ := reads.of_ran ran
  have kept := ownedScope.mono fun _ _ => follows.extends owned
  obtain ⟨later, follows', -⟩ := (evaluateAll_steady orderly (invoke_steady orderly false depth)
    evaluated (fun argument member => contains.part (by simp [Term.parts, among argument member]))
    (by simp) follows.owned kept).of_ran ranAll
  exact ⟨later, follows'.owned, kept.mono fun _ _ => follows'.extends follows.owned, name, rfl,
    (isOf isFunction).mono fun _ _ => follows'.extends follows.owned⟩

/-- Whatever comes about while a task of the program is done belongs to the program. -/
theorem Moment.Leads.belongs (orderly : program.Orderly silent) {moment other : Moment}
    (leads : Moment.Leads dialect moment other) (belongs : moment.Belongs program) :
    other.Belongs program := by
  obtain ⟨owners, owned, task⟩ := belongs
  cases leads with
  | value allocates =>
    obtain ⟨later, follows, -, inner, -⟩ :=
      (allocate_binding orderly task.1 owned task.2 false).of_ran allocates
    exact ⟨later, follows.owned, task.1.part (by simp [Term.parts]), inner⟩
  | next allocates evaluates assigns =>
    obtain ⟨later, follows, inRange, inner, owns⟩ :=
      (allocate_binding orderly task.1 owned task.2 false).of_ran allocates
    obtain ⟨last, evaluated, fits⟩ := (binding_value follows.owned inner inRange owns
      (evaluate_steady orderly (invoke_steady orderly false _) _
        (task.1.part (by simp [Term.parts])) (by simp) follows.owned inner)).of_ran evaluates
    have fills : Run.Steady program false last _ (assign _ _) _ :=
      assign_steady evaluated.owned fits
    obtain ⟨_, filled, rfl⟩ := fills.of_ran assigns
    exact ⟨_, filled.owned, task.1.part (by simp [Term.parts]),
      inner.mono fun _ _ => evaluated.extends follows.owned⟩
  | condition => exact ⟨owners, owned, task.1.part (by simp [Term.parts]), task.2⟩
  | consequent holds =>
    obtain ⟨later, owned', kept⟩ := evaluated_owned orderly (task.1.part (by simp [Term.parts]))
      owned task.2 holds
    exact ⟨later, owned', task.1.part (by simp [Term.parts]), kept⟩
  | alternative fails =>
    obtain ⟨later, owned', kept⟩ := evaluated_owned orderly (task.1.part (by simp [Term.parts]))
      owned task.2 fails
    exact ⟨later, owned', task.1.part (by simp [Term.parts]), kept⟩
  | printed => exact ⟨owners, owned, task.1.part (by simp [Term.parts]), task.2⟩
  | callee => exact ⟨owners, owned, task.1.part (by simp [Term.parts]), task.2⟩
  | argument evaluates evaluatesAll =>
    obtain ⟨later, owned', kept, -⟩ := called_owned orderly task.1
      (fun _ member => List.mem_append_left _ member) owned task.2 evaluates evaluatesAll
    exact ⟨later, owned', task.1.part (by simp [Term.parts]), kept⟩
  | call evaluates evaluatesAll =>
    obtain ⟨later, owned', -, isOf⟩ := called_owned orderly task.1 (fun _ member => member) owned
      task.2 evaluates evaluatesAll
    exact ⟨later, owned', isOf⟩
  | @body _ _ parameters _ scope values _ _ _ binds =>
    obtain ⟨name, -, _, _, _, same, bound, ownedScope⟩ := task
    cases same
    have bindsAll : Run.Steady program false owners _ (bindAll parameters values scope) _ :=
      bindAll_steady (orderly.parameter _ _ bound.contains_function) _ owned ownedScope
    obtain ⟨later, follows, inner⟩ := bindsAll.of_ran binds
    exact ⟨later, follows.owned, bound.contains_body, inner⟩
  | lhs => exact ⟨owners, owned, task.1.part (by simp [Term.parts]), task.2⟩
  | rhs evaluates =>
    obtain ⟨later, owned', kept⟩ := evaluated_owned orderly (task.1.part (by simp [Term.parts]))
      owned task.2 evaluates
    exact ⟨later, owned', task.1.part (by simp [Term.parts]), kept⟩
  | left => exact ⟨owners, owned, task.1.part (by simp [Term.parts]), task.2⟩
  | right evaluates =>
    obtain ⟨later, owned', kept⟩ := evaluated_owned orderly (task.1.part (by simp [Term.parts]))
      owned task.2 evaluates
    exact ⟨later, owned', task.1.part (by simp [Term.parts]), kept⟩
  | first => exact ⟨owners, owned, task.1.part (by simp [Term.parts]), task.2⟩
  | second => exact ⟨owners, owned, task.1.part (by simp [Term.parts]), task.2⟩

/-- Every moment of a run belongs to the program that is run. -/
theorem Moment.Occurs.belongs (orderly : program.Orderly silent) {depth : Nat} {moment : Moment}
    (occurs : moment.Occurs dialect depth program) : moment.Belongs program := by
  induction occurs with
  | refl =>
    exact ⟨fun _ => none, ⟨by simp, by simp⟩, Relation.ReflTransGen.refl, by simp [Scope.Owned]⟩
  | tail _ leads inductionHypothesis => exact leads.belongs orderly inductionHypothesis

/-- A call of a closure of a silent function prints nothing. -/
theorem invoke_silent (orderly : program.Orderly silent) {name : String} {function : Value}
    (owned : world.Owned program owners) (isOf : Value.IsOf program owners name function)
    (isSilent : silent name) (depth : Nat) (values : List Value) :
    (invoke dialect depth function values world).2.output = world.output := by
  obtain ⟨later, follows, -⟩ :=
    invoke_steady orderly true depth owned isOf (fun _ => isSilent) values
  exact follows.output_eq rfl

end Moments

end Evaluation

end TreeScript
