/-
This file gives terms a meaning. Evaluation is call by value and goes from left to
right; a conditional evaluates one branch only, and a print appends the text of
its value to the output and answers the value. Whatever does not fit, such as a
call of a number or a tuple in place of a condition, is an error.

Scope is lexical. A binding is a cell, its name stands for that cell in the value
as well as in what follows, and the cell is filled once the value is known, so a
bound function finds itself. Two things are left to a dialect: what the operators
do with plain data, and whether a name that is read while its own binding is still
empty is an error or refers to the next binding outward. What is proved about
evaluation holds in every dialect.

Terms are followed structurally. Only calls can go on for ever, so only the depth
of calls within calls is bounded.
-/

import TreeScript.Term

namespace TreeScript

namespace Evaluation

/-! ### Values -/

/-- Data that operators work on. -/
inductive Scalar where
  | int (value : Int)
  | str (value : String)
  | bool (value : Bool)
deriving DecidableEq, Repr

def Scalar.text : Scalar → String
  | int value => toString value
  | str value => value
  | bool value => toString value

/-- The cells that names stand for, innermost first. -/
abbrev Scope := List (String × Nat)

/-- What a term evaluates to. A closure keeps the scope of its function. -/
inductive Value where
  | scalar (value : Scalar)
  | tuple (first second : Value)
  | closure (parameters : List String) (body : Term) (scope : Scope)

namespace Value

/-- What a print of the value appends to the output. -/
def text : Value → String
  | scalar value => value.text
  | tuple left right => "(" ++ left.text ++ ", " ++ right.text ++ ")"
  | closure .. => "<#closure>"

def hasClosure : Value → Bool
  | scalar _ => false
  | tuple left right => left.hasClosure || right.hasClosure
  | closure .. => true

end Value

/-! ### Runs -/

/-- Why an evaluation stops without a value. -/
inductive Failure where
  | unbound (name : String)
  | empty (name : String)
  | notABool
  | notATuple
  | notAFunction
  | argumentCount
  | operands (op : BinaryOp)
  | tooDeep
deriving DecidableEq, Repr

/-- The cells allocated so far, those without a value included, and the output in order. -/
structure World where
  cells : List (Option Value)
  output : List String

/-- The value in a cell. -/
def World.value? (world : World) (cell : Nat) : Option Value :=
  world.cells[cell]?.join

/-- A computation in a world. The world it leaves stands after a failure too. -/
def Run (α : Type) : Type :=
  World → Except Failure α × World

namespace Run

def fail {α : Type} (failure : Failure) : Run α :=
  fun world => (.error failure, world)

/-- Runs one computation and then, if it gives a result, another one. -/
def andThen {α β : Type} (run : Run α) (next : α → Run β) : Run β :=
  fun world =>
    match run world with
    | (.ok result, later) => next result later
    | (.error failure, later) => (.error failure, later)

instance : Monad Run where
  pure result world := (.ok result, world)
  bind := andThen

/-- A new cell without a value. -/
def allocate : Run Nat :=
  fun world => (.ok world.cells.length, { world with cells := world.cells ++ [none] })

/-- Fills a cell. -/
def assign (cell : Nat) (value : Value) : Run Unit :=
  fun world => (.ok (), { world with cells := world.cells.set cell (some value) })

def write (text : String) : Run Unit :=
  fun world => (.ok (), { world with output := world.output ++ [text] })

/-- The value in a cell, if it has one. -/
def look (cell : Nat) : Run (Option Value) :=
  fun world => (.ok (world.value? cell), world)

end Run

open Run

/-! ### Evaluation -/

/-- What is left open by the language. An operator may decide on its left operand alone, and then
the right one is not evaluated. -/
structure Dialect where
  decides : BinaryOp → Scalar → Option Scalar
  combine : BinaryOp → Scalar → Scalar → Option Scalar
  looksOutward : Bool

namespace Dialect

/-- Reads a name in a scope. -/
def read (dialect : Dialect) (name : String) : Scope → Run Value
  | [] => fail (.unbound name)
  | (bound, cell) :: scope =>
    if bound = name then do
      match ← look cell with
      | some value => pure value
      | none => if dialect.looksOutward then dialect.read name scope else fail (.empty name)
    else dialect.read name scope

end Dialect

/-- The data of an operand. -/
def operand (op : BinaryOp) : Value → Run Scalar
  | .scalar value => pure value
  | _ => fail (.operands op)

/-- Binds parameters to values in new cells, a later parameter inside an earlier one. -/
def bindAll : List String → List Value → Scope → Run Scope
  | [], [], scope => pure scope
  | name :: names, value :: values, scope => do
    let cell ← allocate
    assign cell value
    bindAll names values ((name, cell) :: scope)
  | _, _, _ => fail .argumentCount

mutual

/-- The value of a term in a scope, where calls are made by `invoke`. -/
def evaluate (dialect : Dialect) (invoke : Value → List Value → Run Value) :
    Scope → Term → Run Value
  | scope, .letIn name value next => do
    let cell ← allocate
    let result ← evaluate dialect invoke ((name, cell) :: scope) value
    assign cell result
    evaluate dialect invoke ((name, cell) :: scope) next
  | scope, .function parameters body => pure (.closure parameters body scope)
  | scope, .ifElse condition consequent alternative => do
    match ← evaluate dialect invoke scope condition with
    | .scalar (.bool true) => evaluate dialect invoke scope consequent
    | .scalar (.bool false) => evaluate dialect invoke scope alternative
    | _ => fail .notABool
  | scope, .print value => do
    let result ← evaluate dialect invoke scope value
    write result.text
    pure result
  | scope, .call callee arguments => do
    let function ← evaluate dialect invoke scope callee
    let values ← evaluateAll dialect invoke scope arguments
    invoke function values
  | scope, .var name => dialect.read name scope
  | _, .int value => pure (.scalar (.int value.toInt))
  | _, .str value => pure (.scalar (.str value))
  | _, .bool value => pure (.scalar (.bool value))
  | scope, .binary op lhs rhs => do
    let left ← operand op (← evaluate dialect invoke scope lhs)
    match dialect.decides op left with
    | some result => pure (.scalar result)
    | none =>
      let right ← operand op (← evaluate dialect invoke scope rhs)
      match dialect.combine op left right with
      | some result => pure (.scalar result)
      | none => fail (.operands op)
  | scope, .tuple left right => do
    let first ← evaluate dialect invoke scope left
    let second ← evaluate dialect invoke scope right
    pure (.tuple first second)
  | scope, .first value => do
    match ← evaluate dialect invoke scope value with
    | .tuple first _ => pure first
    | _ => fail .notATuple
  | scope, .second value => do
    match ← evaluate dialect invoke scope value with
    | .tuple _ second => pure second
    | _ => fail .notATuple

/-- The values of several terms, from left to right. -/
def evaluateAll (dialect : Dialect) (invoke : Value → List Value → Run Value) :
    Scope → List Term → Run (List Value)
  | _, [] => pure []
  | scope, term :: terms => do
    let value ← evaluate dialect invoke scope term
    let values ← evaluateAll dialect invoke scope terms
    pure (value :: values)

end

/-- Calls a value with arguments, for at most the given depth of calls within calls. -/
def invoke (dialect : Dialect) : Nat → Value → List Value → Run Value
  | 0, _, _ => fail .tooDeep
  | depth + 1, .closure parameters body scope, values => do
    let inner ← bindAll parameters values scope
    evaluate dialect (invoke dialect depth) inner body
  | _ + 1, _, _ => fail .notAFunction

end Evaluation

open Evaluation

namespace Term

/-- Evaluates a program from nothing. -/
def run (dialect : Dialect) (depth : Nat) (term : Term) : Except Failure Value × World :=
  evaluate dialect (invoke dialect depth) [] term ⟨[], []⟩

/-- Whether a print or a call stands outside all functions. -/
def mayHaveEffect : Term → Bool
  | letIn _ value next => value.mayHaveEffect || next.mayHaveEffect
  | function .. => false
  | ifElse condition consequent alternative =>
    condition.mayHaveEffect || consequent.mayHaveEffect || alternative.mayHaveEffect
  | print _ => true
  | call .. => true
  | var _ => false
  | int _ => false
  | str _ => false
  | bool _ => false
  | binary _ lhs rhs => lhs.mayHaveEffect || rhs.mayHaveEffect
  | tuple left right => left.mayHaveEffect || right.mayHaveEffect
  | first value => value.mayHaveEffect
  | second value => value.mayHaveEffect

end Term

/-! ### What a run leaves alone -/

namespace Evaluation

/-- The second world comes after the first one: its cells below a bound have kept their values and
its output has only grown, or not changed at all in a quiet run. -/
structure World.Keeps (bound : Nat) (quiet : Bool) (before after : World) : Prop where
  length_le : before.cells.length ≤ after.cells.length
  value?_eq : ∀ cell < bound, after.value? cell = before.value? cell
  output_grows : before.output.Sublist after.output
  output_eq : quiet = true → after.output = before.output

/-- Whatever a run does to a world in which the cells below the bound are allocated, the world keeps
them. -/
def Run.Keeps {α : Type} (bound : Nat) (quiet : Bool) (run : Run α) : Prop :=
  ∀ world : World, bound ≤ world.cells.length → world.Keeps bound quiet (run world).2

namespace World

variable {bound : Nat} {quiet : Bool} {before between after : World}

theorem Keeps.refl (world : World) : world.Keeps bound quiet world :=
  ⟨Nat.le_refl _, fun _ _ => rfl, List.Sublist.refl _, fun _ => rfl⟩

theorem Keeps.trans (early : before.Keeps bound quiet between)
    (late : between.Keeps bound quiet after) : before.Keeps bound quiet after where
  length_le := Nat.le_trans early.length_le late.length_le
  value?_eq cell below := (late.value?_eq cell below).trans (early.value?_eq cell below)
  output_grows := early.output_grows.trans late.output_grows
  output_eq isQuiet := (late.output_eq isQuiet).trans (early.output_eq isQuiet)

theorem value?_append {world : World} {cell : Nat} {output : List String}
    (allocated : cell < world.cells.length) (value : Option Value) :
    World.value? ⟨world.cells ++ [value], output⟩ cell = world.value? cell := by
  rw [value?, value?, List.getElem?_append_left allocated]

theorem value?_set_ne {world : World} {cell other : Nat} {output : List String}
    (apart : other ≠ cell) (value : Option Value) :
    World.value? ⟨world.cells.set other value, output⟩ cell = world.value? cell := by
  rw [value?, value?, List.getElem?_set_ne apart]

theorem value?_set_self {world : World} {cell : Nat} {output : List String}
    (allocated : cell < world.cells.length) (value : Option Value) :
    World.value? ⟨world.cells.set cell value, output⟩ cell = value := by
  rw [value?, List.getElem?_set_self allocated, Option.join_some]

end World

namespace Run

variable {α β : Type} {bound cell : Nat} {quiet : Bool}

theorem keeps_pure (result : α) : Keeps bound quiet (pure result) :=
  fun world _ => .refl world

theorem keeps_fail (failure : Failure) : Keeps bound quiet (fail failure : Run α) :=
  fun world _ => .refl world

theorem keeps_look : Keeps bound quiet (look cell) :=
  fun world _ => .refl world

theorem keeps_bind {run : Run α} {next : α → Run β} (first : Keeps bound quiet run)
    (rest : ∀ result, Keeps bound quiet (next result)) : Keeps bound quiet (run >>= next) := by
  intro world allocated
  have early := first world allocated
  show world.Keeps bound quiet (andThen run next world).2
  rw [andThen]
  rcases ran : run world with ⟨_ | result, later⟩ <;> rw [ran] at early
  · exact early
  · exact early.trans (rest result later (Nat.le_trans allocated early.length_le))

/-- A new cell is above the bound. -/
theorem keeps_allocate {next : Nat → Run β}
    (rest : ∀ cell, bound ≤ cell → Keeps bound quiet (next cell)) :
    Keeps bound quiet (allocate >>= next) := by
  intro world allocated
  have fresh : world.Keeps bound quiet { world with cells := world.cells ++ [none] } :=
    { length_le := by simp
      value?_eq := fun cell below => World.value?_append (Nat.lt_of_lt_of_le below allocated) none
      output_grows := List.Sublist.refl _
      output_eq := fun _ => rfl }
  exact fresh.trans (rest _ allocated _ (Nat.le_trans allocated fresh.length_le))

theorem keeps_assign (above : bound ≤ cell) (value : Value) :
    Keeps bound quiet (assign cell value) := fun world _ =>
  { length_le := by simp [assign]
    value?_eq := fun other below =>
      World.value?_set_ne (Nat.ne_of_gt (Nat.lt_of_lt_of_le below above)) _
    output_grows := List.Sublist.refl _
    output_eq := fun _ => rfl }

theorem keeps_write (text : String) : Keeps bound false (write text) := fun world _ =>
  { length_le := Nat.le_refl _
    value?_eq := fun _ _ => rfl
    output_grows := List.sublist_append_left _ _
    output_eq := by simp }

end Run

section Keeps

open Run

variable {dialect : Dialect} {bound : Nat} {quiet : Bool}

theorem read_keeps (name : String) (scope : Scope) :
    Run.Keeps bound quiet (dialect.read name scope) := by
  induction scope with
  | nil => exact keeps_fail _
  | cons entry scope inductionHypothesis =>
    rw [Dialect.read]
    split
    · refine keeps_bind keeps_look fun value? => ?_
      cases value? with
      | some value => exact keeps_pure _
      | none => exact iteInduction (fun _ => inductionHypothesis) fun _ => keeps_fail _
    · exact inductionHypothesis

theorem operand_keeps (op : BinaryOp) (value : Value) :
    Run.Keeps bound quiet (operand op value) := by
  cases value with
  | scalar => exact keeps_pure _
  | tuple => exact keeps_fail _
  | closure => exact keeps_fail _

theorem bindAll_keeps (names : List String) (values : List Value) (scope : Scope) :
    Run.Keeps bound quiet (bindAll names values scope) := by
  induction names generalizing values scope with
  | nil =>
    cases values with
    | nil => exact keeps_pure _
    | cons => exact keeps_fail _
  | cons name names inductionHypothesis =>
    cases values with
    | nil => exact keeps_fail _
    | cons value values =>
      exact keeps_allocate fun cell above =>
        keeps_bind (keeps_assign above value) fun _ => inductionHypothesis values _

mutual

/-- Evaluation fills the cells that it allocates and no others, and it is quiet where nothing
outside functions prints or calls. -/
theorem evaluate_keeps {quiet : Bool} {invoke : Value → List Value → Run Value}
    (invokes : ∀ function values, Run.Keeps bound false (invoke function values)) (term : Term)
    (harmless : quiet = true → term.mayHaveEffect = false) (scope : Scope) :
    Run.Keeps bound quiet (evaluate dialect invoke scope term) :=
  match term with
  | .letIn name value next => by
    have both : quiet = true → value.mayHaveEffect = false ∧ next.mayHaveEffect = false :=
      fun isQuiet => Bool.or_eq_false_iff.mp (harmless isQuiet)
    rw [evaluate]
    exact keeps_allocate fun cell above =>
      keeps_bind (evaluate_keeps invokes value (fun isQuiet => (both isQuiet).1) _) fun result =>
        keeps_bind (keeps_assign above result) fun _ =>
          evaluate_keeps invokes next (fun isQuiet => (both isQuiet).2) _
  | .function .. => by
    rw [evaluate]
    exact keeps_pure _
  | .ifElse condition consequent alternative => by
    have all : quiet = true → (condition.mayHaveEffect = false ∧
        consequent.mayHaveEffect = false) ∧ alternative.mayHaveEffect = false := fun isQuiet => by
      rw [← Bool.or_eq_false_iff, ← Bool.or_eq_false_iff]
      exact harmless isQuiet
    rw [evaluate]
    refine keeps_bind (evaluate_keeps invokes condition (fun isQuiet => (all isQuiet).1.1) _)
      fun result => ?_
    split
    · exact evaluate_keeps invokes consequent (fun isQuiet => (all isQuiet).1.2) _
    · exact evaluate_keeps invokes alternative (fun isQuiet => (all isQuiet).2) _
    · exact keeps_fail _
  | .print value => by
    have loud : quiet = false := Bool.eq_false_iff.mpr fun isQuiet => by
      cases harmless isQuiet
    rw [loud, evaluate]
    exact keeps_bind (evaluate_keeps invokes value (by simp) _) fun result =>
      keeps_bind (keeps_write _) fun _ => keeps_pure _
  | .call callee arguments => by
    have loud : quiet = false := Bool.eq_false_iff.mpr fun isQuiet => by
      cases harmless isQuiet
    rw [loud, evaluate]
    exact keeps_bind (evaluate_keeps invokes callee (by simp) _) fun function =>
      keeps_bind (evaluateAll_keeps invokes arguments _) fun values => invokes function values
  | .var name => by
    rw [evaluate]
    exact read_keeps name scope
  | .int _ => by
    rw [evaluate]
    exact keeps_pure _
  | .str _ => by
    rw [evaluate]
    exact keeps_pure _
  | .bool _ => by
    rw [evaluate]
    exact keeps_pure _
  | .binary op lhs rhs => by
    have both : quiet = true → lhs.mayHaveEffect = false ∧ rhs.mayHaveEffect = false :=
      fun isQuiet => Bool.or_eq_false_iff.mp (harmless isQuiet)
    rw [evaluate]
    refine keeps_bind (evaluate_keeps invokes lhs (fun isQuiet => (both isQuiet).1) _)
      fun first => keeps_bind (operand_keeps op first) fun left => ?_
    split
    · exact keeps_pure _
    · refine keeps_bind (evaluate_keeps invokes rhs (fun isQuiet => (both isQuiet).2) _)
        fun second => keeps_bind (operand_keeps op second) fun right => ?_
      split
      · exact keeps_pure _
      · exact keeps_fail _
  | .tuple left right => by
    have both : quiet = true → left.mayHaveEffect = false ∧ right.mayHaveEffect = false :=
      fun isQuiet => Bool.or_eq_false_iff.mp (harmless isQuiet)
    rw [evaluate]
    exact keeps_bind (evaluate_keeps invokes left (fun isQuiet => (both isQuiet).1) _) fun _ =>
      keeps_bind (evaluate_keeps invokes right (fun isQuiet => (both isQuiet).2) _) fun _ =>
        keeps_pure _
  | .first value => by
    rw [evaluate]
    refine keeps_bind (evaluate_keeps invokes value harmless _) fun result => ?_
    split
    · exact keeps_pure _
    · exact keeps_fail _
  | .second value => by
    rw [evaluate]
    refine keeps_bind (evaluate_keeps invokes value harmless _) fun result => ?_
    split
    · exact keeps_pure _
    · exact keeps_fail _

theorem evaluateAll_keeps {invoke : Value → List Value → Run Value}
    (invokes : ∀ function values, Run.Keeps bound false (invoke function values))
    (terms : List Term) (scope : Scope) :
    Run.Keeps bound false (evaluateAll dialect invoke scope terms) :=
  match terms with
  | [] => by
    rw [evaluateAll]
    exact keeps_pure _
  | term :: terms => by
    rw [evaluateAll]
    exact keeps_bind (evaluate_keeps invokes term (by simp) _) fun _ =>
      keeps_bind (evaluateAll_keeps invokes terms _) fun _ => keeps_pure _

end

theorem invoke_keeps (depth : Nat) (function : Value) (values : List Value) :
    Run.Keeps bound false (invoke dialect depth function values) := by
  induction depth generalizing function values with
  | zero => exact keeps_fail _
  | succ depth inductionHypothesis =>
    cases function with
    | scalar => exact keeps_fail _
    | tuple => exact keeps_fail _
    | closure parameters body scope =>
      exact keeps_bind (bindAll_keeps parameters values scope) fun inner =>
        evaluate_keeps inductionHypothesis body (by simp) inner

end Keeps

/-! ### A dialect -/

namespace Dialect

/-- Whole numbers without bounds, sums that join text, equality within one type, and logical
operators that stop early. -/
def standard : Dialect where
  decides
    | .and, .bool false => some (.bool false)
    | .or, .bool true => some (.bool true)
    | _, _ => none
  combine
    | .add, .int a, .int b => some (.int (a + b))
    | .add, .str a, .str b => some (.str (a ++ b))
    | .add, .str a, .int b => some (.str (a ++ toString b))
    | .add, .int a, .str b => some (.str (toString a ++ b))
    | .sub, .int a, .int b => some (.int (a - b))
    | .mul, .int a, .int b => some (.int (a * b))
    | .div, .int a, .int b => if b = 0 then none else some (.int (a.tdiv b))
    | .rem, .int a, .int b => if b = 0 then none else some (.int (a.tmod b))
    | .eq, .int a, .int b => some (.bool (a = b))
    | .eq, .str a, .str b => some (.bool (a = b))
    | .eq, .bool a, .bool b => some (.bool (a = b))
    | .neq, .int a, .int b => some (.bool (a ≠ b))
    | .neq, .str a, .str b => some (.bool (a ≠ b))
    | .neq, .bool a, .bool b => some (.bool (a ≠ b))
    | .lt, .int a, .int b => some (.bool (a < b))
    | .gt, .int a, .int b => some (.bool (a > b))
    | .lte, .int a, .int b => some (.bool (a ≤ b))
    | .gte, .int a, .int b => some (.bool (a ≥ b))
    | .and, .bool true, .bool b => some (.bool b)
    | .or, .bool false, .bool b => some (.bool b)
    | _, _, _ => none
  looksOutward := false

end Dialect

end Evaluation

end TreeScript
