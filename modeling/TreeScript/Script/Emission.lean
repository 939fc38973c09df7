/-
This file emits the script of a tree. A term is emitted as a statement or as an
expression. A chain of bindings is a statement of nested blocks; where a value
is needed it runs in a function of its own. A conditional calls a helper with
functions for its condition and its branches, so that it can stand wherever an
expression can. What a function, a branch or such a chain ends in is returned.
Calls of functions that are known to be pure go through the memo helper.
-/

import TreeScript.Analysis.Purity
import TreeScript.Script.Identifier
import TreeScript.Script.Tail

namespace TreeScript.Script

structure Options where
  linkage : Linkage := .inline
  memoize : Bool := true
deriving DecidableEq, Repr

/-- What emission changes: the positions recorded as returned and the number of memoized calls. -/
structure Progress where
  tails : TailPositions := {}
  memoizedCalls : Nat := 0
deriving DecidableEq, Repr

abbrev Emission := StateT Progress (Except MissingTerm)

/-- What emission looks at. -/
structure Context where
  tree : TermTree
  purity : PurityTable
  memoize : Bool

/-- Whether a term is emitted as a statement or as an expression. -/
inductive Place where
  | statement | expression
deriving DecidableEq, Repr

/-- The text of an operator between its operands; division is emitted in its own way. -/
def operatorText : BinaryOp → String
  | .add => "+"
  | .sub => "-"
  | .mul => "*"
  | .div => "/"
  | .rem => "%"
  | .eq => "==="
  | .neq => "!=="
  | .lt => "<"
  | .gt => ">"
  | .lte => "<="
  | .gte => ">="
  | .and => "&&"
  | .or => "||"

/-! ### The texts of the constructs -/

def blockText (name value next : String) : String :=
  "\x7blet " ++ name ++ " = " ++ value ++ "; " ++ next ++ "\x7d"

def thunkText (body : String) : String :=
  "() => \x7b" ++ body ++ "\x7d"

def functionText (parameters : List String) (body : String) : String :=
  "(" ++ ", ".intercalate parameters ++ ") => \x7b" ++ body ++ "\x7d"

def callText (function : String) (arguments : List String) : String :=
  function ++ "(" ++ ", ".intercalate arguments ++ ")"

def conditionalText (condition consequent alternative : String) : String :=
  callText Helper.executeIf.qualified
    ["() => " ++ condition, thunkText consequent, thunkText alternative]

/-- Division goes toward zero. -/
def binaryText (op : BinaryOp) (lhs rhs : String) : String :=
  match op with
  | .div => "Math.trunc(" ++ lhs ++ " / " ++ rhs ++ ")"
  | op => "(" ++ lhs ++ " " ++ operatorText op ++ " " ++ rhs ++ ")"

def statementText (returns : Bool) (expression : String) : String :=
  if returns then "return " ++ expression ++ ";" else expression ++ ";"

/-! ### Emission -/

namespace Context

def node (context : Context) (id : TermId) : Emission Node :=
  match context.tree.get? id with
  | some node => return node
  | none => throw ⟨id, .emission⟩

/-- Records the tail of a term as returned. -/
def tag (context : Context) (id : TermId) : Emission Unit := do
  let progress ← get
  let (_, tails) ← progress.tails.tag context.tree id
  set { progress with tails }

/-- A binding and what follows it. -/
def block (emit : Place → TermId → Emission String) (name : String) (value next : TermId) :
    Emission String := do
  let value ← emit .expression value
  let next ← emit .statement next
  return blockText (identifier name) value next

/-- A call; arguments are emitted before the callee. -/
def call (context : Context) (emit : Place → TermId → Emission String) (callee : TermId)
    (arguments : List TermId) : Emission String := do
  let arguments ← arguments.mapM (emit .expression)
  match ← context.node callee with
  | .var name =>
    if context.memoize && context.purity.isPure name then
      modify fun progress => { progress with memoizedCalls := progress.memoizedCalls + 1 }
      return callText Helper.memoize.qualified (identifier name :: literal name :: arguments)
    else return callText (identifier name) arguments
  | _ =>
    let function ← emit .expression callee
    return callText ("(" ++ function ++ ")") arguments

/-- A node as an expression, with `emit` for its parts. -/
def expression (context : Context) (emit : Place → TermId → Emission String) (id : TermId) :
    Node → Emission String
  | .letIn name value next => do
    context.tag id
    let body ← block emit name value next
    return "(() => " ++ body ++ ")()"
  | .function parameters body => do
    context.tag body
    let body ← emit .statement body
    return functionText (parameters.map identifier) body
  | .ifElse condition consequent alternative => do
    context.tag consequent
    context.tag alternative
    let condition ← emit .expression condition
    let consequent ← emit .statement consequent
    let alternative ← emit .statement alternative
    return conditionalText condition consequent alternative
  | .print value => do return callText Helper.print.qualified [← emit .expression value]
  | .call callee arguments => context.call emit callee arguments
  | .var name => return identifier name
  | .int value => return toString value.toInt
  | .str value => return literal value
  | .bool value => return toString value
  | .binary op lhs rhs => do
    let lhs ← emit .expression lhs
    let rhs ← emit .expression rhs
    return binaryText op lhs rhs
  | .tuple left right => do
    let left ← emit .expression left
    let right ← emit .expression right
    return "[" ++ left ++ ", " ++ right ++ "]"
  | .first value => do return "(" ++ (← emit .expression value) ++ ")[0]"
  | .second value => do return "(" ++ (← emit .expression value) ++ ")[1]"

/-- Emits the term at an id, for at most the given depth. -/
def emit (context : Context) : Nat → Place → TermId → Emission String
  | 0, _, id => throw ⟨id, .emission⟩
  | depth + 1, place, id => do
    let node ← context.node id
    match place, node with
    | .statement, .letIn name value next => block (context.emit depth) name value next
    | .statement, node =>
      let text ← context.expression (context.emit depth) id node
      return statementText ((← get).tails.isReturning id) text
    | .expression, node => context.expression (context.emit depth) id node

end Context

/-- An emitted script and the number of its memoized calls. -/
structure Module where
  source : String
  memoizedCalls : Nat
deriving DecidableEq, Repr

/-- The script of a tree: the prologue and the program on a line of its own. Nothing is returned
from the program itself. -/
def emitTree (tree : TermTree) (purity : PurityTable) (options : Options) :
    Except MissingTerm Module := do
  let context : Context := ⟨tree, purity, options.memoize⟩
  let (program, progress) ← (context.emit (tree.size + 1) .statement tree.root).run {}
  return ⟨options.linkage.prologue ++ program ++ "\n", progress.memoizedCalls⟩

end TreeScript.Script
