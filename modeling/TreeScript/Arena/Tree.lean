/-
This file lays terms out in an arena. Every term gets a number, its id, in the
order of a walk that visits a term before its parts, and a node of the arena
refers to the parts of its term by their ids. A tree is an arena with one id
marked as the root; nodes that are no longer linked from the root stay in it.
-/

import TreeScript.Term

namespace TreeScript

abbrev TermId := Nat

/-- A term whose parts are given by their ids. -/
inductive Node where
  | letIn (name : String) (value next : TermId)
  | function (parameters : List String) (body : TermId)
  | ifElse (condition consequent alternative : TermId)
  | print (value : TermId)
  | call (callee : TermId) (arguments : List TermId)
  | var (name : String)
  | int (value : Int64)
  | str (value : String)
  | bool (value : Bool)
  | binary (op : BinaryOp) (lhs rhs : TermId)
  | tuple (first second : TermId)
  | first (value : TermId)
  | second (value : TermId)
deriving DecidableEq, Repr

namespace Node

def kind : Node → Kind
  | letIn .. => .letIn
  | function .. => .function
  | ifElse .. => .ifElse
  | print _ => .print
  | call .. => .call
  | var _ => .var
  | int _ => .int
  | str _ => .str
  | bool _ => .bool
  | binary .. => .binary
  | tuple .. => .tuple
  | first _ => .first
  | second _ => .second

/-- The parts of a node in the order in which they are evaluated. -/
def children : Node → List TermId
  | letIn _ value next => [value, next]
  | function _ body => [body]
  | ifElse condition consequent alternative => [condition, consequent, alternative]
  | print value => [value]
  | call callee arguments => callee :: arguments
  | var _ => []
  | int _ => []
  | str _ => []
  | bool _ => []
  | binary _ lhs rhs => [lhs, rhs]
  | tuple left right => [left, right]
  | first value => [value]
  | second value => [value]

/-- The node with other parts, which come in the order of `children`. Nothing changes if their
number is not the same. -/
def withChildren : Node → List TermId → Node
  | letIn name _ _, [value, next] => letIn name value next
  | function parameters _, [body] => function parameters body
  | ifElse _ _ _, [condition, consequent, alternative] =>
    ifElse condition consequent alternative
  | print _, [value] => print value
  | call callee arguments, newCallee :: newArguments =>
    if newArguments.length = arguments.length then call newCallee newArguments
    else call callee arguments
  | binary op _ _, [lhs, rhs] => binary op lhs rhs
  | tuple _ _, [left, right] => tuple left right
  | first _, [value] => first value
  | second _, [value] => second value
  | node, _ => node

@[simp]
theorem withChildren_children (node : Node) : node.withChildren node.children = node := by
  cases node <;> simp [withChildren, children]

end Node

/-- An arena of nodes with a root, which may be any id. -/
structure TermTree where
  nodes : Array Node
  root : TermId
deriving DecidableEq, Repr

namespace TermTree

/-! ### Laying out a term -/

mutual

/-- The nodes of a term in the order of their ids, of which `start` is the first. -/
def layOut (start : TermId) : Term → List Node
  | .letIn name value next =>
    let valueNodes := layOut (start + 1) value
    let nextId := start + 1 + valueNodes.length
    .letIn name (start + 1) nextId :: (valueNodes ++ layOut nextId next)
  | .function parameters body => .function parameters (start + 1) :: layOut (start + 1) body
  | .ifElse condition consequent alternative =>
    let conditionNodes := layOut (start + 1) condition
    let consequentId := start + 1 + conditionNodes.length
    let consequentNodes := layOut consequentId consequent
    let alternativeId := consequentId + consequentNodes.length
    .ifElse (start + 1) consequentId alternativeId ::
      (conditionNodes ++ (consequentNodes ++ layOut alternativeId alternative))
  | .print value => .print (start + 1) :: layOut (start + 1) value
  | .call callee arguments =>
    let calleeNodes := layOut (start + 1) callee
    let (ids, argumentNodes) := layOutList (start + 1 + calleeNodes.length) arguments
    .call (start + 1) ids :: (calleeNodes ++ argumentNodes)
  | .var name => [.var name]
  | .int value => [.int value]
  | .str value => [.str value]
  | .bool value => [.bool value]
  | .binary op lhs rhs =>
    let lhsNodes := layOut (start + 1) lhs
    let rhsId := start + 1 + lhsNodes.length
    .binary op (start + 1) rhsId :: (lhsNodes ++ layOut rhsId rhs)
  | .tuple left right =>
    let leftNodes := layOut (start + 1) left
    let rightId := start + 1 + leftNodes.length
    .tuple (start + 1) rightId :: (leftNodes ++ layOut rightId right)
  | .first value => .first (start + 1) :: layOut (start + 1) value
  | .second value => .second (start + 1) :: layOut (start + 1) value

/-- The ids of terms that are laid out one after the other, and all their nodes. -/
def layOutList (start : TermId) : List Term → List TermId × List Node
  | [] => ([], [])
  | term :: terms =>
    let nodes := layOut start term
    let (ids, others) := layOutList (start + nodes.length) terms
    (start :: ids, nodes ++ others)

end

/-- The arena of a term, with the term itself as the root. -/
def ofTerm (term : Term) : TermTree :=
  ⟨(layOut 0 term).toArray, 0⟩

/-! ### Looking at a tree -/

/-- The number of nodes in the arena, linked or not. -/
def size (tree : TermTree) : Nat :=
  tree.nodes.size

def isEmpty (tree : TermTree) : Bool :=
  tree.nodes.isEmpty

def get? (tree : TermTree) (id : TermId) : Option Node :=
  tree.nodes[id]?

/-- The parts of the node at an id; a missing node has none. -/
def children (tree : TermTree) (id : TermId) : List TermId :=
  match tree.get? id with
  | some node => node.children
  | none => []

/-- The name that a binding introduces. -/
def letName? (tree : TermTree) (id : TermId) : Option String :=
  match tree.get? id with
  | some (.letIn name _ _) => some name
  | _ => none

/-- Visits the ids on a stack, each before its parts, for at most the given number of visits. -/
def walk (tree : TermTree) : Nat → List TermId → List TermId
  | 0, _ => []
  | _ + 1, [] => []
  | visits + 1, id :: stack => id :: tree.walk visits (tree.children id ++ stack)

/-- The ids that are linked from the root, each before its parts. No id is linked twice, so one
visit for each node, and one for a missing root, are enough. -/
def reachable (tree : TermTree) : List TermId :=
  tree.walk (tree.size + 1) [tree.root]

/-- The term at an id, for at most the given depth. -/
def readBack (tree : TermTree) : Nat → TermId → Option Term
  | 0, _ => none
  | depth + 1, id => do
    match ← tree.get? id with
    | .letIn name value next =>
      return .letIn name (← tree.readBack depth value) (← tree.readBack depth next)
    | .function parameters body => return .function parameters (← tree.readBack depth body)
    | .ifElse condition consequent alternative =>
      return .ifElse (← tree.readBack depth condition) (← tree.readBack depth consequent)
        (← tree.readBack depth alternative)
    | .print value => return .print (← tree.readBack depth value)
    | .call callee arguments =>
      return .call (← tree.readBack depth callee) (← arguments.mapM (tree.readBack depth))
    | .var name => return .var name
    | .int value => return .int value
    | .str value => return .str value
    | .bool value => return .bool value
    | .binary op lhs rhs =>
      return .binary op (← tree.readBack depth lhs) (← tree.readBack depth rhs)
    | .tuple left right =>
      return .tuple (← tree.readBack depth left) (← tree.readBack depth right)
    | .first value => return .first (← tree.readBack depth value)
    | .second value => return .second (← tree.readBack depth value)

/-- The term at the root. -/
def term? (tree : TermTree) : Option Term :=
  tree.readBack (tree.size + 1) tree.root

end TermTree

end TreeScript
