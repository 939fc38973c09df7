/-
This file holds the language that is compiled: thirteen kinds of terms and
thirteen binary operators. A term is a plain tree; names are kept as written,
integers are 64-bit words, and a program is one term together with the name of
the file it was written in. Kinds and operators have fixed names, and a kind
also has a position in the list of all kinds.
-/

namespace TreeScript

/-! ### Operators -/

/-- The operators of a binary term. -/
inductive BinaryOp where
  | add | sub | mul | div | rem | eq | neq | lt | gt | lte | gte | and | or
deriving DecidableEq, Repr

namespace BinaryOp

def all : List BinaryOp :=
  [add, sub, mul, div, rem, eq, neq, lt, gt, lte, gte, and, or]

def name : BinaryOp → String
  | add => "Add"
  | sub => "Sub"
  | mul => "Mul"
  | div => "Div"
  | rem => "Rem"
  | eq => "Eq"
  | neq => "Neq"
  | lt => "Lt"
  | gt => "Gt"
  | lte => "Lte"
  | gte => "Gte"
  | and => "And"
  | or => "Or"

/-- The operator of a given name; names are matched exactly. -/
def ofName? (text : String) : Option BinaryOp :=
  all.find? fun op => op.name == text

/-- What is said about a text that names no operator. -/
def unsupported (text : String) : String :=
  s!"unsupported binary operator `{text}`"

theorem mem_all (op : BinaryOp) : op ∈ all := by
  cases op <;> decide

theorem ofName?_name (op : BinaryOp) : ofName? op.name = some op := by
  cases op <;> decide

end BinaryOp

/-! ### Kinds -/

/-- The kinds of terms. -/
inductive Kind where
  | letIn | function | ifElse | print | call | var | int | str | bool | binary | tuple
  | first | second
deriving DecidableEq, Repr

namespace Kind

/-- Every kind, in the order in which kinds are numbered. -/
def all : List Kind :=
  [letIn, function, ifElse, print, call, var, int, str, bool, binary, tuple, first, second]

def name : Kind → String
  | letIn => "Let"
  | function => "Function"
  | ifElse => "If"
  | print => "Print"
  | call => "Call"
  | var => "Var"
  | int => "Int"
  | str => "Str"
  | bool => "Bool"
  | binary => "Binary"
  | tuple => "Tuple"
  | first => "First"
  | second => "Second"

def ofName? (text : String) : Option Kind :=
  all.find? fun kind => kind.name == text

/-- The kind at a position of `all`. -/
def ofIndex? (index : Nat) : Option Kind :=
  all[index]?

theorem mem_all (kind : Kind) : kind ∈ all := by
  cases kind <;> decide

theorem ofName?_name (kind : Kind) : ofName? kind.name = some kind := by
  cases kind <;> decide

end Kind

/-! ### Terms -/

/-- A term of the language. The value of a `letIn` is bound to its name in its `next`. -/
inductive Term where
  | letIn (name : String) (value next : Term)
  | function (parameters : List String) (body : Term)
  | ifElse (condition consequent alternative : Term)
  | print (value : Term)
  | call (callee : Term) (arguments : List Term)
  | var (name : String)
  | int (value : Int64)
  | str (value : String)
  | bool (value : Bool)
  | binary (op : BinaryOp) (lhs rhs : Term)
  | tuple (first second : Term)
  | first (value : Term)
  | second (value : Term)
deriving Repr, Inhabited

namespace Term

def kind : Term → Kind
  | letIn .. => .letIn
  | function .. => .function
  | ifElse .. => .ifElse
  | print _ => .print
  | call .. => .call
  | var _ => .var
  | int _ => .int
  | str _ => .str
  | bool _ => .bool
  | binary .. => .binary
  | tuple .. => .tuple
  | first _ => .first
  | second _ => .second

mutual

/-- The number of terms in a term, itself included. -/
def size : Term → Nat
  | letIn _ value next => value.size + next.size + 1
  | function _ body => body.size + 1
  | ifElse condition consequent alternative =>
    condition.size + consequent.size + alternative.size + 1
  | print value => value.size + 1
  | call callee arguments => callee.size + sizeList arguments + 1
  | var _ => 1
  | int _ => 1
  | str _ => 1
  | bool _ => 1
  | binary _ lhs rhs => lhs.size + rhs.size + 1
  | tuple left right => left.size + right.size + 1
  | first value => value.size + 1
  | second value => value.size + 1

def sizeList : List Term → Nat
  | [] => 0
  | term :: terms => term.size + sizeList terms

end

end Term

/-- A program: one term, and the name of the file that it was written in. -/
structure Program where
  name : String := ""
  expression : Term
deriving Repr, Inhabited

end TreeScript
