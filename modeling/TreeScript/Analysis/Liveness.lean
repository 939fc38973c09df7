/-
This file finds the names of bindings that nothing reads. A name is read when a
variable anywhere in the tree has it, whatever binding that variable refers to.
A binding is a candidate for removal unless what follows it is a print or a
call; the names of candidates that nothing reads are the dead ones.
-/

import TreeScript.Arena.Tree

namespace TreeScript

/-- The names that candidates bind and the names that variables read, in the order of the walk. -/
structure Liveness where
  candidates : List String
  referenced : List String
deriving DecidableEq, Repr

namespace Liveness

/-- Whether a binding followed by this node stays in any case. -/
def isGuard : Option Node → Bool
  | some (.print _) => true
  | some (.call ..) => true
  | _ => false

/-- The name bound at an id if the binding there is a candidate. -/
def candidate? (tree : TermTree) (id : TermId) : Option String :=
  match tree.get? id with
  | some (.letIn name _ next) => if isGuard (tree.get? next) then none else some name
  | _ => none

/-- The name read at an id. -/
def reference? (tree : TermTree) (id : TermId) : Option String :=
  match tree.get? id with
  | some (.var name) => some name
  | _ => none

def ofTree (tree : TermTree) : Liveness :=
  let ids := tree.reachable
  ⟨ids.filterMap (candidate? tree), ids.filterMap (reference? tree)⟩

/-- Whether some variable reads the name. -/
def isLive (liveness : Liveness) (name : String) : Bool :=
  liveness.referenced.contains name

/-- The names of candidates that nothing reads, each once. -/
def deadNames (liveness : Liveness) : List String :=
  (liveness.candidates.filter fun name => !liveness.isLive name).eraseDups

/-- The dead names in increasing order. -/
def sortedDeadNames (liveness : Liveness) : List String :=
  liveness.deadNames.mergeSort fun a b => !decide (b < a)

end Liveness

end TreeScript
