/-
This file removes bindings whose names are dead. The walk starts at the root and
visits a node before its parts. The first binding it meets for each dead name is
left out: whatever linked to it then links to what follows it, and its value is
not visited. All other nodes keep their place and have their parts replaced by
what remains of them. Each removal is reported, and the report says when the
dropped value would have printed or called something.
-/

import TreeScript.Analysis.Liveness
import TreeScript.Diagnostic

namespace TreeScript

/-- The state of a removal: the nodes so far, the dead names not met yet, and the warnings in
reverse order. -/
structure Pruning where
  nodes : Array Node
  dead : List String
  warnings : List Warning

namespace Pruning

/-- Whether evaluating the value at an id reaches a print or a call. Function bodies do not run
then. -/
def mayHaveEffect (nodes : Array Node) : Nat → TermId → Bool
  | 0, _ => false
  | depth + 1, id =>
    match nodes[id]? with
    | some (.print _) => true
    | some (.call ..) => true
    | some (.function ..) => false
    | some node => node.children.any (mayHaveEffect nodes depth)
    | none => false

/-- The state after a binding of a dead name has been left out. -/
def remove (pruning : Pruning) (name : String) (value : TermId) : Pruning :=
  let removal : Removal :=
    if mayHaveEffect pruning.nodes (pruning.nodes.size + 1) value then .discardedEffect
    else .unused
  { pruning with
    dead := pruning.dead.filter (· ≠ name)
    warnings := ⟨removal, name, none⟩ :: pruning.warnings }

/-- Runs a removal on several ids one after the other. -/
def each (step : TermId → Pruning → TermId × Pruning) :
    List TermId → Pruning → List TermId × Pruning
  | [], pruning => ([], pruning)
  | id :: ids, pruning =>
    let (newId, pruning) := step id pruning
    let (newIds, pruning) := each step ids pruning
    (newId :: newIds, pruning)

/-- Runs a removal on the parts of a node and links the node to what remains of them. -/
def relink (step : TermId → Pruning → TermId × Pruning) (id : TermId) (node : Node)
    (pruning : Pruning) : TermId × Pruning :=
  let (children, pruning) := each step node.children pruning
  (id, { pruning with nodes := pruning.nodes.setIfInBounds id (node.withChildren children) })

/-- Removes dead bindings at an id and below it, for at most the given depth, and answers the id
that takes its place. -/
def splice : Nat → TermId → Pruning → TermId × Pruning
  | 0, id, pruning => (id, pruning)
  | depth + 1, id, pruning =>
    match pruning.nodes[id]? with
    | none => (id, pruning)
    | some (.letIn name value next) =>
      if name ∈ pruning.dead then splice depth next (pruning.remove name value)
      else relink (splice depth) id (.letIn name value next) pruning
    | some node => relink (splice depth) id node pruning

end Pruning

namespace TermTree

/-- The tree without dead bindings, and a warning for each of those that were removed. -/
def eliminate (tree : TermTree) : TermTree × List Warning :=
  let dead := (Liveness.ofTree tree).deadNames
  if dead.isEmpty then (tree, [])
  else
    let (root, pruning) := Pruning.splice (tree.size + 1) tree.root ⟨tree.nodes, dead, []⟩
    (⟨pruning.nodes, root⟩, pruning.warnings.reverse)

end TermTree

end TreeScript
