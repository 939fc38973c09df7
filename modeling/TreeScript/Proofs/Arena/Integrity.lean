/-
This file shows that no session damages an arena. A session holds a tree, what is
known about purity and the recorded returns; a step eliminates, moves the root,
or runs one of the passes that only look. Elimination is the only one that writes
nodes, and it moves links forward along the bindings of the first layout. There
all links lead to later ids, so they always do.

That is what the passes rely on when they look nodes up. Each of them has a strict
form here, which stops without a result when a node is missing or when it has to
go deeper than it was told, where the pass itself would go on with a default. In
a session the strict forms always have a result, and it is that of the pass: no
look-up ever misses, and no bound is ever used up.
-/

import TreeScript.Proofs.Arena.Session
import TreeScript.Proofs.Script.Translation

namespace TreeScript

/-! ### Links that lead to later ids -/

namespace TermTree

/-- Every link leads to a later id of the arena. -/
def Forward (tree : TermTree) : Prop :=
  ∀ id node, tree.get? id = some node → ∀ child ∈ node.children, id < child ∧ child < tree.size

variable {first tree : TermTree} {term : Term}

theorem get?_of_lt {id : TermId} (inRange : id < tree.size) : ∃ node, tree.get? id = some node :=
  ⟨_, Array.getElem?_eq_getElem inRange⟩

/-- A term takes consecutive ids and its parts come after it. -/
theorem forward_ofTerm (term : Term) : (ofTerm term).Forward := by
  intro id node held child member
  obtain ⟨whole, wholeUnfolds, -, -, wholeIds⟩ := spells_ofTerm term
  have inWhole : id ∈ whole.ids := by
    have inRange : id < (ofTerm term).size := (Array.getElem?_eq_some_iff.mp held).1
    rw [size_ofTerm] at inRange
    rw [wholeIds, List.mem_range'_1, Nat.zero_add]
    exact ⟨Nat.zero_le _, inRange⟩
  obtain ⟨⟨top, inner, parts⟩, unfolds, rfl, shorter⟩ := wholeUnfolds.inside inWhole
  obtain rfl : node = inner := Option.some.inj (held.symm.trans unfolds.get?)
  have increasing : (Unfolding.mk top node parts).ids.Pairwise (· < ·) := by
    rw [wholeIds] at shorter
    exact List.Pairwise.sublist shorter List.pairwise_lt_range'
  obtain ⟨-, linked, below⟩ := unfolds
  rw [linked] at member
  obtain ⟨part, partMember, rfl⟩ := List.mem_map.mp member
  rw [Unfolding.ids_mk, List.pairwise_cons] at increasing
  exact ⟨increasing.1 _ (List.mem_flatMap.mpr ⟨part, partMember, part.id_mem_ids⟩),
    (below part partMember).lt_size part.id_mem_ids⟩

theorem Forward.continues (forward : tree.Forward) {id later : TermId}
    (continues : tree.Continues id later) (inRange : id < tree.size) :
    id ≤ later ∧ later < tree.size := by
  induction continues with
  | refl => exact ⟨Nat.le_refl _, inRange⟩
  | tail _ isNext inductionHypothesis =>
    obtain ⟨name, value, held⟩ := isNext
    obtain ⟨after, nextInRange⟩ := forward _ _ held _ (List.mem_cons_of_mem _ List.mem_cons_self)
    exact ⟨Nat.le_trans inductionHypothesis.1 (Nat.le_of_lt after), nextInRange⟩

/-- Links that moved forward still lead to later ids. -/
theorem Relinked.forward (relinked : Relinked first tree) (forward : first.Forward) :
    tree.Forward := by
  intro id node held child member
  obtain ⟨originals, firstHeld, moved⟩ := relinked.first_node held
  obtain ⟨original, originalMember, continues⟩ : ∃ original ∈ originals,
      first.Continues original child := by
    obtain ⟨index, inRange, rfl⟩ := List.getElem_of_mem member
    have inOriginals : index < originals.length := moved.length_eq ▸ inRange
    exact ⟨_, List.getElem_mem inOriginals, moved.get inOriginals inRange⟩
  have isChild : original ∈ (node.withChildren originals).children := by
    rw [Node.children_withChildren (Node.fits_of_length moved.length_eq)]
    exact originalMember
  obtain ⟨after, originalInRange⟩ := forward _ _ firstHeld _ isChild
  obtain ⟨later, inRange⟩ := forward.continues continues originalInRange
  exact ⟨Nat.lt_of_lt_of_le after later, relinked.size_eq ▸ inRange⟩

/-- One level less is enough for a later id. -/
theorem enough_below {size id child depth : Nat} (later : id < child)
    (enough : size ≤ id + (depth + 1)) : size ≤ child + depth := by
  omega

/-! ### Strict walks -/

/-- A walk over a stack that has no result when a node is missing or visits run out. -/
def strictWalk (tree : TermTree) : Nat → List TermId → Option (List TermId)
  | _, [] => some []
  | 0, _ :: _ => none
  | visits + 1, id :: stack => do
    let node ← tree.get? id
    return id :: (← tree.strictWalk visits (node.children ++ stack))

/-- A strict walk over unfoldings has a result as soon as there is one visit for each id. -/
theorem strictWalk_eq_some {visits : Nat} (stack : List Unfolding)
    (unfolds : ∀ unfolding ∈ stack, tree.Unfolds unfolding)
    (enough : (stack.flatMap Unfolding.ids).length ≤ visits) :
    tree.strictWalk visits (stack.map Unfolding.id) = some (stack.flatMap Unfolding.ids) := by
  induction visits generalizing stack with
  | zero =>
    cases stack with
    | nil => rfl
    | cons top stack => simp [List.ne_nil_of_mem top.id_mem_ids] at enough
  | succ visits inductionHypothesis =>
    match stack, unfolds, enough with
    | [], _, _ => rfl
    | .mk id node parts :: stack, unfolds, enough =>
      obtain ⟨held, linked, below⟩ := unfolds _ List.mem_cons_self
      have rest := inductionHypothesis (parts ++ stack)
        (fun unfolding member => (List.mem_append.mp member).elim (below unfolding)
          fun inStack => unfolds unfolding (List.mem_cons_of_mem _ inStack))
        (by simpa using enough)
      rw [List.map_append, ← linked] at rest
      simp [strictWalk, held, rest]

/-- The strict form of the list of linked ids. -/
def strictReachable (tree : TermTree) : Option (List TermId) :=
  tree.strictWalk tree.size [tree.root]

theorem Reached.strictReachable_eq (reached : Reached term tree) :
    tree.strictReachable = some tree.reachable ∧ tree.reachable.Nodup := by
  obtain ⟨unfolding, unfolds, rooted, distinct⟩ := reached.unfolds
  have walked := strictWalk_eq_some [unfolding] (by simpa using unfolds)
    (by simpa using unfolds.length_ids_le distinct)
  rw [reachable_eq_ids unfolds rooted distinct]
  refine ⟨?_, distinct⟩
  simpa [strictReachable, rooted] using walked

theorem Reached.forward (reached : Reached term tree) : tree.Forward :=
  reached.relinked.1.forward (forward_ofTerm term)

end TermTree

/-! ### Strict liveness -/

namespace Liveness

/-- What an id contributes, looked up strictly: the name of a candidate and the name read. -/
def strictFacts (tree : TermTree) (id : TermId) : Option (Option String × Option String) := do
  match ← tree.get? id with
  | .letIn name _ next =>
    let following ← tree.get? next
    return (if isGuard (some following) then none else some name, none)
  | .var name => return (none, some name)
  | _ => return (none, none)

def strictOfTree (tree : TermTree) : Option Liveness := do
  let ids ← tree.strictReachable
  let facts ← ids.mapM (strictFacts tree)
  return ⟨facts.filterMap (·.1), facts.filterMap (·.2)⟩

variable {tree : TermTree} {term : Term}

theorem strictFacts_eq_some (forward : tree.Forward) {id : TermId} (inRange : id < tree.size) :
    strictFacts tree id = some (candidate? tree id, reference? tree id) := by
  obtain ⟨node, held⟩ := TermTree.get?_of_lt inRange
  cases node with
  | letIn name value next =>
    obtain ⟨following, followingHeld⟩ := TermTree.get?_of_lt (forward _ _ held next (by
      simp [Node.children])).2
    simp [strictFacts, candidate?, reference?, held, followingHeld]
  | _ => simp [strictFacts, candidate?, reference?, held]

theorem strictOfTree_eq_some (reached : TermTree.Reached term tree) :
    strictOfTree tree = some (ofTree tree) := by
  obtain ⟨walked, -⟩ := reached.strictReachable_eq
  obtain ⟨unfolding, unfolds, rooted, distinct⟩ := reached.unfolds
  have facts : ∀ ids : List TermId, (∀ id ∈ ids, id < tree.size) →
      ids.mapM (strictFacts tree) =
        some (ids.map fun id => (candidate? tree id, reference? tree id)) := by
    intro ids inRange
    induction ids with
    | nil => rfl
    | cons id ids inductionHypothesis =>
      simp [strictFacts_eq_some reached.forward (inRange id List.mem_cons_self),
        inductionHypothesis fun id member => inRange id (List.mem_cons_of_mem _ member)]
  have inRange : ∀ id ∈ tree.reachable, id < tree.size := by
    rw [TermTree.reachable_eq_ids unfolds rooted distinct]
    exact fun id member => unfolds.lt_size member
  simp [strictOfTree, walked, facts _ inRange, ofTree, List.filterMap_map]

end Liveness

/-! ### Strict elimination -/

namespace Pruning

open TermTree

/-- The search for effects, looked up strictly. -/
def strictMayHaveEffect (nodes : Array Node) : Nat → TermId → Option Bool
  | 0, _ => none
  | depth + 1, id => do
    match ← nodes[id]? with
    | .print _ => return true
    | .call .. => return true
    | .function .. => return false
    | node => node.children.anyM (strictMayHaveEffect nodes depth)

def strictRemove (pruning : Pruning) (name : String) (value : TermId) : Option Pruning := do
  let effect ← strictMayHaveEffect pruning.nodes (pruning.nodes.size + 1) value
  return { pruning with
    dead := pruning.dead.filter (· ≠ name)
    warnings := ⟨if effect then .discardedEffect else .unused, name, none⟩ :: pruning.warnings }

def strictEach (step : TermId → Pruning → Option (TermId × Pruning)) :
    List TermId → Pruning → Option (List TermId × Pruning)
  | [], pruning => some ([], pruning)
  | id :: ids, pruning => do
    let (newId, pruning) ← step id pruning
    let (newIds, pruning) ← strictEach step ids pruning
    return (newId :: newIds, pruning)

def strictRelink (step : TermId → Pruning → Option (TermId × Pruning)) (id : TermId) (node : Node)
    (pruning : Pruning) : Option (TermId × Pruning) := do
  let (children, pruning) ← strictEach step node.children pruning
  return (id, { pruning with nodes := pruning.nodes.setIfInBounds id (node.withChildren children) })

/-- The removal of dead bindings, looked up strictly. -/
def strictSplice : Nat → TermId → Pruning → Option (TermId × Pruning)
  | 0, _, _ => none
  | depth + 1, id, pruning => do
    match ← pruning.nodes[id]? with
    | .letIn name value next =>
      if name ∈ pruning.dead then strictSplice depth next (← pruning.strictRemove name value)
      else strictRelink (strictSplice depth) id (.letIn name value next) pruning
    | node => strictRelink (strictSplice depth) id node pruning

theorem anyM_eq_some {α : Type} {test : α → Option Bool} {answer : α → Bool} {entries : List α}
    (each : ∀ entry ∈ entries, test entry = some (answer entry)) :
    entries.anyM test = some (entries.any answer) := by
  induction entries with
  | nil => rfl
  | cons entry entries inductionHypothesis =>
    have rest := inductionHypothesis fun other member => each other (List.mem_cons_of_mem _ member)
    cases answered : answer entry <;>
      simp [List.anyM, each entry List.mem_cons_self, answered, rest]

variable {first : TermTree}

/-- Where links lead to later ids, the depth that is left is enough for the ids that are left. -/
theorem strictMayHaveEffect_eq_some {pruning : Pruning} (forward : pruning.tree.Forward)
    {depth : Nat} {id : TermId} (inRange : id < pruning.nodes.size)
    (enough : pruning.nodes.size ≤ id + depth) :
    strictMayHaveEffect pruning.nodes depth id = some (mayHaveEffect pruning.nodes depth id) := by
  induction depth generalizing id with
  | zero => exact absurd inRange (Nat.not_lt_of_le enough)
  | succ depth inductionHypothesis =>
    obtain ⟨node, held⟩ : ∃ node, pruning.nodes[id]? = some node :=
      ⟨_, Array.getElem?_eq_getElem inRange⟩
    have each : ∀ child ∈ node.children, strictMayHaveEffect pruning.nodes depth child =
        some (mayHaveEffect pruning.nodes depth child) := by
      intro child member
      obtain ⟨later, childInRange⟩ := forward id node held child member
      exact inductionHypothesis childInRange (enough_below later enough)
    rw [strictMayHaveEffect, mayHaveEffect, held]
    cases node <;> first | rfl | exact anyM_eq_some each

theorem strictRemove_eq_some {pruning : Pruning} (forward : pruning.tree.Forward) (name : String)
    {value : TermId} (inRange : value < pruning.nodes.size) :
    pruning.strictRemove name value = some (pruning.remove name value) := by
  rw [strictRemove, strictMayHaveEffect_eq_some forward inRange (by omega)]
  rfl

/-- A strict step agrees with a step on the ids of a set, in every state in which links have only
moved forward. -/
def AgreesOn (first : TermTree) (ids : TermId → Prop)
    (strictStep : TermId → Pruning → Option (TermId × Pruning))
    (step : TermId → Pruning → TermId × Pruning) : Prop :=
  ∀ id pruning, ids id → Relinked first pruning.tree →
    strictStep id pruning = some (step id pruning)

theorem strictEach_eq_some {strictStep : TermId → Pruning → Option (TermId × Pruning)}
    {step : TermId → Pruning → TermId × Pruning} {ids : List TermId}
    (agrees : AgreesOn first (· ∈ ids) strictStep step)
    (keeps : ∀ id pruning, Relinked first pruning.tree → Relinked first (step id pruning).2.tree)
    {pruning : Pruning} (relinked : Relinked first pruning.tree) :
    strictEach strictStep ids pruning = some (each step ids pruning) := by
  induction ids generalizing pruning with
  | nil => rfl
  | cons id ids inductionHypothesis =>
    have rest := inductionHypothesis
      (fun other pruning member => agrees other pruning (List.mem_cons_of_mem _ member))
      (keeps id pruning relinked)
    rw [strictEach, agrees id pruning List.mem_cons_self relinked]
    simp [rest, each]

theorem strictSplice_eq_some (forward : first.Forward) {depth : Nat} {id : TermId}
    {pruning : Pruning} (relinked : Relinked first pruning.tree) (inRange : id < first.size)
    (enough : first.size ≤ id + depth) :
    strictSplice depth id pruning = some (splice depth id pruning) := by
  induction depth generalizing id pruning with
  | zero => exact absurd inRange (Nat.not_lt_of_le enough)
  | succ depth inductionHypothesis =>
    have sameSize : pruning.nodes.size = first.size := relinked.size_eq
    have ahead := relinked.forward forward
    obtain ⟨node, held⟩ : ∃ node, pruning.nodes[id]? = some node :=
      ⟨_, Array.getElem?_eq_getElem (sameSize ▸ inRange)⟩
    have later (child : TermId) (member : child ∈ node.children) :
        child < first.size ∧ first.size ≤ child + depth := by
      obtain ⟨after, childInRange⟩ := ahead id node held child member
      exact ⟨sameSize ▸ childInRange, enough_below after enough⟩
    have relinks : strictRelink (strictSplice depth) id node pruning =
        some (relink (splice depth) id node pruning) := by
      have agrees : AgreesOn first (· ∈ node.children) (strictSplice depth) (splice depth) :=
        fun child pruning member relinked =>
          inductionHypothesis relinked (later child member).1 (later child member).2
      rw [strictRelink, strictEach_eq_some agrees
        (fun id pruning relinked => (splice_relinked depth id pruning relinked).2) relinked]
      rfl
    cases node with
    | letIn name value next =>
      rw [strictSplice, splice, held]
      show (if name ∈ pruning.dead then _ else _) = some (if name ∈ pruning.dead then _ else _)
      by_cases isDead : name ∈ pruning.dead
      · have valueInRange : value < pruning.nodes.size :=
          sameSize ▸ (later value List.mem_cons_self).1
        obtain ⟨nextInRange, nextEnough⟩ :=
          later next (List.mem_cons_of_mem _ List.mem_cons_self)
        rw [if_pos isDead, if_pos isDead, strictRemove_eq_some ahead name valueInRange]
        exact inductionHypothesis relinked nextInRange nextEnough
      · rw [if_neg isDead, if_neg isDead]
        exact relinks
    | _ =>
      rw [strictSplice, splice, held]
      exact relinks

end Pruning

namespace TermTree

variable {tree : TermTree} {term : Term}

/-- Elimination, looked up strictly. -/
def strictEliminate (tree : TermTree) : Option (TermTree × List Warning) := do
  let liveness ← Liveness.strictOfTree tree
  if liveness.deadNames.isEmpty then return (tree, [])
  else
    let (root, pruning) ←
      Pruning.strictSplice (tree.size + 1) tree.root ⟨tree.nodes, liveness.deadNames, []⟩
    return (⟨pruning.nodes, root⟩, pruning.warnings.reverse)

theorem strictEliminate_eq_some (reached : Reached term tree) :
    tree.strictEliminate = some tree.eliminate := by
  rw [strictEliminate, Liveness.strictOfTree_eq_some reached, eliminate]
  show (if _ then _ else _) = some (if _ then _ else _)
  split
  · rfl
  · have spliced (pruning : Pruning) (relinked : Relinked tree pruning.tree) :
        Pruning.strictSplice (tree.size + 1) tree.root pruning =
          some (Pruning.splice (tree.size + 1) tree.root pruning) :=
      Pruning.strictSplice_eq_some reached.forward relinked reached.relinked.2
        (Nat.le_add_left_of_le (Nat.le_succ tree.size))
    rw [spliced]
    · rfl
    · exact ⟨rfl, (Relinked.refl tree).node⟩

end TermTree

/-! ### Strict purity -/

namespace PurityTable

open TermTree

variable {tree : TermTree}

/-- The visit that infers purity, looked up strictly. -/
def strictVisit (tree : TermTree) :
    Nat → Option String → TermId → PurityTable → Option PurityTable
  | 0, _, _, _ => none
  | depth + 1, scope, id, table => do
    match ← tree.get? id with
    | .letIn name value next =>
      let table ← match ← tree.get? value with
        | .function _ body => strictVisit tree depth (some name) body (table.mark name true)
        | _ => strictVisit tree depth scope value table
      strictVisit tree depth scope next table
    | .print value => strictVisit tree depth scope value (table.demote scope)
    | .call callee arguments =>
      let table := match ← tree.get? callee with
        | .var name => if table.isKnownImpure name then table.demote scope else table
        | _ => table
      (callee :: arguments).foldlM (fun table child => strictVisit tree depth scope child table)
        table
    | node =>
      node.children.foldlM (fun table child => strictVisit tree depth scope child table) table

theorem foldlM_eq_some {α β : Type} {step : β → α → Option β} {next : β → α → β}
    {entries : List α}
    (each : ∀ entry ∈ entries, ∀ state, step state entry = some (next state entry))
    (state : β) : entries.foldlM step state = some (entries.foldl next state) := by
  induction entries generalizing state with
  | nil => rfl
  | cons entry entries inductionHypothesis =>
    rw [List.foldlM_cons, each entry List.mem_cons_self]
    exact inductionHypothesis (fun other member => each other (List.mem_cons_of_mem _ member)) _

theorem strictVisit_eq_some (forward : tree.Forward) {depth : Nat} {scope : Option String}
    {id : TermId} (inRange : id < tree.size) (enough : tree.size ≤ id + depth)
    (table : PurityTable) :
    strictVisit tree depth scope id table = some (visit tree depth scope id table) := by
  induction depth generalizing scope id table with
  | zero => exact absurd inRange (Nat.not_lt_of_le enough)
  | succ depth inductionHypothesis =>
    obtain ⟨node, held⟩ := get?_of_lt inRange
    have below (child : TermId) (member : child ∈ node.children) (scope : Option String)
        (table : PurityTable) :
        strictVisit tree depth scope child table = some (visit tree depth scope child table) := by
      obtain ⟨later, childInRange⟩ := forward id node held child member
      exact inductionHypothesis childInRange (enough_below later enough) table
    have all (children : List TermId) (included : children ⊆ node.children) (table : PurityTable) :=
      foldlM_eq_some (fun child member table => below child (included member) scope table) table
    rw [strictVisit, visit, held]
    cases node with
    | letIn name value next =>
      have nextBelow := below next (List.mem_cons_of_mem _ List.mem_cons_self) scope
      obtain ⟨valueLater, valueInRange⟩ := forward id _ held value List.mem_cons_self
      obtain ⟨bound, boundHeld⟩ := get?_of_lt valueInRange
      cases bound with
      | function parameters body =>
        obtain ⟨bodyLater, bodyInRange⟩ := forward value _ boundHeld body List.mem_cons_self
        have bodyVisit (table : PurityTable) : strictVisit tree depth (some name) body table =
            some (visit tree depth (some name) body table) :=
          inductionHypothesis bodyInRange
            (enough_below (Nat.lt_trans valueLater bodyLater) enough) table
        simp [boundHeld, bodyVisit, nextBelow]
      | _ => simp [boundHeld, below value List.mem_cons_self scope table, nextBelow]
    | print value => exact below value List.mem_cons_self scope _
    | call callee arguments =>
      obtain ⟨called, calledHeld⟩ := get?_of_lt (forward id _ held callee List.mem_cons_self).2
      simp only [Option.bind_eq_bind, Option.bind_some, calledHeld]
      cases called <;> exact all (callee :: arguments) (List.Subset.refl _) _
    | _ => exact all _ (List.Subset.refl _) table

end PurityTable

/-! ### Sessions with every kind of step -/

/-- What a session holds. -/
structure Session where
  tree : TermTree
  purity : PurityTable := {}
  tails : Script.TailPositions := {}

/-- What can be asked of a session. -/
inductive Action where
  | eliminate
  | assignRoot (id : TermId)
  | collectLiveness
  | inferPurity
  | tag (id : TermId)
  | emit (options : Script.Options)

namespace Session

def start (term : Term) : Session :=
  { tree := .ofTerm term }

/-- The session after one step. A refused tag changes nothing. -/
def apply (session : Session) : Action → Session
  | .eliminate => { session with tree := session.tree.eliminate.1 }
  | .assignRoot id => { session with tree := { session.tree with root := id } }
  | .collectLiveness => session
  | .inferPurity => { session with purity := session.tree.purity }
  | .tag id =>
    match session.tails.tag session.tree id with
    | .ok (_, tails) => { session with tails }
    | .error _ => session
  | .emit _ => session

def run (session : Session) (actions : List Action) : Session :=
  actions.foldl apply session

/-- The same step with every look-up in the tree made strictly. Only the id that a tag is asked for
may be missing. -/
def strictApply (session : Session) : Action → Option Session
  | .eliminate => do
    let (tree, _) ← session.tree.strictEliminate
    return { session with tree }
  | .assignRoot id => some { session with tree := { session.tree with root := id } }
  | .collectLiveness => do
    let _ ← Liveness.strictOfTree session.tree
    return session
  | .inferPurity => do
    let purity ← PurityTable.strictVisit session.tree (session.tree.size + 1) none
      session.tree.root {}
    return { session with purity }
  | .tag id =>
    match session.tails.tag session.tree id with
    | .ok (_, tails) => some { session with tails }
    | .error _ => if id < session.tree.size then none else some session
  | .emit options =>
    match Script.emitTree session.tree session.purity options with
    | .ok _ => some session
    | .error _ => none

def strictRun (session : Session) (actions : List Action) : Option Session :=
  actions.foldlM strictApply session

variable {session : Session} {term : Term}

/-- One step keeps the tree in one of the states that eliminations and roots lead to. -/
theorem apply_reached (reached : TermTree.Reached term session.tree) {action : Action}
    (inRange : ∀ id, action = .assignRoot id → id < term.size) :
    TermTree.Reached term (session.apply action).tree := by
  cases action with
  | eliminate => exact .eliminated reached
  | assignRoot id =>
    refine .rooted reached ?_
    rw [reached.relinked.1.size_eq, TermTree.size_ofTerm]
    exact inRange id rfl
  | collectLiveness => exact reached
  | inferPurity => exact reached
  | tag id =>
    rw [apply]
    split <;> exact reached
  | emit => exact reached

/-- A strict step has a result, and it is that of the step. -/
theorem strictApply_eq_some (reached : TermTree.Reached term session.tree) (action : Action) :
    session.strictApply action = some (session.apply action) := by
  cases action with
  | eliminate => simp [strictApply, apply, TermTree.strictEliminate_eq_some reached]
  | assignRoot id => rfl
  | collectLiveness => simp [strictApply, apply, Liveness.strictOfTree_eq_some reached]
  | inferPurity =>
    have visited : PurityTable.strictVisit session.tree (session.tree.size + 1) none
        session.tree.root {} = some session.tree.purity :=
      PurityTable.strictVisit_eq_some reached.forward reached.relinked.2
        (Nat.le_add_left_of_le (Nat.le_succ _)) {}
    simp [strictApply, apply, visited]
  | tag id =>
    rw [strictApply, apply]
    split
    · rfl
    · rename_i refused
      rw [if_neg]
      intro inRange
      obtain ⟨unfolding, unfolds, rfl, distinct⟩ := reached.unfolds_at inRange
      rw [Script.TailPositions.tag, Script.tail, unfolds.tailFrom_eq_tail
        (Nat.le_succ_of_le (unfolds.length_ids_le distinct))] at refused
      cases refused
  | emit options =>
    obtain ⟨unfolding, unfolds, rooted, distinct⟩ := reached.unfolds
    rw [strictApply, unfolds.emitTree_eq rooted distinct]
    rfl

/-- Whatever is asked of a session, its tree stays one that eliminations and roots lead to, and no
look-up on the way misses. -/
theorem run_reached {actions : List Action} (reached : TermTree.Reached term session.tree)
    (inRange : ∀ id, Action.assignRoot id ∈ actions → id < term.size) :
    TermTree.Reached term (session.run actions).tree ∧
      session.strictRun actions = some (session.run actions) := by
  induction actions generalizing session with
  | nil => exact ⟨reached, rfl⟩
  | cons action actions inductionHypothesis =>
    obtain ⟨reachedLast, ran⟩ := inductionHypothesis
      (apply_reached reached fun id same => inRange id (same ▸ List.mem_cons_self))
      (fun id member => inRange id (List.mem_cons_of_mem _ member))
    refine ⟨reachedLast, ?_⟩
    rw [strictRun, List.foldlM_cons, strictApply_eq_some reached]
    exact ran

end Session

/-- What no session changes about the arena of a term. -/
structure TermTree.Intact (term : Term) (tree : TermTree) : Prop where
  /-- No node is added or lost. -/
  size_eq : tree.size = term.size
  /-- A node keeps everything but its links, and a link leads to where it led first or from there
  along what followed bindings first. -/
  node : ∀ id node, (ofTerm term).get? id = some node →
    ∃ children, tree.get? id = some (node.withChildren children) ∧
      List.Forall₂ (ofTerm term).Continues node.children children
  /-- Links lead to later ids of the arena. -/
  forward : ∀ id node, tree.get? id = some node →
    ∀ child ∈ node.children, id < child ∧ child < tree.size
  /-- From every id as the root the walk comes to an end, misses nothing and visits nothing
  twice. -/
  walk : ∀ id < tree.size,
    { tree with root := id }.strictReachable = some { tree with root := id }.reachable ∧
      { tree with root := id }.reachable.Nodup

/-- Arenas stay intact over whole sessions: after any number of steps of any kind in any order,
with roots assigned within the arena, the tree has kept its nodes and its shape, and no step has
looked up anything that is not there. -/
theorem Session.run_intact {term : Term} {actions : List Action}
    (inRange : ∀ id, Action.assignRoot id ∈ actions → id < term.size) :
    TermTree.Intact term ((Session.start term).run actions).tree ∧
      (Session.start term).strictRun actions = some ((Session.start term).run actions) := by
  have fresh : TermTree.Reached term (Session.start term).tree := .laidOut
  obtain ⟨reached, ran⟩ := run_reached fresh inRange
  have relinked := reached.relinked.1
  refine ⟨⟨?_, relinked.node, reached.forward, fun id idInRange => ?_⟩, ran⟩
  · rw [relinked.size_eq, TermTree.size_ofTerm]
  · exact (TermTree.Reached.rooted reached idInRange).strictReachable_eq

/-- Two bindings that nothing reads; the value of the first one binds and prints. -/
def spareBindings : Term :=
  .letIn "spare" (.letIn "kept" (.int 1) (.print (.var "kept"))) (.letIn "extra" (.int 2) (.int 3))

/-- The bindings go, one of them becomes the root again, and what is linked from it is eliminated
once more. -/
theorem Session.run_intact_spareBindings :
    let actions : List Action :=
      [.eliminate, .tag 0, .assignRoot 0, .inferPurity, .eliminate, .emit ⟨.inline, true⟩]
    (∀ id, Action.assignRoot id ∈ actions → id < spareBindings.size) ∧
      TermTree.Intact spareBindings ((Session.start spareBindings).run actions).tree ∧
      (Session.start spareBindings).strictRun actions =
        some ((Session.start spareBindings).run actions) := by
  intro actions
  have inRange : ∀ id, Action.assignRoot id ∈ actions → id < spareBindings.size := by
    intro id member
    obtain rfl : id = 0 := by simpa [actions] using member
    decide
  exact ⟨inRange, run_intact inRange⟩

end TreeScript
