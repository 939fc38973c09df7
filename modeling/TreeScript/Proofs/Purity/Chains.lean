/-
This file says exactly what the walk that infers purity finds out. It goes over
the tree once, in the order in which nodes are linked, and reads the table while
it writes it. So a function is known to be impure if it prints, or if it calls a
function that was known to be impure when the call was visited: there is a chain
of functions, each calling the next one and the last one printing, and the places
of these calls and of the print stand in the tree in reverse order.

The walk carries the function around a node with it. Seen from a node, that is the
innermost function on its trail that is the value of a binding, so the walk is a
fold over the linked nodes with their trails. After any number of places the table
holds exactly the chains that end up among them.
-/

import TreeScript.Analysis.Purity
import TreeScript.Proofs.Arena.Session
import TreeScript.Proofs.Arena.Trail

namespace TreeScript

/-! ### Tables -/

namespace PurityTable

variable {table : PurityTable} {name other : String}

theorem lookup_cons_eq (pure : Bool) (entries : List (String × Bool)) :
    ((name, pure) :: entries).lookup other =
      if other = name then some pure else entries.lookup other := by
  rw [List.lookup_cons]
  split <;> rename_i compared
  · rw [if_pos (beq_iff_eq.mp compared)]
  · rw [if_neg (beq_eq_false_iff_ne.mp compared)]

theorem lookup_record (pure : Bool) (entries : List (String × Bool)) :
    (record name pure entries).lookup other =
      if other = name then some pure else entries.lookup other := by
  induction entries with
  | nil => exact lookup_cons_eq pure []
  | cons entry entries inductionHypothesis =>
    obtain ⟨first, known⟩ := entry
    rw [record, lookup_cons_eq]
    split
    · rename_i same
      rw [lookup_cons_eq, ← same]
      split <;> rfl
    · rename_i different
      split
      · rw [lookup_cons_eq, lookup_cons_eq]
      · rw [lookup_cons_eq, inductionHypothesis]
        by_cases same : other = name
        · rw [if_pos same, if_pos same, if_neg (same ▸ different)]
        · rw [if_neg same, if_neg same]

theorem get?_mark (pure : Bool) :
    (table.mark name pure).get? other = if other = name then some pure else table.get? other :=
  lookup_record pure table.entries

theorem isKnownImpure_iff : table.isKnownImpure name = true ↔ table.get? name = some false := by
  rw [isKnownImpure, beq_iff_eq]

theorem isPure_iff : table.isPure name = true ↔ table.get? name = some true := by
  rw [isPure, beq_iff_eq]

theorem contains_iff : table.contains name = true ↔ table.get? name ≠ none := by
  rw [contains, Option.isSome_iff_ne_none]

end PurityTable

namespace TermTree

/-! ### Functions bound by name, and where they print and call -/

/-- The name that a node binds to a function. -/
def functionName? (tree : TermTree) (id : TermId) : Option String :=
  match tree.get? id with
  | some (.letIn name value _) =>
    match tree.get? value with
    | some (.function ..) => some name
    | _ => none
  | _ => none

/-- The innermost function bound by name around a place with this trail: the first function on the
way outward that is the value of the binding around it. -/
def enclosing? (tree : TermTree) : List TermId → Option String
  | inner :: outer :: around =>
    match tree.get? inner, tree.get? outer with
    | some (.function ..), some (.letIn name value _) =>
      if value = inner then some name else tree.enclosing? (outer :: around)
    | _, _ => tree.enclosing? (outer :: around)
  | _ => none

/-- A linked node lies in the body of a function bound by this name, and in no other one further
inside. -/
def Within (tree : TermTree) (id : TermId) (name : String) : Prop :=
  ∃ around, tree.Trail tree.root id around ∧ tree.enclosing? around = some name

/-- The node at a position of the walk is a print in the body of this function. -/
def PrintsAt (tree : TermTree) (position : Nat) (name : String) : Prop :=
  ∃ id value, tree.reachable[position]? = some id ∧ tree.get? id = some (.print value) ∧
    tree.Within id name

/-- The node at a position of the walk is a call of `callee` by its name in the body of this
function. -/
def CallsAt (tree : TermTree) (position : Nat) (name callee : String) : Prop :=
  ∃ id function arguments, tree.reachable[position]? = some id ∧
    tree.get? id = some (.call function arguments) ∧ tree.get? function = some (.var callee) ∧
    tree.Within id name

/-- Functions, each with a position in its body: the last one prints there, and every other one
calls the next one there, at a later position than that of the next one. -/
inductive ImpurityChain (tree : TermTree) : List (String × Nat) → Prop where
  | print {name : String} {position : Nat} (prints : tree.PrintsAt position name) :
      ImpurityChain tree [(name, position)]
  | call {name callee : String} {position earlier : Nat} {rest : List (String × Nat)}
      (calls : tree.CallsAt position name callee) (isEarlier : earlier < position)
      (chain : ImpurityChain tree ((callee, earlier) :: rest)) :
      ImpurityChain tree ((name, position) :: (callee, earlier) :: rest)

/-- A chain starts with this function at this position. -/
def Taints (tree : TermTree) (name : String) (position : Nat) : Prop :=
  ∃ rest, tree.ImpurityChain ((name, position) :: rest)

/-- No two linked bindings bind a function to the same name. -/
def NamesFunctionsOnce (tree : TermTree) : Prop :=
  (tree.reachable.filterMap tree.functionName?).Nodup

variable {tree : TermTree} {unfolding : Unfolding}

theorem functionName?_eq_some {id : TermId} {name : String} :
    tree.functionName? id = some name ↔
      ∃ value next parameters body, tree.get? id = some (.letIn name value next) ∧
        tree.get? value = some (.function parameters body) := by
  rw [functionName?]
  constructor
  · intro named
    split at named
    · rename_i bound value next held
      split at named
      · rename_i parameters body function
        cases named
        exact ⟨value, next, parameters, body, held, function⟩
      · cases named
    · cases named
  · rintro ⟨value, next, parameters, body, held, function⟩
    simp only [held, function]

/-! ### The innermost function along a trail -/

/-- An id does not change which function is the innermost one for the terms inside it. -/
def KeepsEnclosing (tree : TermTree) (id : TermId) (around : List TermId) : Prop :=
  tree.enclosing? (id :: around) = tree.enclosing? around

theorem keepsEnclosing_of_not_function {id : TermId} {node : Node}
    (held : tree.get? id = some node) (notFunction : node.kind ≠ .function)
    (around : List TermId) : tree.KeepsEnclosing id around := by
  cases around with
  | nil => rfl
  | cons outer around =>
    rw [KeepsEnclosing, enclosing?, held]
    cases node with
    | function => exact absurd rfl notFunction
    | _ => rfl

theorem keepsEnclosing_of_not_value {id outer : TermId} {around : List TermId}
    (notValue : ∀ name value next, tree.get? outer = some (.letIn name value next) → value ≠ id) :
    tree.KeepsEnclosing id (outer :: around) := by
  rw [KeepsEnclosing, enclosing?]
  split
  · rename_i held
    rw [if_neg (notValue _ _ _ held)]
  · rfl

/-- The body of a function that is the value of a binding lies in that function. -/
theorem enclosing?_named {id value next body : TermId} {name : String} {parameters : List String}
    {around : List TermId} (held : tree.get? id = some (.letIn name value next))
    (function : tree.get? value = some (.function parameters body)) :
    tree.enclosing? (value :: id :: around) = some name := by
  rw [enclosing?, held, function]
  exact if_pos rfl

/-- The innermost function was bound by one of the ids on the trail. -/
theorem exists_functionName?_of_enclosing? {around : List TermId} {name : String}
    (inside : tree.enclosing? around = some name) :
    ∃ binding ∈ around, tree.functionName? binding = some name := by
  induction around with
  | nil => cases inside
  | cons inner around inductionHypothesis =>
    cases around with
    | nil => cases inside
    | cons outer around =>
      have further (inside : tree.enclosing? (outer :: around) = some name) :
          ∃ binding ∈ inner :: outer :: around, tree.functionName? binding = some name := by
        obtain ⟨binding, member, named⟩ := inductionHypothesis inside
        exact ⟨binding, List.mem_cons_of_mem _ member, named⟩
      rw [enclosing?] at inside
      split at inside
      · rename_i parameters body bound value next function held
        split at inside
        · rename_i isValue
          subst isValue
          cases inside
          exact ⟨outer, by simp, functionName?_eq_some.mpr ⟨_, _, _, _, held, function⟩⟩
        · exact further inside
      · exact further inside

end TermTree

/-! ### The walk as a fold -/

namespace TermTree

variable {tree : TermTree} {unfolding : Unfolding}

/-- Whether the node at an id shows that the function around it is impure, to the knowledge of the
table. -/
def demotes (tree : TermTree) (table : PurityTable) (id : TermId) : Bool :=
  match tree.get? id with
  | some (.print _) => true
  | some (.call callee _) =>
    match tree.get? callee with
    | some (.var name) => table.isKnownImpure name
    | _ => false
  | _ => false

/-- What a visit does to the table at one id with its trail. -/
def react (tree : TermTree) (table : PurityTable) (place : TermId × List TermId) : PurityTable :=
  match tree.functionName? place.1 with
  | some name => table.mark name true
  | none =>
    if tree.demotes table place.1 then table.demote (tree.enclosing? place.2) else table

theorem demote_callee (called : Option Node) (table : PurityTable) (scope : Option String) :
    (match called with
      | some (.var name) => if table.isKnownImpure name then table.demote scope else table
      | _ => table) =
    if (match called with
      | some (.var name) => table.isKnownImpure name
      | _ => false) then table.demote scope else table := by
  rcases called with _ | node
  · rfl
  · cases node <;> rfl

theorem foldl_visit_eq {parts : List Unfolding} {visit : TermId → PurityTable → PurityTable}
    {around : List TermId}
    (each : ∀ part ∈ parts, ∀ table, visit part.id table =
      (part.trails around).foldl tree.react table) (table : PurityTable) :
    (parts.map Unfolding.id).foldl (fun table child => visit child table) table =
      (parts.flatMap (Unfolding.trails around)).foldl tree.react table := by
  induction parts generalizing table with
  | nil => rfl
  | cons part parts inductionHypothesis =>
    rw [List.map_cons, List.foldl_cons, List.flatMap_cons, List.foldl_append,
      each part List.mem_cons_self]
    exact inductionHypothesis (fun part member => each part (List.mem_cons_of_mem _ member)) _

/-- A visit reacts to the ids of the unfolding one after the other. -/
theorem Unfolds.visit_eq_foldl (unfolds : tree.Unfolds unfolding)
    (distinct : unfolding.ids.Nodup) {depth : Nat} (enough : unfolding.ids.length ≤ depth)
    {around : List TermId} (keeps : tree.KeepsEnclosing unfolding.id around) (table : PurityTable) :
    PurityTable.visit tree depth (tree.enclosing? around) unfolding.id table =
      (unfolding.trails around).foldl tree.react table := by
  induction depth generalizing unfolding around table with
  | zero =>
    have empty := List.length_eq_zero_iff.mp (Nat.le_zero.mp enough)
    exact absurd unfolding.id_mem_ids (by simp [empty])
  | succ depth inductionHypothesis =>
    obtain ⟨id, node, parts⟩ := unfolding
    obtain ⟨held, linked, below⟩ := unfolds
    have within (part : Unfolding) (member : part ∈ parts) :
        part.ids.Nodup ∧ part.ids.length ≤ depth :=
      ⟨(Unfolding.ids_part_sublist member).nodup distinct,
        Nat.le_of_lt_succ (Nat.lt_of_lt_of_le (Unfolding.length_ids_part_lt member) enough)⟩
    -- Parts are visited with the function around the node, which is also the one around them.
    have each (part : Unfolding) (member : part ∈ parts)
        (partKeeps : tree.KeepsEnclosing part.id (id :: around)) (table : PurityTable) :
        PurityTable.visit tree depth (tree.enclosing? around) part.id table =
          (part.trails (id :: around)).foldl tree.react table := by
      rw [← keeps]
      exact inductionHypothesis (below part member) (within part member).1 (within part member).2
        partKeeps table
    have all (notLet : node.kind ≠ .letIn) (table : PurityTable) :
        node.children.foldl (fun table child =>
          PurityTable.visit tree depth (tree.enclosing? around) child table) table =
        (parts.flatMap (Unfolding.trails (id :: around))).foldl tree.react table := by
      rw [linked]
      refine foldl_visit_eq (fun part member table => each part member ?_ table) table
      refine keepsEnclosing_of_not_value fun name value next isLet => ?_
      rw [held] at isLet
      cases isLet
      exact absurd rfl notLet
    rw [Unfolding.trails_mk, List.foldl_cons, Unfolding.id_mk, PurityTable.visit, react,
      functionName?, demotes, held]
    cases node with
    | letIn name valueId nextId =>
      obtain ⟨value, next, rfl, rfl, rfl⟩ := Unfolding.eq_pair linked
      have nextKeeps : tree.KeepsEnclosing next.id (id :: around) := by
        refine keepsEnclosing_of_not_value fun bound boundValue following isLet => ?_
        rw [held] at isLet
        cases isLet
        rw [Unfolding.ids_mk, List.nodup_cons] at distinct
        simp only [List.flatMap_cons, List.flatMap_nil, List.append_nil] at distinct
        exact fun same => (List.nodup_append'.mp distinct.2).2.2 value.id_mem_ids
          (same ▸ next.id_mem_ids)
      have nextVisit := each next (by simp) nextKeeps
      simp only [List.flatMap_cons, List.flatMap_nil, List.append_nil, List.foldl_append]
      obtain ⟨valueId, valueNode, valueParts⟩ := value
      have valueHeld : tree.get? valueId = some valueNode := (below _ List.mem_cons_self).get?
      cases valueNode with
      | function parameters bodyId =>
        obtain ⟨-, valueLinked, valueBelow⟩ := below _ List.mem_cons_self
        obtain ⟨body, rfl, rfl⟩ := Unfolding.eq_single valueLinked
        obtain ⟨valueDistinct, valueEnough⟩ := within _ List.mem_cons_self
        have bodyVisit (table : PurityTable) :
            PurityTable.visit tree depth (some name) body.id table =
              (body.trails (valueId :: id :: around)).foldl tree.react table := by
          rw [← enclosing?_named held valueHeld]
          refine inductionHypothesis (valueBelow body (by simp))
            ((Unfolding.ids_part_sublist (by simp)).nodup valueDistinct)
            (Nat.le_of_lt (Nat.lt_of_lt_of_le (Unfolding.length_ids_part_lt (by simp))
              valueEnough)) ?_ table
          exact keepsEnclosing_of_not_value fun _ _ _ isLet => by
            cases valueHeld.symm.trans isLet
        simp [Unfolding.trails_mk, react, functionName?, demotes, valueHeld, bodyVisit, nextVisit]
      | _ =>
        have valueVisit := each _ List.mem_cons_self
          (keepsEnclosing_of_not_function valueHeld (by simp [Node.kind]) (id :: around))
        simp only [Unfolding.id_mk] at valueVisit
        simp [valueHeld, valueVisit, nextVisit]
    | print valueId =>
      exact all (by simp [Node.kind]) _
    | call calleeId argumentIds =>
      exact (all (by simp [Node.kind]) _).trans
        (congrArg (fun table => List.foldl tree.react table _) (demote_callee _ table _))
    | _ => exact all (by simp [Node.kind]) table

/-! ### Positions -/

/-- The linked nodes in order, each with its only trail. -/
structure Places (tree : TermTree) (places : List (TermId × List TermId)) : Prop where
  reachable_eq : tree.reachable = places.map Prod.fst
  distinct : tree.reachable.Nodup
  trail : ∀ id around, (id, around) ∈ places → tree.Trail tree.root id around
  trail_unique : ∀ id around others, tree.Trail tree.root id around →
    tree.Trail tree.root id others → around = others
  linked : ∀ id around, tree.Trail tree.root id around → id ∈ tree.reachable
  parent_first : ∀ id ∈ tree.reachable, ∀ child ∈ tree.children id,
    [id, child].Sublist tree.reachable

theorem Unfolds.places (unfolds : tree.Unfolds unfolding) (rooted : unfolding.id = tree.root)
    (distinct : unfolding.ids.Nodup) : tree.Places (unfolding.trails []) where
  reachable_eq := by rw [reachable_eq_ids unfolds rooted distinct, unfolds.map_fst_trails]
  distinct := by rwa [reachable_eq_ids unfolds rooted distinct]
  trail id around member := by
    obtain ⟨inner, trail, rfl⟩ := unfolds.trail_of_mem_trails member
    rwa [List.append_nil, ← rooted]
  trail_unique id around others trail other := by
    rw [← rooted] at trail other
    exact unfolds.trail_unique distinct trail other
  linked id around trail := by
    rw [← rooted] at trail
    rw [reachable_eq_ids unfolds rooted distinct]
    exact unfolds.mem_ids_iff.mpr ⟨around, trail⟩
  parent_first id linked child member := by
    rw [reachable_eq_ids unfolds rooted distinct] at linked ⊢
    obtain ⟨⟨top, node, parts⟩, innerUnfolds, rfl, shorter⟩ := unfolds.inside linked
    refine List.Sublist.trans ?_ shorter
    have children : tree.children top = parts.map Unfolding.id := innerUnfolds.children
    rw [Unfolding.id_mk, children] at member
    obtain ⟨part, partMember, rfl⟩ := List.mem_map.mp member
    rw [Unfolding.ids_mk]
    exact List.cons_sublist_cons.mpr (List.singleton_sublist.mpr
      (List.mem_flatMap.mpr ⟨part, partMember, part.id_mem_ids⟩))

/-- Of two entries in this order the first one has a smaller position. -/
theorem exists_lt_of_pair_sublist {entries : List TermId} {first second : TermId}
    (pair : [first, second].Sublist entries) (distinct : entries.Nodup) {position : Nat}
    (there : entries[position]? = some second) :
    ∃ earlier < position, entries[earlier]? = some first := by
  obtain ⟨before, after, rfl, inBefore, inAfter⟩ := List.cons_sublist_iff.mp pair
  obtain ⟨earlier, inRange, rfl⟩ := List.getElem_of_mem inBefore
  have apart := (List.nodup_append'.mp distinct).2.2
  refine ⟨earlier, ?_, by rw [List.getElem?_append_left inRange, List.getElem?_eq_getElem]⟩
  by_contra notEarlier
  have inFront : position < before.length := by omega
  rw [List.getElem?_append_left inFront] at there
  exact apart (List.mem_of_getElem? there) (List.singleton_sublist.mp inAfter)

namespace Places

variable {places : List (TermId × List TermId)}

/-- What stands around a linked node comes before it. -/
theorem around_first (isPlaces : tree.Places places) {id : TermId} {around : List TermId}
    (trail : tree.Trail tree.root id around) {position : Nat}
    (there : tree.reachable[position]? = some id) :
    ∀ outer ∈ around, ∃ earlier < position, tree.reachable[earlier]? = some outer := by
  induction trail generalizing position with
  | here => simp
  | @part id child around trail member inductionHypothesis =>
    obtain ⟨before, isBefore, parentThere⟩ := exists_lt_of_pair_sublist
      (isPlaces.parent_first id (isPlaces.linked id around trail) child member)
      isPlaces.distinct there
    intro outer outerMember
    rcases List.mem_cons.mp outerMember with rfl | further
    · exact ⟨before, isBefore, parentThere⟩
    · obtain ⟨earlier, isEarlier, outerThere⟩ := inductionHypothesis parentThere outer further
      exact ⟨earlier, Nat.lt_trans isEarlier isBefore, outerThere⟩

/-- The function around the node at a position is the one that its trail shows. -/
theorem within_iff (isPlaces : tree.Places places) {id : TermId} {around : List TermId}
    (member : (id, around) ∈ places) {name : String} :
    tree.Within id name ↔ tree.enclosing? around = some name := by
  have trail := isPlaces.trail id around member
  constructor
  · rintro ⟨others, otherTrail, inside⟩
    rwa [isPlaces.trail_unique id around others trail otherTrail]
  · exact fun inside => ⟨around, trail, inside⟩

theorem reachable_getElem? (isPlaces : tree.Places places) {position : Nat} {id : TermId}
    {around : List TermId} (there : places[position]? = some (id, around)) :
    tree.reachable[position]? = some id := by
  rw [isPlaces.reachable_eq, List.getElem?_map, there]
  rfl

end Places

/-- The node at a position binds a function to this name. -/
def RegistersAt (tree : TermTree) (position : Nat) (name : String) : Prop :=
  ∃ id, tree.reachable[position]? = some id ∧ tree.functionName? id = some name

theorem NamesFunctionsOnce.registersAt_unique (once : tree.NamesFunctionsOnce)
    {position other : Nat} {name : String} (registers : tree.RegistersAt position name)
    (registersToo : tree.RegistersAt other name) : position = other := by
  obtain ⟨id, there, named⟩ := registers
  obtain ⟨otherId, otherThere, otherNamed⟩ := registersToo
  have apart := List.pairwise_iff_getElem.mp (List.pairwise_filterMap.mp once)
  obtain ⟨inRange, rfl⟩ := List.getElem?_eq_some_iff.mp there
  obtain ⟨otherInRange, rfl⟩ := List.getElem?_eq_some_iff.mp otherThere
  rcases Nat.lt_trichotomy position other with before | same | after
  · exact absurd rfl (apart position other inRange otherInRange before _ named _ otherNamed)
  · exact same
  · exact absurd rfl (apart other position otherInRange inRange after _ otherNamed _ named)

/-- A function was registered before anything inside it is visited. -/
theorem Places.registered_first {places : List (TermId × List TermId)}
    (isPlaces : tree.Places places) {position : Nat} {id : TermId} {name : String}
    (there : tree.reachable[position]? = some id) (within : tree.Within id name) :
    ∃ earlier < position, tree.RegistersAt earlier name := by
  obtain ⟨around, trail, inside⟩ := within
  obtain ⟨binding, member, named⟩ := exists_functionName?_of_enclosing? inside
  obtain ⟨earlier, isEarlier, bindingThere⟩ := isPlaces.around_first trail there binding member
  exact ⟨earlier, isEarlier, binding, bindingThere, named⟩

/-! ### Chains and the table -/

theorem taints_iff {name : String} {position : Nat} :
    tree.Taints name position ↔ tree.PrintsAt position name ∨
      ∃ callee, tree.CallsAt position name callee ∧
        ∃ earlier < position, tree.Taints callee earlier := by
  constructor
  · rintro ⟨rest, chain⟩
    cases chain with
    | print prints => exact .inl prints
    | call calls isEarlier chain => exact .inr ⟨_, calls, _, isEarlier, _, chain⟩
  · rintro (prints | ⟨callee, calls, earlier, isEarlier, rest, chain⟩)
    · exact ⟨[], .print prints⟩
    · exact ⟨_, .call calls isEarlier chain⟩

theorem Taints.within {name : String} {position : Nat} (taints : tree.Taints name position) :
    ∃ id, tree.reachable[position]? = some id ∧ tree.Within id name := by
  rcases taints_iff.mp taints with
    ⟨id, _, there, _, within⟩ | ⟨_, ⟨id, _, _, there, _, _, within⟩, _⟩
  · exact ⟨id, there, within⟩
  · exact ⟨id, there, within⟩

/-- A table holds what the first positions of the walk show. -/
structure Reflects (tree : TermTree) (count : Nat) (table : PurityTable) : Prop where
  registered : ∀ name, table.get? name ≠ none ↔ ∃ position < count, tree.RegistersAt position name
  impure : ∀ name, table.get? name = some false ↔ ∃ position < count, tree.Taints name position

section Step

variable {places : List (TermId × List TermId)} {count : Nat} {table : PurityTable} {id : TermId}
  {around : List TermId}

/-- A position that registers nothing demotes the function around it or leaves the table alone. -/
theorem Reflects.demote (reflects : tree.Reflects count table) (isPlaces : tree.Places places)
    (there : places[count]? = some (id, around)) (unnamed : tree.functionName? id = none)
    {demotes : Bool}
    (taints : ∀ name, tree.Taints name count ↔
      demotes = true ∧ tree.enclosing? around = some name) :
    tree.Reflects (count + 1)
      (if demotes then table.demote (tree.enclosing? around) else table) := by
  have linked := isPlaces.reachable_getElem? there
  have registers (name : String) : ¬tree.RegistersAt count name := by
    rintro ⟨other, otherThere, named⟩
    obtain rfl := Option.some.inj (linked.symm.trans otherThere)
    rw [unnamed] at named
    cases named
  have unchanged (none : ∀ name, ¬tree.Taints name count) : tree.Reflects (count + 1) table := by
    constructor <;> intro name
    · rw [Nat.exists_lt_succ_right, or_iff_left (registers name), reflects.registered]
    · rw [Nat.exists_lt_succ_right, or_iff_left (none name), reflects.impure]
  cases demotes with
  | false =>
    refine unchanged fun name tainted => ?_
    cases ((taints name).mp tainted).1
  | true =>
    cases inside : tree.enclosing? around with
    | none =>
      refine unchanged fun name tainted => ?_
      rw [inside] at taints
      cases ((taints name).mp tainted).2
    | some outer =>
      obtain ⟨earlier, isEarlier, registered⟩ := isPlaces.registered_first linked
        ((isPlaces.within_iff (List.mem_of_getElem? there)).mpr inside)
      simp only [inside, true_and, Option.some.injEq] at taints
      constructor <;> intro name
      · rw [Nat.exists_lt_succ_right, or_iff_left (registers name), ← reflects.registered]
        by_cases same : name = outer
        · subst same
          simp [PurityTable.demote, PurityTable.get?_mark,
            (reflects.registered name).mpr ⟨earlier, isEarlier, registered⟩]
        · simp [PurityTable.demote, PurityTable.get?_mark, same]
      · rw [Nat.exists_lt_succ_right, taints, ← reflects.impure]
        by_cases same : name = outer
        · simp [PurityTable.demote, PurityTable.get?_mark, same]
        · simp [PurityTable.demote, PurityTable.get?_mark, same, Ne.symm same]

/-- A position that registers a function does so for the first time. -/
theorem Reflects.register (reflects : tree.Reflects count table) (isPlaces : tree.Places places)
    (once : tree.NamesFunctionsOnce) (there : places[count]? = some (id, around)) {bound : String}
    (named : tree.functionName? id = some bound) (taints : ∀ name, ¬tree.Taints name count) :
    tree.Reflects (count + 1) (table.mark bound true) := by
  have registers : tree.RegistersAt count bound :=
    ⟨id, isPlaces.reachable_getElem? there, named⟩
  have onlyBound (name : String) : tree.RegistersAt count name ↔ name = bound := by
    constructor
    · rintro ⟨other, otherThere, otherNamed⟩
      obtain rfl := Option.some.inj ((isPlaces.reachable_getElem? there).symm.trans otherThere)
      exact Option.some.inj (otherNamed.symm.trans named)
    · rintro rfl
      exact registers
  have untainted : ¬∃ position < count, tree.Taints bound position := by
    rintro ⟨position, isBefore, tainted⟩
    obtain ⟨other, otherThere, within⟩ := tainted.within
    obtain ⟨earlier, isEarlier, registered⟩ := isPlaces.registered_first otherThere within
    have same := once.registersAt_unique registered registers
    omega
  constructor <;> intro name
  · rw [Nat.exists_lt_succ_right, onlyBound, ← reflects.registered, PurityTable.get?_mark]
    by_cases same : name = bound <;> simp [same]
  · rw [Nat.exists_lt_succ_right, or_iff_left (taints name), PurityTable.get?_mark]
    by_cases same : name = bound
    · subst same
      simp [untainted]
    · rw [if_neg same, reflects.impure]

theorem demotes_iff : tree.demotes table id = true ↔
    (∃ value, tree.get? id = some (.print value)) ∨
    ∃ callee function arguments, tree.get? id = some (.call function arguments) ∧
      tree.get? function = some (.var callee) ∧ table.get? callee = some false := by
  rw [demotes]
  constructor
  · intro demoted
    split at demoted
    · rename_i value held
      exact .inl ⟨value, held⟩
    · rename_i function arguments held
      split at demoted
      · rename_i callee called
        exact .inr ⟨callee, function, arguments, held, called,
          PurityTable.isKnownImpure_iff.mp demoted⟩
      · cases demoted
    · cases demoted
  · rintro (⟨value, held⟩ | ⟨callee, function, arguments, held, called, impure⟩)
    · rw [held]
    · simp only [held, called]
      exact PurityTable.isKnownImpure_iff.mpr impure

/-- Visiting the next position keeps the table up to date. -/
theorem Reflects.react (reflects : tree.Reflects count table) (isPlaces : tree.Places places)
    (once : tree.NamesFunctionsOnce) (there : places[count]? = some (id, around)) :
    tree.Reflects (count + 1) (tree.react table (id, around)) := by
  have linked := isPlaces.reachable_getElem? there
  have within {name : String} : tree.Within id name ↔ tree.enclosing? around = some name :=
    isPlaces.within_iff (List.mem_of_getElem? there)
  have taints (name : String) : tree.Taints name count ↔
      tree.demotes table id = true ∧ tree.enclosing? around = some name := by
    rw [taints_iff, demotes_iff]
    constructor
    · rintro (⟨other, value, otherThere, held, inside⟩ |
        ⟨callee, ⟨other, function, arguments, otherThere, held, called, inside⟩, earlier⟩)
      · obtain rfl := Option.some.inj (linked.symm.trans otherThere)
        exact ⟨.inl ⟨value, held⟩, within.mp inside⟩
      · obtain rfl := Option.some.inj (linked.symm.trans otherThere)
        exact ⟨.inr ⟨callee, function, arguments, held, called,
          (reflects.impure callee).mpr earlier⟩, within.mp inside⟩
    · rintro ⟨⟨value, held⟩ | ⟨callee, function, arguments, held, called, impure⟩, inside⟩
      · exact .inl ⟨id, value, linked, held, within.mpr inside⟩
      · exact .inr ⟨callee, ⟨id, function, arguments, linked, held, called, within.mpr inside⟩,
          (reflects.impure callee).mp impure⟩
  rw [TermTree.react]
  cases named : tree.functionName? id with
  | none => exact reflects.demote isPlaces there named taints
  | some name =>
    refine reflects.register isPlaces once there named fun other tainted => ?_
    obtain ⟨value, next, parameters, body, held, -⟩ := functionName?_eq_some.mp named
    have silent : tree.demotes table id = false := by rw [demotes, held]
    rw [taints, silent] at tainted
    cases tainted.1

/-- After the whole walk the table holds what all positions show. -/
theorem Places.reflects_foldl (isPlaces : tree.Places places) (once : tree.NamesFunctionsOnce)
    (count : Nat) (inRange : count ≤ places.length) :
    tree.Reflects count ((places.take count).foldl tree.react {}) := by
  induction count with
  | zero =>
    constructor <;> intro name
    · simp [PurityTable.get?]
    · simp [PurityTable.get?]
  | succ count inductionHypothesis =>
    have there : places[count]? = some places[count] := List.getElem?_eq_getElem inRange
    rw [List.take_add_one, there, Option.toList_some, List.foldl_append]
    exact (inductionHypothesis (Nat.le_of_succ_le inRange)).react isPlaces once there

end Step

theorem Unfolds.purity_eq_foldl (unfolds : tree.Unfolds unfolding)
    (rooted : unfolding.id = tree.root) (distinct : unfolding.ids.Nodup) :
    tree.purity = (unfolding.trails []).foldl tree.react {} := by
  have keeps : tree.KeepsEnclosing unfolding.id [] := rfl
  rw [purity, ← rooted]
  exact unfolds.visit_eq_foldl distinct (Nat.le_succ_of_le (unfolds.length_ids_le distinct)) keeps
    {}

/-- What is inferred about a tree is what all positions of the walk show. -/
theorem Reached.purity_reflects {term : Term} (reached : Reached term tree)
    (once : tree.NamesFunctionsOnce) : tree.Reflects tree.reachable.length tree.purity := by
  obtain ⟨unfolding, unfolds, rooted, distinct⟩ := reached.unfolds
  have isPlaces := unfolds.places rooted distinct
  have reflects := isPlaces.reflects_foldl once (unfolding.trails []).length (Nat.le_refl _)
  rwa [List.take_length, ← unfolds.purity_eq_foldl rooted distinct,
    ← List.length_map (Prod.fst : TermId × List TermId → TermId),
    ← isPlaces.reachable_eq] at reflects

/-- The inferred table has exactly the names that are bound to functions, and a name is known to be
impure if and only if a chain of calls leads from its function to a print, with every call after
what it leads to. -/
theorem purity_iff_impurityChain {term : Term} (reached : Reached term tree)
    (once : tree.NamesFunctionsOnce) (name : String) :
    (tree.purity.contains name = true ↔
      ∃ id ∈ tree.reachable, tree.functionName? id = some name) ∧
    (tree.purity.isKnownImpure name = true ↔
      ∃ position rest, tree.ImpurityChain ((name, position) :: rest)) := by
  have reflects := reached.purity_reflects once
  have inWalk {position : Nat} {id : TermId} (there : tree.reachable[position]? = some id) :
      position < tree.reachable.length := (List.getElem?_eq_some_iff.mp there).1
  constructor
  · rw [PurityTable.contains_iff, reflects.registered]
    constructor
    · rintro ⟨position, -, id, there, named⟩
      exact ⟨id, List.mem_of_getElem? there, named⟩
    · rintro ⟨id, linked, named⟩
      obtain ⟨position, there⟩ := List.mem_iff_getElem?.mp linked
      exact ⟨position, inWalk there, id, there, named⟩
  · rw [PurityTable.isKnownImpure_iff, reflects.impure]
    constructor
    · rintro ⟨position, -, tainted⟩
      exact ⟨position, tainted⟩
    · rintro ⟨position, tainted⟩
      obtain ⟨id, there, -⟩ := Taints.within tainted
      exact ⟨position, inWalk there, tainted⟩

/-- `wrapper` calls `log`, which prints, and `early` calls `late`, which prints but is bound
afterwards. -/
def lateLog : Term :=
  .letIn "log" (.function ["x"] (.print (.var "x")))
    (.letIn "wrapper" (.function ["y"] (.tuple (.function [] (.call (.var "log") [])) (.var "y")))
      (.letIn "early" (.function [] (.call (.var "late") []))
        (.letIn "late" (.function [] (.print (.int 1))) (.call (.var "early") []))))

theorem purity_iff_impurityChain_lateLog :
    Reached lateLog (ofTerm lateLog) ∧ (ofTerm lateLog).NamesFunctionsOnce ∧
      (∃ position rest, (ofTerm lateLog).ImpurityChain (("wrapper", position) :: rest)) ∧
      ¬∃ position rest, (ofTerm lateLog).ImpurityChain (("early", position) :: rest) := by
  have once : (ofTerm lateLog).NamesFunctionsOnce := by
    rw [NamesFunctionsOnce]
    decide
  refine ⟨.laidOut, once, (purity_iff_impurityChain .laidOut once "wrapper").2.mp (by decide), ?_⟩
  rw [← (purity_iff_impurityChain .laidOut once "early").2]
  decide

end TermTree

end TreeScript
