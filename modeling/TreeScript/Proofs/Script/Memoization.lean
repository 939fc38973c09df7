/-
This file says which calls share entries of the memo cache. A call goes through
the memo helper if its callee is a variable whose name is known to be pure, and
that name is the key of its entries. Whether it does is seen in the script: no
other expression starts in the same way.

The table of pure names knows nothing of scopes. It has a name because some
binding gives it to a function, and not because the callee refers to that binding.
Where only one node of the program introduces the name these are the same. Where
another scope introduces it again, as a parameter or for another function, calls of
both share their entries.
-/

import TreeScript.Proofs.Purity.Silence
import TreeScript.Proofs.Script.Tokens

namespace TreeScript

open Script

/-! ### Calls of the memo helper -/

namespace Script

/-- How a call of the memo helper with this key starts. -/
def keyedTokens (name : String) : List Token :=
  helperTokens .memoize ++ [.sign "(", .word (identifier name), .sign ",", .string (units name)]

/-- The start tells the key. -/
theorem keyedTokens_append_inj {name other : String} {more rest : List Token}
    (same : keyedTokens name ++ more = keyedTokens other ++ rest) : name = other := by
  have key : units name = units other := by
    simp only [keyedTokens, helperTokens, List.cons_append, List.nil_append, List.cons.injEq,
      Token.string.injEq] at same
    obtain ⟨-, -, -, -, -, -, key, -⟩ := same
    exact key
  exact units_injective key

theorem callTokens_memoize (name : String) (entries : List (List Token)) :
    ∃ more, callTokens (helperTokens .memoize)
      ([.word (identifier name)] :: [.string (units name)] :: entries) =
        keyedTokens name ++ more := by
  cases entries with
  | nil => exact ⟨[.sign ")"], rfl⟩
  | cons entry entries =>
    exact ⟨[.sign ","] ++ listTokens (entry :: entries) ++ [.sign ")"], by
      simp [callTokens, listTokens, keyedTokens]⟩

/-- The text of a call of the memo helper for the function with this name. -/
def keyedText (name : String) (arguments : List String) : String :=
  callText Helper.memoize.qualified (identifier name :: literal name :: arguments)

theorem reads_keyedText (name : String) (arguments : List String) :
    ∃ rest, Reads (keyedText name arguments).toList (keyedTokens name) rest := by
  obtain ⟨more, spelled⟩ := Reader.intercalate_eq_append (literal name) arguments
  have function := (readsAs_helper .memoize).fixed readsFixed_opening rfl
  have keyed := (function.part (readsAs_identifier name)).fixed readsFixed_comma rfl
  refine ⟨more ++ ")".toList, ?_⟩
  have reads := (keyed ((literal name).toList ++ (more ++ ")".toList))).trans
    (readsFixed_literal name _)
  simp only [keyedText, callText, String.intercalate_cons_cons, String.toList_append, spelled,
    List.append_assoc] at reads ⊢
  exact reads

end Script

namespace Term

variable {memoized : String → Bool}

/-- Of all expressions only calls of memoized names start like a call of the memo helper. -/
theorem eq_call_of_tokens_eq {term : Term} {name : String} {rest : List Token}
    (spelled : term.tokens memoized .value = keyedTokens name ++ rest) :
    (∃ arguments, term = .call (.var name) arguments) ∧ memoized name = true := by
  cases term with
  | call callee arguments =>
    rw [tokens, Position.tokens] at spelled
    split at spelled
    next called isVar =>
      obtain rfl := eq_var_of_varName? isVar
      split at spelled
      next remembered =>
        obtain ⟨more, starts⟩ := callTokens_memoize called (tokensAll memoized arguments)
        obtain rfl := keyedTokens_append_inj (starts.symm.trans spelled)
        exact ⟨⟨arguments, rfl⟩, remembered⟩
      next => simp [callTokens, keyedTokens, helperTokens] at spelled
    next => simp [callTokens, keyedTokens, helperTokens] at spelled
  | binary op lhs rhs =>
    cases op <;> simp [tokens, Position.tokens, binaryTokens, keyedTokens, helperTokens,
      supportName] at spelled
  | int value =>
    rw [tokens, Position.tokens, integerTokens] at spelled
    split at spelled <;> simp [numberToken, keyedTokens, helperTokens] at spelled
  | _ =>
    simp [tokens, Position.tokens, functionTokens, arrowTokens, conditionalTokens, callTokens,
      keyedTokens, helperTokens, Helper.name] at spelled

/-- A term is written as a call of the memo helper exactly if it is a call of a memoized name, and
the key is that name. -/
theorem translate_eq_keyedText_iff {term : Term} {name : String} :
    (∃ arguments, term.translate memoized .value = keyedText name arguments) ↔
      (∃ arguments, term = .call (.var name) arguments) ∧ memoized name = true := by
  constructor
  · rintro ⟨arguments, written⟩
    obtain ⟨rest, starts⟩ := reads_keyedText name arguments
    have whole : Reads _ (term.tokens memoized .value) [] := term.readsAs_translate .value [] rfl
    rw [List.append_nil, written] at whole
    obtain ⟨others, spelled, -⟩ := starts.split whole
    exact eq_call_of_tokens_eq spelled
  · rintro ⟨⟨arguments, rfl⟩, remembered⟩
    exact ⟨translateAll memoized arguments, by
      simp [translate, Position.text, varName?, remembered, keyedText]⟩

end Term

/-! ### Calls of the memo helper in a tree -/

/-- Emission writes the node at an id as a call of the memo helper with this key. -/
def Script.Context.Memoizes (context : Context) (id : TermId) (name : String) : Prop :=
  ∃ arguments progress, (context.emit (context.tree.size + 1) .expression id).run {} =
    .ok (keyedText name arguments, progress)

theorem Node.eq_var_of_varName? {node : Node} {name : String}
    (isVar : node.varName? = some name) : node = .var name := by
  cases node with
  | var => exact congrArg var (Option.some.inj isVar)
  | _ => cases isVar

namespace TermTree

variable {tree : TermTree} {unfolding : Unfolding}

/-- The node at an id is a call of a variable with this name. -/
def CallsName (tree : TermTree) (id : TermId) (name : String) : Prop :=
  ∃ callee arguments, tree.get? id = some (.call callee arguments) ∧
    tree.get? callee = some (.var name)

theorem Unfolds.term_eq_call_iff (unfolds : tree.Unfolds unfolding) {name : String} :
    (∃ arguments, unfolding.term = .call (.var name) arguments) ↔
      tree.CallsName unfolding.id name := by
  constructor
  · rintro ⟨arguments, spelled⟩
    obtain ⟨id, calleePart, argumentParts, rfl, isVar⟩ := unfolds.eq_call spelled
    have calleeUnfolds : tree.Unfolds calleePart := unfolds.part (by simp)
    have named : calleePart.node.varName? = some name := by
      rw [← calleeUnfolds.varName?_term, isVar]
      rfl
    exact ⟨_, _, unfolds.get?, Node.eq_var_of_varName? named ▸ calleeUnfolds.get?⟩
  · rintro ⟨callee, arguments, isCall, isVar⟩
    obtain @⟨id, node, parts, held, linked, below⟩ := unfolds
    cases held.symm.trans isCall
    obtain ⟨calleePart, argumentParts, rfl, rfl, rfl⟩ := List.map_eq_cons_iff.mp linked.symm
    refine ⟨argumentParts.map Unfolding.term, ?_⟩
    rw [Unfolding.term_mk, List.map_cons, (below calleePart List.mem_cons_self).term_var isVar]
    rfl

/-- At every moment of a session the calls that go through the memo helper are those of memoized
names, and their keys are these names. -/
theorem Reached.memoizes_iff {term : Term} {context : Context} (reached : Reached term context.tree)
    {id : TermId} (linked : id ∈ context.tree.reachable) {name : String} :
    context.Memoizes id name ↔ context.tree.CallsName id name ∧ context.memoized name = true := by
  obtain ⟨whole, wholeUnfolds, rooted, wholeDistinct⟩ := reached.unfolds
  rw [mem_reachable_iff wholeUnfolds rooted wholeDistinct] at linked
  obtain ⟨unfolding, unfolds, rfl, distinct⟩ := reached.unfolds_at (wholeUnfolds.lt_size linked)
  have enough := Nat.le_succ_of_le (unfolds.length_ids_le distinct)
  obtain ⟨tails, emitted, -⟩ := (unfolds.emitsAt distinct enough).value {} (by simp)
  rw [← unfolds.term_eq_call_iff, ← Term.translate_eq_keyedText_iff]
  constructor
  · rintro ⟨arguments, progress, written⟩
    exact ⟨arguments, (Prod.mk.inj (Except.ok.inj (emitted.symm.trans written))).1⟩
  · rintro ⟨arguments, written⟩
    rw [written] at emitted
    exact ⟨arguments, _, emitted⟩

/-! ### Names in the table -/

/-- A visit makes a name known only if a binding at the place or around it gives the name to a
function. -/
theorem known_of_react {table : PurityTable} {id : TermId} {around : List TermId} {name : String}
    (known : (tree.react table (id, around)).get? name ≠ none) :
    table.get? name ≠ none ∨
      ∃ binding ∈ id :: around, tree.functionName? binding = some name := by
  have marked {other : String} {pure : Bool} (known : (table.mark other pure).get? name ≠ none) :
      table.get? name ≠ none ∨ name = other := by
    rw [PurityTable.get?_mark] at known
    split at known
    · exact .inr ‹_›
    · exact .inl known
  rw [react] at known
  split at known
  next other named =>
    refine (marked known).imp_right ?_
    rintro rfl
    exact ⟨id, List.mem_cons_self, named⟩
  next =>
    split at known
    · cases inside : tree.enclosing? around with
      | none =>
        rw [inside] at known
        exact .inl known
      | some other =>
        rw [inside] at known
        refine (marked known).imp_right ?_
        rintro rfl
        obtain ⟨binding, member, named⟩ := exists_functionName?_of_enclosing? inside
        exact ⟨binding, List.mem_cons_of_mem _ member, named⟩
    · exact .inl known

/-- So does a walk. -/
theorem known_of_foldl_react {places : List (TermId × List TermId)} {table : PurityTable}
    {name : String} (known : (places.foldl tree.react table).get? name ≠ none) :
    table.get? name ≠ none ∨ ∃ place ∈ places, ∃ binding ∈ place.1 :: place.2,
      tree.functionName? binding = some name := by
  induction places generalizing table with
  | nil => exact .inl known
  | cons place places inductionHypothesis =>
    rcases inductionHypothesis known with known | ⟨later, member, found⟩
    · exact (known_of_react known).imp_right fun found => ⟨place, List.mem_cons_self, found⟩
    · exact .inr ⟨later, List.mem_cons_of_mem _ member, found⟩

/-- What stands around a linked node is linked. -/
theorem Places.linked_of_mem_around {places : List (TermId × List TermId)}
    (isPlaces : tree.Places places) {id : TermId} {around : List TermId}
    (trail : tree.Trail tree.root id around) {outer : TermId} (member : outer ∈ around) :
    outer ∈ tree.reachable := by
  induction trail with
  | here => cases member
  | @part id child around trail _ inductionHypothesis =>
    rcases List.mem_cons.mp member with rfl | further
    · exact isPlaces.linked outer around trail
    · exact inductionHypothesis further

/-- Every name in the table is given to a function by a linked binding, whether or not other nodes
introduce the name too. -/
theorem Reached.exists_functionName? {term : Term} (reached : Reached term tree) {name : String}
    (known : tree.purity.get? name ≠ none) :
    ∃ binding ∈ tree.reachable, tree.functionName? binding = some name := by
  obtain ⟨unfolding, unfolds, rooted, distinct⟩ := reached.unfolds
  have isPlaces := unfolds.places rooted distinct
  rw [unfolds.purity_eq_foldl rooted distinct] at known
  rcases known_of_foldl_react known with none | ⟨⟨id, around⟩, member, binding, inside, named⟩
  · exact absurd rfl none
  · have trail := isPlaces.trail id around member
    refine ⟨binding, ?_, named⟩
    rcases List.mem_cons.mp inside with rfl | inAround
    · exact isPlaces.linked binding around trail
    · exact isPlaces.linked_of_mem_around trail inAround

/-! ### Keys and binders -/

/-- At most one linked node introduces the name. -/
def IntroducedOnce (tree : TermTree) (name : String) : Prop :=
  (tree.reachable.filter (tree.binds name)).length ≤ 1

instance (tree : TermTree) (name : String) : Decidable (tree.IntroducedOnce name) :=
  inferInstanceAs (Decidable (_ ≤ _))

/-- No node introduces a name that a node around it introduces. -/
def Unshadowed (tree : TermTree) : Prop :=
  ∀ id around name, tree.Trail tree.root id around → tree.binds name id = true →
    ∀ outer ∈ around, tree.binds name outer = false

/-- The node at an id is a call, and its callee is a variable that refers to this binder. -/
def CallsBinder (tree : TermTree) (id binder : TermId) : Prop :=
  ∃ callee arguments, tree.get? id = some (.call callee arguments) ∧
    tree.Resolves callee (some binder)

theorem IntroducedOnce.eq_of_binds {name : String} (once : tree.IntroducedOnce name)
    {id other : TermId} (linked : id ∈ tree.reachable) (otherLinked : other ∈ tree.reachable)
    (bound : tree.binds name id = true) (otherBound : tree.binds name other = true) :
    id = other := by
  have member := List.mem_filter.mpr ⟨linked, bound⟩
  have otherMember := List.mem_filter.mpr ⟨otherLinked, otherBound⟩
  unfold IntroducedOnce at once
  generalize tree.reachable.filter (tree.binds name) = introducing at once member otherMember
  match introducing with
  | [] => cases member
  | [_] => exact (List.mem_singleton.mp member).trans (List.mem_singleton.mp otherMember).symm

theorem mem_boundNames_iff {id : TermId} {name : String} :
    name ∈ tree.boundNames id ↔ tree.binds name id = true := by
  rw [boundNames, binds]
  cases tree.get? id with
  | none => simp
  | some node =>
    cases node with
    | letIn bound => simpa [Node.binds] using eq_comm
    | _ => simp [Node.binds]

/-- A trail is a chain of links that ends at its start. -/
theorem trail_of_isChain {start id : TermId} {around : List TermId}
    (chain : (id :: around).IsChain fun child outer => child ∈ tree.children outer)
    (starts : (id :: around).getLast? = some start) : tree.Trail start id around := by
  induction around generalizing id with
  | nil =>
    cases starts
    exact .here
  | cons outer around inductionHypothesis =>
    obtain ⟨member, chain⟩ := List.isChain_cons_cons.mp chain
    exact .part (inductionHypothesis chain (by simpa using starts)) member

theorem binds_of_functionName? {binding : TermId} {name : String}
    (named : tree.functionName? binding = some name) : tree.binds name binding = true := by
  rw [← mem_boundNames_iff, boundNames_of_functionName? named]
  exact List.mem_singleton_self name

/-- In a closed program the callee of a call by name refers to a linked node that introduces the
name. -/
theorem Reached.exists_callsBinder {term : Term} (reached : Reached term tree)
    (closed : tree.Closed) {id : TermId} (linked : id ∈ tree.reachable) {name : String}
    (calls : tree.CallsName id name) :
    ∃ binder ∈ tree.reachable, tree.binds name binder = true ∧ tree.CallsBinder id binder := by
  obtain ⟨unfolding, unfolds, rooted, distinct⟩ := reached.unfolds
  have isPlaces := unfolds.places rooted distinct
  obtain ⟨callee, arguments, isCall, isVar⟩ := calls
  have isChild : callee ∈ tree.children id := by simp [children, isCall, Node.children]
  have calleeLinked : callee ∈ tree.reachable :=
    (isPlaces.parent_first id linked callee isChild).subset (by simp)
  obtain ⟨binder, resolves⟩ := closed callee calleeLinked name isVar
  refine ⟨binder, ?_, ?_, callee, arguments, isCall, resolves⟩
  all_goals
    obtain ⟨read, around, held, trail, found⟩ := resolves
    cases held.symm.trans isVar
  · exact isPlaces.linked_of_mem_around trail (List.mem_of_find?_eq_some found)
  · exact List.find?_some found

/-- A call has one binder only. -/
theorem Reached.callsBinder_iff {term : Term} (reached : Reached term tree) {id binder : TermId}
    (calls : tree.CallsBinder id binder) {other : TermId} :
    tree.CallsBinder id other ↔ other = binder := by
  obtain ⟨unfolding, unfolds, rooted, distinct⟩ := reached.unfolds
  constructor
  · rintro ⟨otherCallee, _, otherCall, otherResolves⟩
    obtain ⟨callee, _, isCall, resolves⟩ := calls
    cases isCall.symm.trans otherCall
    exact Option.some.inj (otherResolves.unique unfolds rooted distinct resolves)
  · rintro rfl
    exact calls

/-- Where only one linked node introduces the key of a call and binds it to a function, the call
is one of that function. -/
theorem Reached.callsBinder_of_memoizes {term : Term} {context : Context}
    (reached : Reached term context.tree) (closed : context.tree.Closed) {name : String}
    (once : context.tree.IntroducedOnce name) {binding : TermId}
    (bindingLinked : binding ∈ context.tree.reachable)
    (named : context.tree.functionName? binding = some name) {id : TermId}
    (linked : id ∈ context.tree.reachable) (memoizes : context.Memoizes id name) :
    context.tree.CallsBinder id binding := by
  have calls := ((reached.memoizes_iff linked).mp memoizes).1
  obtain ⟨binder, binderLinked, bound, callsBinder⟩ :=
    reached.exists_callsBinder closed linked calls
  rwa [once.eq_of_binds bindingLinked binderLinked (binds_of_functionName? named) bound]

/-- Calls that go through the memo helper with the same key call one function, and a binding gives
the key to that function, if no other linked node introduces the key. Other names may be introduced
any number of times. -/
theorem memoized_calls_share_binding {term : Term} (reached : Reached term tree)
    (closed : tree.Closed) (memoize : Bool) {name : String} (once : tree.IntroducedOnce name)
    {id other : TermId} (linked : id ∈ tree.reachable) (otherLinked : other ∈ tree.reachable)
    (memoizes : Context.Memoizes ⟨tree, tree.purity, memoize⟩ id name)
    (otherMemoizes : Context.Memoizes ⟨tree, tree.purity, memoize⟩ other name) :
    ∃ binding, tree.functionName? binding = some name ∧ tree.CallsBinder id binding ∧
      tree.CallsBinder other binding := by
  have isPure : tree.purity.isPure name = true :=
    (Bool.and_eq_true_iff.mp ((reached.memoizes_iff linked).mp memoizes).2).2
  have known : tree.purity.get? name ≠ none := by simp [PurityTable.isPure_iff.mp isPure]
  obtain ⟨binding, bindingLinked, named⟩ := reached.exists_functionName? known
  exact ⟨binding, named,
    reached.callsBinder_of_memoizes closed once bindingLinked named linked memoizes,
    reached.callsBinder_of_memoizes closed once bindingLinked named otherLinked otherMemoizes⟩

/-- `apply` calls its parameter `f`, and elsewhere `f` is a function. -/
def sharedKey : Term :=
  .letIn "apply" (.function ["f"] (.call (.var "f") []))
    (.letIn "f" (.function [] (.int 1))
      (.letIn "g" (.function [] (.int 2))
        (.tuple (.call (.var "f") [])
          (.tuple (.call (.var "apply") [.var "f"]) (.call (.var "apply") [.var "g"])))))

namespace sharedKey

/-- The ids of the program with their trails. -/
def places : List (TermId × List TermId) :=
  [(0, []), (1, [0]), (2, [1, 0]), (3, [2, 1, 0]), (4, [0]), (5, [4, 0]), (6, [5, 4, 0]),
    (7, [4, 0]), (8, [7, 4, 0]), (9, [8, 7, 4, 0]), (10, [7, 4, 0]), (11, [10, 7, 4, 0]),
    (12, [11, 10, 7, 4, 0]), (13, [10, 7, 4, 0]), (14, [13, 10, 7, 4, 0]),
    (15, [14, 13, 10, 7, 4, 0]), (16, [14, 13, 10, 7, 4, 0]), (17, [13, 10, 7, 4, 0]),
    (18, [17, 13, 10, 7, 4, 0]), (19, [17, 13, 10, 7, 4, 0])]

theorem reachable_eq : (ofTerm sharedKey).reachable = places.map Prod.fst := by
  decide

theorem mem_places {id : TermId} {around : List TermId} :
    (id, around) ∈ places ↔ (ofTerm sharedKey).Trail 0 id around := by
  have chains : ∀ place ∈ places, (place.1 :: place.2).IsChain
      (fun child outer => child ∈ (ofTerm sharedKey).children outer) ∧
      (place.1 :: place.2).getLast? = some 0 := by decide
  have trail {id : TermId} {around : List TermId} (member : (id, around) ∈ places) :
      (ofTerm sharedKey).Trail 0 id around :=
    trail_of_isChain (chains _ member).1 (chains _ member).2
  refine ⟨trail, fun other => ?_⟩
  obtain ⟨unfolding, unfolds, rooted, distinct⟩ := (.laidOut : Reached sharedKey _).unfolds
  have isPlaces := unfolds.places rooted distinct
  have linked := isPlaces.linked id around other
  rw [reachable_eq] at linked
  obtain ⟨⟨_, others⟩, member, rfl⟩ := List.mem_map.mp linked
  rwa [isPlaces.trail_unique _ _ _ other (trail member)]

theorem closed : (ofTerm sharedKey).Closed := by
  have resolved : ∀ place ∈ places, ∀ name ∈ ((ofTerm sharedKey).get? place.1).bind Node.varName?,
      (place.2.find? ((ofTerm sharedKey).binds name)).isSome = true := by decide
  intro id linked name held
  rw [reachable_eq] at linked
  obtain ⟨⟨_, around⟩, member, rfl⟩ := List.mem_map.mp linked
  obtain ⟨binder, found⟩ := Option.isSome_iff_exists.mp
    (resolved _ member name (by rw [held]; rfl))
  exact ⟨binder, name, around, held, mem_places.mp member, found⟩

theorem unshadowed : (ofTerm sharedKey).Unshadowed := by
  have apart : ∀ place ∈ places, ∀ name ∈ (ofTerm sharedKey).boundNames place.1,
      ∀ outer ∈ place.2, (ofTerm sharedKey).binds name outer = false := by decide
  intro id around name trail bound
  exact apart _ (mem_places.mpr trail) name (mem_boundNames_iff.mpr bound)

/-- Where the calls by name are, and which names go through the memo helper. -/
theorem memoizes {id : TermId} {name : String}
    (site : (id, name) ∈ [(2, "f"), (11, "f"), (14, "apply"), (17, "apply")]) :
    Context.Memoizes ⟨ofTerm sharedKey, (ofTerm sharedKey).purity, true⟩ id name := by
  have reached : Reached sharedKey (ofTerm sharedKey) := .laidOut
  have isPure : ∀ name ∈ ["f", "apply"], (ofTerm sharedKey).purity.isPure name = true := by decide
  simp only [List.mem_cons, List.not_mem_nil, or_false, Prod.mk.injEq] at site
  obtain ⟨rfl, rfl⟩ | ⟨rfl, rfl⟩ | ⟨rfl, rfl⟩ | ⟨rfl, rfl⟩ := site
  all_goals
    exact (reached.memoizes_iff (by decide)).mpr ⟨⟨_, _, rfl, rfl⟩, isPure _ (by decide)⟩

end sharedKey

/-- Both calls of `apply` share entries, and they call the same function. -/
theorem memoized_calls_share_binding_sharedKey :
    ∃ binding, (ofTerm sharedKey).functionName? binding = some "apply" ∧
      (ofTerm sharedKey).CallsBinder 14 binding ∧ (ofTerm sharedKey).CallsBinder 17 binding :=
  memoized_calls_share_binding (.laidOut : Reached sharedKey _) sharedKey.closed true (by decide)
    (by decide) (by decide) (sharedKey.memoizes (by decide)) (sharedKey.memoizes (by decide))

/-- It is not enough that no node introduces a name again inside of its scope. The first and the
second call of `f` share entries, but the first one calls a parameter. -/
theorem memoized_calls_mix_binders :
    (ofTerm sharedKey).Closed ∧ (ofTerm sharedKey).Unshadowed ∧
    Context.Memoizes ⟨ofTerm sharedKey, (ofTerm sharedKey).purity, true⟩ 2 "f" ∧
    Context.Memoizes ⟨ofTerm sharedKey, (ofTerm sharedKey).purity, true⟩ 11 "f" ∧
    (∀ binder, (ofTerm sharedKey).CallsBinder 2 binder ↔ binder = 1) ∧
    (∀ binder, (ofTerm sharedKey).CallsBinder 11 binder ↔ binder = 4) ∧
    (ofTerm sharedKey).get? 1 = some (.function ["f"] 2) ∧
    (ofTerm sharedKey).functionName? 4 = some "f" := by
  have reached : Reached sharedKey (ofTerm sharedKey) := .laidOut
  have parameter : (ofTerm sharedKey).CallsBinder 2 1 :=
    ⟨3, [], rfl, "f", [2, 1, 0], rfl, sharedKey.mem_places.mp (by decide), rfl⟩
  have function : (ofTerm sharedKey).CallsBinder 11 4 :=
    ⟨12, [], rfl, "f", [11, 10, 7, 4, 0], rfl, sharedKey.mem_places.mp (by decide), rfl⟩
  exact ⟨sharedKey.closed, sharedKey.unshadowed, sharedKey.memoizes (by decide),
    sharedKey.memoizes (by decide), fun _ => reached.callsBinder_iff parameter,
    fun _ => reached.callsBinder_iff function, rfl, by decide⟩

end TermTree

end TreeScript
