/-
This file says when a variable keeps its binder in the script. Names become
identifiers one by one, without regard to what other names become, and so two names
can meet in one identifier. Which names meet is settled first, for all pairs: those
that are spelled alike once characters are replaced, and those of which one is
spelled like the other with the underscore that sets it apart from a number, a
reserved word or the support module. A spelling that was set apart once is not set
apart again, and so there is no third way.

In the script a variable belongs to the innermost binder around it with its
identifier. That is its own binder exactly if no binder between the two has a name
that meets its name. Names that are all different are not enough for this: any two
different names that meet are captured in some program.
-/

import TreeScript.Proofs.Script.Identifier
import TreeScript.Proofs.Script.Memoization

namespace TreeScript

/-! ### Names that meet -/

namespace Script

/-- A name with an underscore for each character that an identifier cannot hold. -/
def spelling (name : String) : String :=
  String.ofList (replaceChars name.toList)

/-- Whether a word starts with a digit, is reserved or is the name of the support module. -/
def isTaken (word : String) : Bool :=
  word.toList.head?.any Char.isDigit || word ∈ reservedWords || word = supportName

/-- What a spelling becomes if it cannot stand as it is. -/
def setApart? (word : String) : Option String :=
  if word = "" then some "_value" else if isTaken word then some ("_" ++ word) else none

/-- Two names are spelled alike, or one is spelled like what the other becomes. -/
def Meet (name other : String) : Prop :=
  spelling name = spelling other ∨ setApart? (spelling name) = some (spelling other) ∨
    setApart? (spelling other) = some (spelling name)

instance (name other : String) : Decidable (Meet name other) :=
  inferInstanceAs (Decidable (_ ∨ _ ∨ _))

theorem setApart?_eq_some {word apart : String} (isApart : setApart? word = some apart) :
    (word = "" ∧ apart = "_value") ∨ (isTaken word = true ∧ apart = "_" ++ word) := by
  rw [setApart?] at isApart
  split at isApart
  next empty => exact Or.inl ⟨empty, (Option.some.inj isApart).symm⟩
  next =>
    split at isApart
    next taken => exact Or.inr ⟨taken, (Option.some.inj isApart).symm⟩
    next => cases isApart

theorem underscore_ne_supportName {word : String} (taken : isTaken word = true) :
    "_" ++ word ≠ supportName := by
  intro same
  obtain rfl := underscore_inj (show "_" ++ word = "_" ++ "_rinha" from same)
  revert taken
  decide

/-- What a spelling becomes can stand as it is. -/
theorem setApart?_of_setApart? {word apart : String} (isApart : setApart? word = some apart) :
    setApart? apart = none := by
  obtain ⟨-, rfl⟩ | ⟨taken, rfl⟩ := setApart?_eq_some isApart
  · decide
  · have notEmpty : "_" ++ word ≠ "" := by
      intro same
      have noChars := congrArg String.toList same
      rw [toList_underscore] at noChars
      cases noChars
    have notTaken : isTaken ("_" ++ word) = false := by
      have notDigit : ('_' : Char).isDigit = false := by decide
      simp [isTaken, notMem_reservedWords_underscore, underscore_ne_supportName taken, notDigit]
    rw [setApart?, if_neg notEmpty, notTaken, if_neg Bool.false_ne_true]

/-- Different spellings become different words. -/
theorem setApart?_inj {word other apart : String} (isApart : setApart? word = some apart)
    (otherApart : setApart? other = some apart) : word = other := by
  -- no word in front of which an underscore is put becomes the stand-in for the empty one
  have notValue {taken : String} (isTaken : isTaken taken = true) : "_value" ≠ "_" ++ taken := by
    intro same
    obtain rfl := underscore_inj (show "_" ++ "value" = "_" ++ taken from same)
    revert isTaken
    decide
  obtain ⟨rfl, rfl⟩ | ⟨taken, rfl⟩ := setApart?_eq_some isApart
  · obtain ⟨rfl, -⟩ | ⟨taken, same⟩ := setApart?_eq_some otherApart
    · rfl
    · exact absurd same (notValue taken)
  · obtain ⟨rfl, same⟩ | ⟨-, same⟩ := setApart?_eq_some otherApart
    · exact absurd same.symm (notValue taken)
    · exact underscore_inj same

theorem sanitize_eq (name : String) :
    sanitize name =
      if spelling name = "" then "_value"
      else if (spelling name).toList.head?.any Char.isDigit then "_" ++ spelling name
      else spelling name := by
  rw [sanitize, spelling]
  cases replaceChars name.toList with
  | nil => rfl
  | cons c cs =>
    have notEmpty : String.ofList (c :: cs) ≠ "" := by simp
    have inFront : String.ofList ('_' :: c :: cs) = "_" ++ String.ofList (c :: cs) := by
      rw [← String.toList_inj, toList_underscore, String.toList_ofList, String.toList_ofList]
    rw [if_neg notEmpty, String.toList_ofList, ← inFront]
    exact apply_ite String.ofList _ _ _

theorem identifier_eq_getD (name : String) :
    identifier name = (setApart? (spelling name)).getD (spelling name) := by
  simp only [identifier, sanitize_eq]
  generalize spelling name = word
  by_cases empty : word = ""
  · subst empty
    decide
  by_cases digit : word.toList.head?.any Char.isDigit = true
  · have taken : isTaken word = true := by rw [isTaken, digit, Bool.true_or, Bool.true_or]
    -- one underscore is enough: with it in front the word is not taken for another reason
    have free : ¬("_" ++ word ∈ reservedWords ∨ "_" ++ word = supportName) :=
      not_or.mpr ⟨notMem_reservedWords_underscore word, underscore_ne_supportName taken⟩
    rw [setApart?, if_neg empty, if_pos taken]
    simp only [if_neg empty, if_pos digit, if_neg free, Option.getD_some]
  · have isTaken_iff : isTaken word = true ↔ word ∈ reservedWords ∨ word = supportName := by
      simp [isTaken, Bool.eq_false_iff.mpr digit]
    simp only [setApart?, if_neg empty, if_neg digit, isTaken_iff]
    split <;> rfl

/-- Which names become one identifier. -/
theorem identifier_eq_iff {name other : String} :
    identifier name = identifier other ↔ Meet name other := by
  rw [identifier_eq_getD, identifier_eq_getD, Meet]
  cases isApart : setApart? (spelling name) with
  | none =>
    cases otherApart : setApart? (spelling other) with
    | none => simp
    | some word =>
      have different : spelling name ≠ spelling other := by
        intro same
        rw [same, otherApart] at isApart
        cases isApart
      simp [different, eq_comm]
  | some word =>
    cases otherApart : setApart? (spelling other) with
    | none =>
      have different : spelling name ≠ spelling other := by
        intro same
        rw [same, otherApart] at isApart
        cases isApart
      simp [different]
    | some otherWord =>
      constructor
      · rintro (rfl : word = otherWord)
        exact Or.inl (setApart?_inj isApart otherApart)
      · rintro (same | same | same)
        · rw [same, otherApart] at isApart
          exact (Option.some.inj isApart).symm
        · cases same
          cases (setApart?_of_setApart? isApart).symm.trans otherApart
        · cases same
          cases (setApart?_of_setApart? otherApart).symm.trans isApart

end Script

/-! ### The binder of a variable -/

namespace TermTree

open Script (identifier Meet identifier_eq_iff)

/-- The names that a node introduces, each with its id, the innermost first: of two parameters
the later one stands inside. -/
def binders (tree : TermTree) (id : TermId) : List (TermId × String) :=
  (tree.boundNames id).reverse.map (Prod.mk id)

/-- A variable belongs to the innermost binder around it that is spelled as it is, where `spell`
says how names are spelled. -/
def BelongsTo (tree : TermTree) (spell : String → String) (id : TermId)
    (binder : TermId × String) : Prop :=
  ∃ name around, tree.get? id = some (.var name) ∧ tree.Trail tree.root id around ∧
    (around.flatMap tree.binders).find? (fun inner => spell inner.2 == spell name) = some binder

/-- A binder stands around an id and inside of another binder. -/
def Between (tree : TermTree) (id : TermId) (binder inner : TermId × String) : Prop :=
  ∃ around, tree.Trail tree.root id around ∧
    inner ∈ (around.flatMap tree.binders).takeWhile (· ≠ binder)

variable {tree : TermTree} {term : Term}

theorem find?_binders (id : TermId) (name : String) :
    (tree.binders id).find? (fun inner => inner.2 == name) =
      if tree.binds name id then some (id, name) else none := by
  split
  next bound =>
    have member : (id, name) ∈ tree.binders id :=
      List.mem_map_of_mem (List.mem_reverse.mpr (mem_boundNames_iff.mpr bound))
    obtain ⟨⟨other, found⟩, isFound⟩ :
        ∃ binder, (tree.binders id).find? (fun inner => inner.2 == name) = some binder :=
      Option.isSome_iff_exists.mp (List.find?_isSome.mpr ⟨_, member, beq_self_eq_true name⟩)
    obtain ⟨_, -, same⟩ := List.mem_map.mp (List.mem_of_find?_eq_some isFound)
    have isName := List.find?_some isFound
    obtain rfl : found = name := eq_of_beq isName
    rw [isFound, (Prod.mk.inj same).1]
  next notBound =>
    rw [List.find?_eq_none]
    rintro ⟨_, found⟩ member isName
    obtain rfl : found = name := eq_of_beq isName
    obtain ⟨_, bound, same⟩ := List.mem_map.mp member
    rw [(Prod.mk.inj same).2] at bound
    exact notBound (mem_boundNames_iff.mp (List.mem_reverse.mp bound))

/-- The first binder with a name is at the first node that introduces it. -/
theorem find?_flatMap_binders (around : List TermId) (name : String) :
    (around.flatMap tree.binders).find? (fun inner => inner.2 == name) =
      (around.find? (tree.binds name)).map fun id => (id, name) := by
  induction around with
  | nil => rfl
  | cons outer around inductionHypothesis =>
    rw [List.flatMap_cons, List.find?_append, find?_binders, inductionHypothesis, List.find?_cons]
    cases tree.binds name outer <;> rfl

theorem find?_eq_some_iff_takeWhile (test : TermId × String → Bool)
    {binders : List (TermId × String)} {binder : TermId × String} (member : binder ∈ binders)
    (holds : test binder = true) :
    binders.find? test = some binder ↔
      ∀ inner ∈ binders.takeWhile (· ≠ binder), test inner = false := by
  induction binders with
  | nil => cases member
  | cons first binders inductionHypothesis =>
    by_cases same : first = binder
    · subst same
      simp [holds]
    · have inRest := (List.mem_cons.mp member).resolve_left (Ne.symm same)
      have further := inductionHypothesis inRest
      rw [List.takeWhile_cons_of_pos (by simpa using same), List.forall_mem_cons, List.find?_cons]
      cases tested : test first with
      | true => simp [same]
      | false => simpa using further

theorem Reached.trail_unique (reached : Reached term tree) {id : TermId}
    {around others : List TermId} (trail : tree.Trail tree.root id around)
    (other : tree.Trail tree.root id others) : around = others := by
  obtain ⟨unfolding, unfolds, rooted, distinct⟩ := reached.unfolds
  exact (unfolds.places rooted distinct).trail_unique _ _ _ trail other

theorem Reached.belongsTo_iff (reached : Reached term tree) {spell : String → String} {id : TermId}
    {name : String} {around : List TermId} (held : tree.get? id = some (.var name))
    (trail : tree.Trail tree.root id around) {binder : TermId × String} :
    tree.BelongsTo spell id binder ↔
      (around.flatMap tree.binders).find? (fun inner => spell inner.2 == spell name) =
        some binder := by
  constructor
  · rintro ⟨otherName, others, otherHeld, otherTrail, found⟩
    cases held.symm.trans otherHeld
    rwa [reached.trail_unique trail otherTrail]
  · intro found
    exact ⟨name, around, held, trail, found⟩

theorem Reached.between_iff (reached : Reached term tree) {id : TermId} {around : List TermId}
    (trail : tree.Trail tree.root id around) {binder inner : TermId × String} :
    tree.Between id binder inner ↔
      inner ∈ (around.flatMap tree.binders).takeWhile (· ≠ binder) := by
  constructor
  · rintro ⟨others, otherTrail, member⟩
    rwa [reached.trail_unique trail otherTrail]
  · intro member
    exact ⟨around, trail, member⟩

/-- A linked variable of a closed program has one binder, and its identifier has one in the
script. They are the same exactly if no name meets that of the variable at a binder between the
variable and its binder. -/
theorem script_binder_eq_iff (reached : Reached term tree) (closed : tree.Closed) {id : TermId}
    {name : String} (linked : id ∈ tree.reachable) (held : tree.get? id = some (.var name)) :
    ∃ binder kept, tree.Resolves id (some binder.1) ∧
      (∀ other, tree.BelongsTo (fun name => name) id other ↔ other = binder) ∧
      (∀ other, tree.BelongsTo identifier id other ↔ other = kept) ∧
      (kept = binder ↔ ∀ inner, tree.Between id binder inner → ¬Meet inner.2 name) := by
  obtain ⟨binder, varName, around, isVar, trail, resolved⟩ := closed id linked name held
  cases held.symm.trans isVar
  have inSource : (around.flatMap tree.binders).find? (fun inner => inner.2 == name) =
      some (binder, name) := by
    rw [find?_flatMap_binders, resolved]
    rfl
  have member := List.mem_of_find?_eq_some inSource
  have same : (identifier (binder, name).2 == identifier name) = true := beq_self_eq_true _
  obtain ⟨kept, inScript⟩ : ∃ kept, (around.flatMap tree.binders).find?
      (fun inner => identifier inner.2 == identifier name) = some kept :=
    Option.isSome_iff_exists.mp (List.find?_isSome.mpr ⟨_, member, same⟩)
  refine ⟨(binder, name), kept, ⟨name, around, held, trail, resolved⟩, ?_, ?_, ?_⟩
  · intro other
    rw [reached.belongsTo_iff held trail, inSource, Option.some.injEq, eq_comm]
  · intro other
    rw [reached.belongsTo_iff held trail, inScript, Option.some.injEq, eq_comm]
  · have first := find?_eq_some_iff_takeWhile
      (fun inner => identifier inner.2 == identifier name) member same
    rw [inScript, Option.some.injEq] at first
    simp only [first, reached.between_iff trail, ← identifier_eq_iff, beq_eq_false_iff_ne, ne_eq]

/-- A pair of variables inside of two bindings. -/
def boundPair (outer inner : String) : Term :=
  .letIn outer (.int 1) (.letIn inner (.int 2) (.tuple (.var outer) (.var inner)))

namespace boundPair

variable {outer inner : String}

theorem trail {id : TermId} (member : id ∈ [5, 6]) :
    (ofTerm (boundPair outer inner)).Trail 0 id [4, 2, 0] := by
  have inFirst : (ofTerm (boundPair outer inner)).Trail 0 2 [0] :=
    .part .here (show 2 ∈ [1, 2] by decide)
  exact .part (.part inFirst (show 4 ∈ [3, 4] by decide)) member

theorem binders_eq : [4, 2, 0].flatMap (ofTerm (boundPair outer inner)).binders =
    [(2, inner), (0, outer)] :=
  rfl

theorem bindsOnce (different : outer ≠ inner) : (ofTerm (boundPair outer inner)).BindsOnce := by
  have names : (ofTerm (boundPair outer inner)).reachable.flatMap
      (ofTerm (boundPair outer inner)).boundNames = [outer, inner] := rfl
  rw [BindsOnce, names]
  simpa using different

theorem closed : (ofTerm (boundPair outer inner)).Closed := by
  intro id linked name held
  have refers (isVar : id ∈ [5, 6]) {binder : TermId} (member : binder ∈ [4, 2, 0])
      (bound : (ofTerm (boundPair outer inner)).binds name binder = true) :
      ∃ binder, (ofTerm (boundPair outer inner)).Resolves id (some binder) := by
    obtain ⟨found, isFound⟩ := Option.isSome_iff_exists.mp
      (List.find?_isSome.mpr ⟨binder, member, bound⟩)
    exact ⟨found, name, _, held, trail isVar, isFound⟩
  have ids : (ofTerm (boundPair outer inner)).reachable = [0, 1, 2, 3, 4, 5, 6] := rfl
  simp only [ids, List.mem_cons, List.not_mem_nil, or_false] at linked
  rcases linked with rfl | rfl | rfl | rfl | rfl | rfl | rfl
  case inr.inr.inr.inr.inr.inl =>
    cases held
    exact refers (by decide) (show 0 ∈ [4, 2, 0] by decide) (beq_self_eq_true outer)
  case inr.inr.inr.inr.inr.inr =>
    cases held
    exact refers (by decide) (show 2 ∈ [4, 2, 0] by decide) (beq_self_eq_true inner)
  all_goals cases held

end boundPair

/-- Any two different names that meet are captured: where a binding of the second stands inside
of one of the first, the first one's variable belongs to the second in the script. -/
theorem belongsTo_inner_of_meet {outer inner : String} (different : outer ≠ inner)
    (meet : Meet inner outer) :
    (ofTerm (boundPair outer inner)).BelongsTo (fun name => name) 5 (0, outer) ∧
      (ofTerm (boundPair outer inner)).BelongsTo identifier 5 (2, inner) := by
  refine ⟨⟨outer, _, rfl, boundPair.trail (by decide), ?_⟩,
    ⟨outer, _, rfl, boundPair.trail (by decide), ?_⟩⟩
  · rw [boundPair.binders_eq]
    simp [different.symm]
  · rw [boundPair.binders_eq]
    simp [identifier_eq_iff.mpr meet]

/-- The variable `_class` keeps its binder although `class` becomes the same identifier, since
the binding of `class` stands outside. -/
theorem script_binder_eq_iff_boundPair :
    ∃ binder kept, (ofTerm (boundPair "class" "_class")).Resolves 6 (some binder.1) ∧
      (∀ other, (ofTerm (boundPair "class" "_class")).BelongsTo (fun name => name) 6 other ↔
        other = binder) ∧
      (∀ other, (ofTerm (boundPair "class" "_class")).BelongsTo identifier 6 other ↔
        other = kept) ∧
      (kept = binder ↔ ∀ inner, (ofTerm (boundPair "class" "_class")).Between 6 binder inner →
        ¬Meet inner.2 "_class") :=
  script_binder_eq_iff (.laidOut : Reached (boundPair "class" "_class") _) boundPair.closed
    (by decide) rfl

/-- Binders with different names are not enough: `class` becomes the identifier that `_class`
has, and its variable belongs to the binding of `_class` in the script. -/
theorem script_binder_captured :
    (ofTerm (boundPair "class" "_class")).BindsOnce ∧
      (ofTerm (boundPair "class" "_class")).Closed ∧
      (ofTerm (boundPair "class" "_class")).get? 5 = some (.var "class") ∧
      (ofTerm (boundPair "class" "_class")).BelongsTo (fun name => name) 5 (0, "class") ∧
      (ofTerm (boundPair "class" "_class")).BelongsTo identifier 5 (2, "_class") := by
  have different : "class" ≠ "_class" := by decide
  obtain ⟨inSource, inScript⟩ := belongsTo_inner_of_meet different (by decide)
  exact ⟨boundPair.bindsOnce different, boundPair.closed, rfl, inSource, inScript⟩

end TermTree

end TreeScript
