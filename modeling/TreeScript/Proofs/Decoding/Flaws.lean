/-
This file lists the flaws of a term in the order in which they are detected, as if
decoding went on after each of them. The kind of a term is settled before its fields
are looked at, and without a kind nothing is known about them. By name, fields are
decoded in the order in which they are written, one that comes again is a flaw where it
comes again, and those that are missing are noticed last, in declared order. By
position, fields are decoded in declared order, and the list may neither be too short
nor too long. The flaws of a field come where the field is decoded, so the list goes
depth first.

The decoder stops at the first of these flaws, and it accepts the term if there is none.
-/

import TreeScript.Proofs.Decoding.Shapes
import TreeScript.Proofs.Json.Extension.Scalars

namespace TreeScript

namespace Decoding

/-- The flaw at which a decoder stops. -/
def flaw? {α : Type} : Except Flaw α → Option Flaw
  | .ok _ => none
  | .error flaw => some flaw

/-- What a field of a term holds: a term, a list of terms, or a value without terms in it. -/
inductive Content where
  | term
  | terms
  | plain (flaw? : Json → Option Flaw)

def Content.ofRead {α : Type} (read : Json → Except Flaw α) : Content :=
  .plain fun json => flaw? (read json)

end Decoding

open Decoding

/-- The fields of a kind in declared order. -/
def Kind.fields : Kind → List (String × Content)
  | letIn => [("name", .ofRead readIdentifier), ("value", .term), ("next", .term)]
  | function => [("parameters", .ofRead (readList readIdentifier)), ("value", .term)]
  | ifElse => [("condition", .term), ("then", .term), ("otherwise", .term)]
  | print => [("value", .term)]
  | call => [("callee", .term), ("arguments", .terms)]
  | var => [("text", .ofRead readText)]
  | int => [("value", .ofRead readInteger)]
  | str => [("value", .ofRead readText)]
  | bool => [("value", .ofRead readBool)]
  | binary => [("lhs", .term), ("op", .ofRead readOperator), ("rhs", .term)]
  | tuple => [("first", .term), ("second", .term)]
  | first => [("value", .term)]
  | second => [("value", .term)]

namespace Decoding

/-- What stands for the kind among the members of a term. -/
def tags (members : List (String × Json)) : List Json :=
  (members.filter fun member => member.1 = kindKey).map Prod.snd

/-- Settles the kind of a term: the first tag says which one it is, and there may be no other. -/
def settleKind : List Json → Except Flaw Kind
  | [] => .error (.missingField kindKey)
  | tag :: others => do
    let kind ← readKind tag
    if others.isEmpty then return kind else .error (.duplicateField kindKey)

def missingFlaws (fields : List (String × Content)) (members : List (String × Json)) : List Flaw :=
  (fields.filter fun field => field.1 ∉ members.map Prod.fst).map fun field => .missingField field.1

mutual

/-- The flaws of a term below the root. -/
def termFlaws : Json → List Flaw
  | .array [] => [.missingField kindKey]
  | .array (tag :: elements) =>
    match readKind tag with
    | .error flaw => [flaw]
    | .ok kind =>
      elementFlaws (.termFields kind kind.fields.length) kind.fields 0 elements
  | .object members =>
    match settleKind (tags members) with
    | .error flaw => [flaw]
    | .ok kind => memberFlaws kind.fields [] members ++ missingFlaws kind.fields members
  | json => [.invalidType (.ofJson json) .term]

/-- The flaws of a list of terms. -/
def sequenceFlaws : Json → List Flaw
  | .array elements => termsFlaws elements
  | json => [.invalidType (.ofJson json) .sequence]

def termsFlaws : List Json → List Flaw
  | [] => []
  | json :: elements => termFlaws json ++ termsFlaws elements

/-- The flaws of fields that are given by position, from the field at `position` on. -/
def elementFlaws (owner : Expected) : List (String × Content) → Nat → List Json → List Flaw
  | [], _, [] => []
  | [], position, _ :: rest =>
    [.invalidLength (position + (rest.length + 1)) (.elements position)]
  | _ :: _, position, [] => [.invalidLength position owner]
  | (_, content) :: fields, position, json :: rest =>
    (match content with
      | .term => termFlaws json
      | .terms => sequenceFlaws json
      | .plain flaw? => (flaw? json).toList) ++ elementFlaws owner fields (position + 1) rest

/-- The flaws of fields that are given by name, where some have been given before. -/
def memberFlaws (fields : List (String × Content)) :
    List String → List (String × Json) → List Flaw
  | _, [] => []
  | given, (key, json) :: members =>
    match fields.lookup key with
    | none => memberFlaws fields given members
    | some content =>
      (if key ∈ given then [.duplicateField key]
        else match content with
          | .term => termFlaws json
          | .terms => sequenceFlaws json
          | .plain flaw? => (flaw? json).toList) ++ memberFlaws fields (key :: given) members

end

def Content.flaws : Content → Json → List Flaw
  | term, json => termFlaws json
  | terms, json => sequenceFlaws json
  | plain flaw?, json => (flaw? json).toList

theorem elementFlaws_cons (owner : Expected) (field : String × Content)
    (fields : List (String × Content)) (position : Nat) (json : Json) (rest : List Json) :
    elementFlaws owner (field :: fields) position (json :: rest) =
      field.2.flaws json ++ elementFlaws owner fields (position + 1) rest := by
  obtain ⟨name, content⟩ := field
  cases content <;> rfl

theorem memberFlaws_of_unknown {fields : List (String × Content)} {key : String}
    (unknown : fields.lookup key = none) (given : List String) (json : Json)
    (members : List (String × Json)) :
    memberFlaws fields given ((key, json) :: members) = memberFlaws fields given members := by
  rw [memberFlaws, unknown]

theorem memberFlaws_of_known {fields : List (String × Content)} {key : String} {content : Content}
    (known : fields.lookup key = some content) (given : List String) (json : Json)
    (members : List (String × Json)) :
    memberFlaws fields given ((key, json) :: members) =
      (if key ∈ given then [.duplicateField key] else content.flaws json) ++
        memberFlaws fields (key :: given) members := by
  rw [memberFlaws, known]
  cases content <;> rfl

/-! ### One decoder after another -/

section Steps

variable {α β : Type} {decoded : Except Flaw α} {next : α → Except Flaw β} {front back : List Flaw}

theorem flaw?_bind (first : flaw? decoded = front.head?)
    (later : ∀ value, decoded = .ok value → flaw? (next value) = back.head?) :
    flaw? (decoded >>= next) = (front ++ back).head? := by
  cases decoded with
  | error flaw =>
    rw [List.head?_append, ← first]
    rfl
  | ok value =>
    rw [List.head?_append, ← first]
    exact later value rfl

theorem flaw?_bind_ok (change : α → β) :
    flaw? (decoded >>= fun value => .ok (change value)) = flaw? decoded := by
  cases decoded <;> rfl

theorem flaw?_map (change : α → β) : flaw? (decoded.map change) = flaw? decoded := by
  cases decoded <;> rfl

end Steps

/-- A decoder stops at the first flaw of what a field holds, for values that are nested at most
this deep. -/
def Finds {α : Type} (depth : Nat) (read : Json → Except Flaw α) (content : Content) : Prop :=
  ∀ json : Json, json.depth ≤ depth → flaw? (read json) = (content.flaws json).head?

theorem finds_ofRead {α : Type} (depth : Nat) (read : Json → Except Flaw α) :
    Finds depth read (.ofRead read) := by
  intro json _
  show flaw? (read json) = (flaw? (read json)).toList.head?
  cases flaw? (read json) <;> rfl

/-! ### Fields by name -/

section Named

variable {α σ : Type} {depth : Nat}

/-- What one member does to the state of a record: a member of no field leaves it as it is, one of
a field that has been given is a flaw, and another one is decoded and then given. -/
structure Steps (depth : Nat) (step : σ → String × Json → Except Flaw σ)
    (fields : List (String × Content)) (isGiven : σ → String → Bool) : Prop where
  unknown {key : String} (notField : fields.lookup key = none) (state : σ) (json : Json) :
    step state (key, json) = .ok state
  again {key : String} {content : Content} (isField : fields.lookup key = some content)
    {state : σ} (given : isGiven state key = true) (json : Json) :
    step state (key, json) = .error (.duplicateField key)
  found {key : String} {content : Content} (isField : fields.lookup key = some content)
    {state : σ} (absent : isGiven state key = false) {json : Json} (within : json.depth ≤ depth) :
    flaw? (step state (key, json)) = (content.flaws json).head?
  keeps {key : String} {state next : σ} {json : Json} (taken : step state (key, json) = .ok next)
    (name : String) (isField : (fields.lookup name).isSome) :
    isGiven next name = (isGiven state name || name == key)

theorem lookup_of_ne {key name : String} (different : key ≠ name) (content : Content)
    (fields : List (String × Content)) :
    ((name, content) :: fields).lookup key = fields.lookup key := by
  rw [List.lookup_cons, beq_false_of_ne different]

theorem Field.isSome_of_fill {field : Field α} {given filled : Option α} {json : Json}
    (isFilled : field.fill given json = .ok filled) : filled.isSome = true := by
  cases given with
  | some value => cases isFilled
  | none =>
    obtain ⟨value, -, rfl⟩ := exists_of_map_eq_ok isFilled
    rfl

theorem steps_field {field : Field α} {content : Content} (finds : Finds depth field.read content) :
    Steps depth field.step [(field.name, content)]
      fun given name => name == field.name && given.isSome where
  unknown {key} notField state json := by
    have different : key ≠ field.name := by
      rintro rfl
      simp at notField
    rw [Field.step, if_neg different]
  again {key _} isField state given json := by
    obtain ⟨same, isSome⟩ : key = field.name ∧ state.isSome = true := by simpa using given
    obtain ⟨value, rfl⟩ := Option.isSome_iff_exists.mp isSome
    rw [Field.step, if_pos same, Field.fill, same]
  found {key _} isField state absent json within := by
    by_cases same : key = field.name
    · subst same
      obtain rfl : content = _ := by simpa using isField
      obtain rfl : state = none := by simpa using absent
      rw [Field.step, if_pos rfl, Field.fill, flaw?_map]
      exact finds json within
    · rw [lookup_of_ne same] at isField
      cases isField
  keeps {key state next json} taken name isField := by
    by_cases isName : name = field.name
    · subst isName
      rw [Field.step] at taken
      split at taken
      next same =>
        have isSome := Field.isSome_of_fill taken
        simp_all
      next different =>
        cases taken
        simp [Ne.symm different]
    · rw [lookup_of_ne isName] at isField
      cases isField

theorem steps_join {first : Field α} {content : Content}
    {others : σ → String × Json → Except Flaw σ} {fields : List (String × Content)}
    {isGiven : σ → String → Bool} (finds : Finds depth first.read content)
    (steps : Steps depth others fields isGiven) :
    Steps depth (Record.joinStep first others) ((first.name, content) :: fields)
      fun state name => if name = first.name then state.1.isSome else isGiven state.2 name where
  unknown {key} notField state json := by
    have different : key ≠ first.name := by
      rintro rfl
      simp at notField
    rw [lookup_of_ne different] at notField
    rw [Record.joinStep, if_neg different, steps.unknown notField]
    rfl
  again {key _} isField state given json := by
    rw [Record.joinStep]
    by_cases same : key = first.name
    · rw [if_pos same] at given ⊢
      obtain ⟨value, isSome⟩ := Option.isSome_iff_exists.mp given
      rw [isSome, Field.fill, same]
      rfl
    · rw [if_neg same] at given ⊢
      rw [lookup_of_ne same] at isField
      rw [steps.again isField given]
      rfl
  found {key _} isField state absent json within := by
    rw [Record.joinStep]
    by_cases same : key = first.name
    · rw [if_pos same] at absent ⊢
      subst same
      obtain rfl : content = _ := by simpa using isField
      have isNone : state.1 = none := by simpa using absent
      refine (flaw?_bind_ok _).trans ?_
      rw [isNone, Field.fill, flaw?_map]
      exact finds json within
    · rw [if_neg same] at absent ⊢
      rw [lookup_of_ne same] at isField
      exact (flaw?_bind_ok _).trans (steps.found isField absent within)
  keeps {key state next json} taken name isField := by
    rw [Record.joinStep] at taken
    by_cases same : key = first.name
    · rw [if_pos same] at taken
      obtain ⟨filled, isFilled, result⟩ := exists_of_bind_eq_ok taken
      cases result
      by_cases isFirst : name = first.name
      · simp [isFirst, same, Field.isSome_of_fill isFilled]
      · simp [isFirst, same]
    · rw [if_neg same] at taken
      obtain ⟨after, stepped, result⟩ := exists_of_bind_eq_ok taken
      cases result
      by_cases isFirst : name = first.name
      · simp [isFirst, Ne.symm same]
      · rw [lookup_of_ne isFirst] at isField
        simpa [isFirst] using steps.keeps stepped name isField

theorem flaw?_foldlM {step : σ → String × Json → Except Flaw σ} {fields : List (String × Content)}
    {isGiven : σ → String → Bool} (steps : Steps depth step fields isGiven)
    {members : List (String × Json)} (within : Json.depthMembers members ≤ depth) {state : σ}
    {given : List String}
    (tracks : ∀ name, (fields.lookup name).isSome → (isGiven state name = true ↔ name ∈ given)) :
    flaw? (members.foldlM step state) = (memberFlaws fields given members).head? ∧
      ∀ final, members.foldlM step state = .ok final → ∀ name, (fields.lookup name).isSome →
        (isGiven final name = true ↔ name ∈ given ∨ name ∈ members.map Prod.fst) := by
  induction members generalizing state given with
  | nil =>
    refine ⟨rfl, ?_⟩
    rintro _ ⟨⟩ name isField
    simpa using tracks name isField
  | cons member members inductionHypothesis =>
    obtain ⟨key, json⟩ := member
    rw [Json.depthMembers, Nat.max_le] at within
    rw [List.foldlM_cons]
    cases isField : fields.lookup key with
    | none =>
      rw [memberFlaws_of_unknown isField, steps.unknown isField]
      obtain ⟨flaws, final⟩ := inductionHypothesis within.2 tracks
      refine ⟨flaws, fun last folded name isKnown => ?_⟩
      have different : name ≠ key := by
        rintro rfl
        simp [isField] at isKnown
      rw [final last folded name isKnown, List.map_cons, List.mem_cons]
      simp [different]
    | some content =>
      rw [memberFlaws_of_known isField]
      have next (after : σ) (taken : step state (key, json) = .ok after) (name : String)
          (isKnown : (fields.lookup name).isSome) :
          isGiven after name = true ↔ name ∈ key :: given := by
        rw [steps.keeps taken name isKnown, Bool.or_eq_true, tracks name isKnown, beq_iff_eq,
          List.mem_cons, or_comm]
      refine ⟨flaw?_bind ?_ fun after taken => (inductionHypothesis within.2 (next after taken)).1,
        fun last folded name isKnown => ?_⟩
      · by_cases again : key ∈ given
        · rw [if_pos again, steps.again isField ((tracks key (by simp [isField])).mpr again)]
          rfl
        · rw [if_neg again]
          refine steps.found isField ?_ within.1
          exact Bool.eq_false_iff.mpr fun isIn => again ((tracks key (by simp [isField])).mp isIn)
      · obtain ⟨after, taken, folded⟩ := exists_of_bind_eq_ok folded
        rw [(inductionHypothesis within.2 (next after taken)).2 last folded name isKnown,
          List.map_cons, List.mem_cons, List.mem_cons]
        tauto

theorem flaw?_foldlM_of_empty {step : σ → String × Json → Except Flaw σ}
    {fields : List (String × Content)} {isGiven : σ → String → Bool}
    (steps : Steps depth step fields isGiven) {members : List (String × Json)}
    (within : Json.depthMembers members ≤ depth) (start : σ)
    (empty : ∀ name, isGiven start name = false) :
    flaw? (members.foldlM step start) = (memberFlaws fields [] members).head? ∧
      ∀ final, members.foldlM step start = .ok final → ∀ name, (fields.lookup name).isSome →
        (isGiven final name = true ↔ name ∈ members.map Prod.fst) := by
  obtain ⟨flaws, final⟩ := flaw?_foldlM steps within fun name _ =>
    (by simp [empty name] : isGiven start name = true ↔ name ∈ [])
  refine ⟨flaws, fun last folded name isKnown => ?_⟩
  rw [final last folded name isKnown]
  simp

theorem missingFlaws_cons (field : String × Content) (fields : List (String × Content))
    (members : List (String × Json)) :
    missingFlaws (field :: fields) members =
      (if field.1 ∈ members.map Prod.fst then [] else [.missingField field.1]) ++
        missingFlaws fields members := by
  by_cases given : field.1 ∈ members.map Prod.fst
  · rw [if_pos given, missingFlaws, List.filter_cons_of_neg (by simpa using given)]
    rfl
  · rw [if_neg given, missingFlaws, List.filter_cons_of_pos (by simpa using given)]
    rfl

theorem flaw?_require {field : Field α} {given : Option α} {members : List (String × Json)}
    (isGiven : given.isSome = true ↔ field.name ∈ members.map Prod.fst) :
    flaw? (field.require given) =
      (if field.name ∈ members.map Prod.fst then [] else [Flaw.missingField field.name]).head? := by
  cases given with
  | none =>
    rw [if_neg fun isIn => Bool.noConfusion (isGiven.mpr isIn)]
    rfl
  | some value =>
    rw [if_pos (isGiven.mp rfl)]
    rfl

end Named

/-! ### Records -/

namespace Record

/-- The flaws of a record with these fields. -/
def flaws (owner : Nat → Expected) (fields : List (String × Content)) : Record → List Flaw
  | named members => memberFlaws fields [] members ++ missingFlaws fields members
  | positional elements => elementFlaws (owner fields.length) fields 0 elements

/-- What a record holds is nested at most this deep. -/
def Within (depth : Nat) : Record → Prop
  | named members => Json.depthMembers members ≤ depth
  | positional elements => Json.depthElements elements ≤ depth

variable {α β γ δ : Type} {depth : Nat} {owner : Nat → Expected} {first : Field α}
  {second : Field β} {third : Field γ} {a b c : Content} {record : Record}

theorem flaw?_take {field : Field α} {content : Content}
    (finds : Finds depth field.read content) {fields : List (String × Content)}
    {expected : Expected} {position : Nat} {elements : List Json}
    (within : Json.depthElements elements ≤ depth) {next : α × List Json → Except Flaw δ}
    (later : ∀ value rest, Json.depthElements rest ≤ depth →
      flaw? (next (value, rest)) = (elementFlaws expected fields (position + 1) rest).head?) :
    flaw? (field.take expected position elements >>= next) =
      (elementFlaws expected ((field.name, content) :: fields) position elements).head? := by
  cases elements with
  | nil => rfl
  | cons json rest =>
    rw [Json.depthElements, Nat.max_le] at within
    rw [elementFlaws_cons]
    refine flaw?_bind ?_ fun taken isTaken => ?_
    · rw [Field.take, flaw?_map]
      exact finds json within.1
    · obtain ⟨value, -, rfl⟩ := exists_of_map_eq_ok isTaken
      exact later value rest within.2

theorem flaw?_close (expected : Expected) (count : Nat) (rest : List Json) (result : δ) :
    flaw? (close count rest >>= fun _ => .ok result) =
      (elementFlaws expected [] count rest).head? := by
  cases rest with
  | nil => rfl
  | cons json rest => rfl

theorem flaw?_one (findsFirst : Finds depth first.read a) (within : record.Within depth) :
    flaw? (record.one owner first) = (record.flaws owner [(first.name, a)]).head? := by
  cases record with
  | named members =>
    obtain ⟨flaws, final⟩ :=
      flaw?_foldlM_of_empty (steps_field findsFirst) within none (by simp)
    refine flaw?_bind flaws fun given folded => ?_
    rw [missingFlaws_cons, ← flaw?_bind_ok id]
    refine flaw?_bind (flaw?_require ?_) fun _ _ => rfl
    simpa using final given folded first.name (by simp)
  | positional elements =>
    exact flaw?_take findsFirst within fun value rest _ => flaw?_close _ 1 rest value

theorem flaw?_two (apart : [first.name, second.name].Nodup)
    (findsFirst : Finds depth first.read a) (findsSecond : Finds depth second.read b)
    (within : record.Within depth) :
    flaw? (record.two owner first second) =
      (record.flaws owner [(first.name, a), (second.name, b)]).head? := by
  cases record with
  | named members =>
    have differ : second.name ≠ first.name := by simpa [eq_comm] using apart
    obtain ⟨flaws, final⟩ := flaw?_foldlM_of_empty
      (steps_join findsFirst (steps_field findsSecond)) within (none, none) (by simp)
    rw [two_named]
    refine flaw?_bind flaws fun given folded => ?_
    rw [missingFlaws_cons, missingFlaws_cons]
    refine flaw?_bind (flaw?_require ?_) fun _ _ => flaw?_bind (flaw?_require ?_) fun _ _ => rfl
    · simpa using final given folded first.name (by simp)
    · simpa [differ] using final given folded second.name (by simp [lookup_of_ne differ])
  | positional elements =>
    exact flaw?_take findsFirst within fun x rest within =>
      flaw?_take findsSecond within fun y rest _ => flaw?_close _ 2 rest (x, y)

theorem flaw?_three (apart : [first.name, second.name, third.name].Nodup)
    (findsFirst : Finds depth first.read a) (findsSecond : Finds depth second.read b)
    (findsThird : Finds depth third.read c) (within : record.Within depth) :
    flaw? (record.three owner first second third) =
      (record.flaws owner [(first.name, a), (second.name, b), (third.name, c)]).head? := by
  cases record with
  | named members =>
    obtain ⟨⟨firstSecond, firstThird⟩, secondThird⟩ : (first.name ≠ second.name ∧
        first.name ≠ third.name) ∧ second.name ≠ third.name := by simpa using apart
    obtain ⟨flaws, final⟩ := flaw?_foldlM_of_empty
      (steps_join findsFirst (steps_join findsSecond (steps_field findsThird))) within
      (none, none, none) (by simp)
    rw [three_named]
    refine flaw?_bind flaws fun given folded => ?_
    rw [missingFlaws_cons, missingFlaws_cons, missingFlaws_cons]
    refine flaw?_bind (flaw?_require ?_) fun _ _ => flaw?_bind (flaw?_require ?_) fun _ _ =>
      flaw?_bind (flaw?_require ?_) fun _ _ => rfl
    · simpa using final given folded first.name (by simp)
    · simpa [firstSecond.symm] using
        final given folded second.name (by simp [lookup_of_ne firstSecond.symm])
    · simpa [firstThird.symm, secondThird.symm] using final given folded third.name
        (by simp [lookup_of_ne firstThird.symm, lookup_of_ne secondThird.symm])
  | positional elements =>
    exact flaw?_take findsFirst within fun x rest within =>
      flaw?_take findsSecond within fun y rest within =>
        flaw?_take findsThird within fun z rest _ => flaw?_close _ 3 rest (x, y, z)

end Record

/-! ### Kinds -/

theorem tags_cons_of_eq {key : String} (isKind : key = kindKey) (json : Json)
    (members : List (String × Json)) : tags ((key, json) :: members) = json :: tags members := by
  rw [tags, List.filter_cons_of_pos (by simpa using isKind)]
  rfl

theorem tags_cons_of_ne {key : String} (notKind : key ≠ kindKey) (json : Json)
    (members : List (String × Json)) : tags ((key, json) :: members) = tags members := by
  rw [tags, List.filter_cons_of_neg (by simpa using notKind)]
  rfl

/-- The members of a term that do not tell its kind. -/
def untagged (members : List (String × Json)) : List (String × Json) :=
  members.filter fun member => member.1 ≠ kindKey

theorem untagged_cons_of_eq {key : String} (isKind : key = kindKey) (json : Json)
    (members : List (String × Json)) : untagged ((key, json) :: members) = untagged members :=
  List.filter_cons_of_neg (by simpa using isKind)

theorem untagged_cons_of_ne {key : String} (notKind : key ≠ kindKey) (json : Json)
    (members : List (String × Json)) :
    untagged ((key, json) :: members) = (key, json) :: untagged members :=
  List.filter_cons_of_pos (by simpa using notKind)

theorem splitKind_some (kind : Kind) (others members : List (String × Json)) :
    splitKind (some kind) others members =
      if (tags members).isEmpty then .ok (kind, .named (others.reverse ++ untagged members))
      else .error (.duplicateField kindKey) := by
  induction members generalizing others with
  | nil => simp [splitKind, tags, untagged]
  | cons member members inductionHypothesis =>
    obtain ⟨key, json⟩ := member
    by_cases isKind : key = kindKey
    · rw [splitKind, if_pos isKind, tags_cons_of_eq isKind]
      rfl
    · rw [splitKind, if_neg isKind, inductionHypothesis, tags_cons_of_ne isKind,
        untagged_cons_of_ne isKind, List.reverse_cons, List.append_assoc]
      rfl

theorem splitKind_none (others members : List (String × Json)) :
    splitKind none others members = (settleKind (tags members)).map
      fun kind => (kind, .named (others.reverse ++ untagged members)) := by
  induction members generalizing others with
  | nil => rfl
  | cons member members inductionHypothesis =>
    obtain ⟨key, json⟩ := member
    by_cases isKind : key = kindKey
    · rw [splitKind, if_pos isKind, tags_cons_of_eq isKind, settleKind,
        untagged_cons_of_eq isKind]
      cases readKind json with
      | error flaw => rfl
      | ok kind =>
        refine (splitKind_some kind others members).trans ?_
        by_cases single : (tags members).isEmpty
        · simp only [bind, Except.bind, if_pos single]
          rfl
        · simp only [bind, Except.bind, if_neg single]
          rfl
    · rw [splitKind, if_neg isKind, inductionHypothesis, tags_cons_of_ne isKind,
        untagged_cons_of_ne isKind, List.reverse_cons, List.append_assoc]
      rfl

theorem lookup_kindKey (kind : Kind) : kind.fields.lookup kindKey = none := by
  cases kind <;> rfl

theorem memberFlaws_untagged (kind : Kind) (given : List String)
    (members : List (String × Json)) :
    memberFlaws kind.fields given (untagged members) = memberFlaws kind.fields given members := by
  induction members generalizing given with
  | nil => rfl
  | cons member members inductionHypothesis =>
    obtain ⟨key, json⟩ := member
    by_cases isKind : key = kindKey
    · subst isKind
      rw [untagged_cons_of_eq rfl, memberFlaws_of_unknown (lookup_kindKey kind),
        inductionHypothesis]
    · rw [untagged_cons_of_ne isKind]
      cases isField : kind.fields.lookup key with
      | none =>
        rw [memberFlaws_of_unknown isField, memberFlaws_of_unknown isField, inductionHypothesis]
      | some content =>
        rw [memberFlaws_of_known isField, memberFlaws_of_known isField, inductionHypothesis]

theorem fields_names (kind : Kind) : kind.fields.map Prod.fst = kind.fieldNames := by
  cases kind <;> rfl

theorem missingFlaws_untagged (kind : Kind) (members : List (String × Json)) :
    missingFlaws kind.fields (untagged members) = missingFlaws kind.fields members := by
  refine congrArg (List.map _) (List.filter_congr fun field isField => ?_)
  have notKind : field.1 ≠ kindKey := by
    intro isKind
    refine kindKey_notMem_fieldNames kind ?_
    rw [← isKind, ← fields_names]
    exact List.mem_map_of_mem isField
  have same : field.1 ∈ (untagged members).map Prod.fst ↔ field.1 ∈ members.map Prod.fst := by
    simp only [untagged, List.mem_map, List.mem_filter, decide_eq_true_eq]
    constructor
    · rintro ⟨member, ⟨isIn, -⟩, isName⟩
      exact ⟨member, isIn, isName⟩
    · rintro ⟨member, isIn, isName⟩
      exact ⟨member, ⟨isIn, isName ▸ notKind⟩, isName⟩
  simp only [same]

theorem termFlaws_of_error {json : Json} {flaw : Flaw} (refused : readTagged json = .error flaw) :
    termFlaws json = [flaw] := by
  cases json with
  | object members =>
    rw [readTagged, splitKind_none] at refused
    rw [termFlaws]
    cases settled : settleKind (tags members) with
    | ok kind =>
      rw [settled] at refused
      cases refused
    | error other =>
      rw [settled] at refused
      cases refused
      rfl
  | array elements =>
    cases elements with
    | nil =>
      cases refused
      rfl
    | cons tag elements =>
      rw [readTagged] at refused
      rw [termFlaws]
      cases settled : readKind tag with
      | ok kind =>
        rw [settled] at refused
        cases refused
      | error other =>
        rw [settled] at refused
        cases refused
        rfl
  | _ =>
    cases refused
    rfl

theorem termFlaws_of_ok {json : Json} {kind : Kind} {record : Record}
    (tagged : readTagged json = .ok (kind, record)) :
    termFlaws json = record.flaws (.termFields kind) kind.fields := by
  cases json with
  | object members =>
    rw [readTagged, splitKind_none] at tagged
    obtain ⟨settledKind, settled, same⟩ := exists_of_map_eq_ok tagged
    cases same
    rw [termFlaws, settled]
    show _ = memberFlaws kind.fields [] (untagged members) ++
      missingFlaws kind.fields (untagged members)
    rw [memberFlaws_untagged, missingFlaws_untagged]
  | array elements =>
    cases elements with
    | nil => cases tagged
    | cons tag elements =>
      obtain ⟨settledKind, settled, same⟩ := exists_of_bind_eq_ok tagged
      cases same
      rw [termFlaws, settled]
      rfl
  | _ => cases tagged

theorem depthMembers_untagged_le (members : List (String × Json)) :
    Json.depthMembers (untagged members) ≤ Json.depthMembers members := by
  induction members with
  | nil => exact Nat.le_refl _
  | cons member members inductionHypothesis =>
    obtain ⟨key, json⟩ := member
    by_cases isKind : key = kindKey
    · rw [untagged_cons_of_eq isKind, Json.depthMembers]
      exact Nat.le_trans inductionHypothesis (Nat.le_max_right _ _)
    · rw [untagged_cons_of_ne isKind, Json.depthMembers, Json.depthMembers]
      exact Nat.max_le.mpr ⟨Nat.le_max_left _ _,
        Nat.le_trans inductionHypothesis (Nat.le_max_right _ _)⟩

theorem within_of_readTagged {json : Json} {kind : Kind} {record : Record} {depth : Nat}
    (tagged : readTagged json = .ok (kind, record)) (within : json.depth ≤ depth + 1) :
    record.Within depth := by
  cases json with
  | object members =>
    rw [readTagged, splitKind_none] at tagged
    obtain ⟨settledKind, -, same⟩ := exists_of_map_eq_ok tagged
    cases same
    rw [Json.depth] at within
    exact Nat.le_trans (depthMembers_untagged_le members) (Nat.le_of_succ_le_succ within)
  | array elements =>
    cases elements with
    | nil => cases tagged
    | cons tag elements =>
      obtain ⟨settledKind, -, same⟩ := exists_of_bind_eq_ok tagged
      cases same
      rw [Json.depth, Json.depthElements] at within
      exact Nat.le_trans (Nat.le_max_right _ _) (Nat.le_of_succ_le_succ within)
  | _ => cases tagged

/-! ### Terms -/

section Terms

variable {depth : Nat} {read : Json → Except Flaw Term}

theorem flaw?_mapM (finds : Finds depth read .term) {elements : List Json}
    (within : Json.depthElements elements ≤ depth) :
    flaw? (elements.mapM read) = (termsFlaws elements).head? := by
  induction elements with
  | nil => rfl
  | cons json elements inductionHypothesis =>
    rw [Json.depthElements, Nat.max_le] at within
    rw [List.mapM_cons, termsFlaws]
    refine flaw?_bind (finds json within.1) fun term _ => ?_
    exact (flaw?_bind_ok _).trans (inductionHypothesis within.2)

theorem finds_readList (finds : Finds depth read .term) : Finds depth (readList read) .terms := by
  intro json within
  cases json with
  | array elements =>
    rw [Json.depth] at within
    exact flaw?_mapM finds (by omega)
  | _ => rfl

theorem flaw?_termOfRecord (finds : Finds depth read .term) (kind : Kind) {record : Record}
    (within : record.Within depth) :
    flaw? (termOfRecord read kind record) =
      (record.flaws (.termFields kind) kind.fields).head? := by
  have names := nodup_fieldNames kind
  cases kind with
  | letIn =>
    exact (flaw?_bind_ok _).trans
      (Record.flaw?_three names (finds_ofRead depth readIdentifier) finds finds within)
  | function =>
    exact (flaw?_bind_ok _).trans
      (Record.flaw?_two names (finds_ofRead depth (readList readIdentifier)) finds within)
  | ifElse => exact (flaw?_bind_ok _).trans (Record.flaw?_three names finds finds finds within)
  | print => exact (flaw?_bind_ok _).trans (Record.flaw?_one finds within)
  | call =>
    exact (flaw?_bind_ok _).trans (Record.flaw?_two names finds (finds_readList finds) within)
  | var => exact (flaw?_bind_ok _).trans (Record.flaw?_one (finds_ofRead depth readText) within)
  | int => exact (flaw?_bind_ok _).trans (Record.flaw?_one (finds_ofRead depth readInteger) within)
  | str => exact (flaw?_bind_ok _).trans (Record.flaw?_one (finds_ofRead depth readText) within)
  | bool => exact (flaw?_bind_ok _).trans (Record.flaw?_one (finds_ofRead depth readBool) within)
  | binary =>
    exact (flaw?_bind_ok _).trans
      (Record.flaw?_three names finds (finds_ofRead depth readOperator) finds within)
  | tuple => exact (flaw?_bind_ok _).trans (Record.flaw?_two names finds finds within)
  | first => exact (flaw?_bind_ok _).trans (Record.flaw?_one finds within)
  | second => exact (flaw?_bind_ok _).trans (Record.flaw?_one finds within)

theorem finds_readTerm (depth : Nat) : Finds depth (readTerm depth) .term := by
  induction depth with
  | zero =>
    intro json within
    cases json <;> simp [Json.depth] at within
  | succ depth inductionHypothesis =>
    intro json within
    show flaw? (readTagged json >>= _) = (termFlaws json).head?
    cases tagged : readTagged json with
    | error flaw =>
      rw [termFlaws_of_error tagged]
      rfl
    | ok result =>
      obtain ⟨kind, record⟩ := result
      rw [termFlaws_of_ok tagged]
      exact flaw?_termOfRecord inductionHypothesis kind (within_of_readTagged tagged within)

/-- Decoding a record stops at the first of its flaws. -/
theorem flaw?_readRecord (kind : Kind) (record : Record) :
    flaw? (readRecord kind record) = (record.flaws (.termFields kind) kind.fields).head? := by
  cases record with
  | named members => exact flaw?_termOfRecord (finds_readTerm _) kind (Nat.le_refl _)
  | positional elements => exact flaw?_termOfRecord (finds_readTerm _) kind (Nat.le_refl _)

end Terms

end Decoding

end TreeScript
