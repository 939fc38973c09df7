/-
This file says which JSON values stand for a term, and decodes them. A record may be
given by name or by position. By name, every field and the kind come exactly once,
anywhere among members that mean nothing; by position they come in their declared
order, the kind first. Records inside one another choose independently, and below the
root a kind may be given by its number.

Decoding follows the shape from the outside to the inside. It is bounded by how deep
the values are nested, and the value of a field is nested less deep than the record.
-/

import TreeScript.Decoding.Term
import Mathlib.Data.List.Basic
import Mathlib.Data.List.Forall2

namespace TreeScript

/-- The names of the fields of a kind in declared order. -/
def Kind.fieldNames : Kind → List String
  | letIn => ["name", "value", "next"]
  | function => ["parameters", "value"]
  | ifElse => ["condition", "then", "otherwise"]
  | print => ["value"]
  | call => ["callee", "arguments"]
  | var => ["text"]
  | int => ["value"]
  | str => ["value"]
  | bool => ["value"]
  | binary => ["lhs", "op", "rhs"]
  | tuple => ["first", "second"]
  | first => ["value"]
  | second => ["value"]

namespace Decoding

/-! ### Shapes -/

/-- Among the members of an object a key comes exactly once, with this value. -/
def Once (members : List (String × Json)) (key : String) (json : Json) : Prop :=
  members.filter (fun member => member.1 = key) = [(key, json)]

/-- A record gives these values to the fields of these names. -/
inductive Record.Gives (names : List String) (values : List Json) : Record → Prop where
  | named {members : List (String × Json)}
      (each : ∀ entry ∈ names.zip values, Once members entry.1 entry.2) :
      Gives names values (.named members)
  | positional : Gives names values (.positional values)

/-- An identifier is an object with its text, or a list with nothing else in it. -/
inductive EncodesIdentifier (name : String) : Json → Prop where
  | named {members : List (String × Json)} (once : Once members "text" (.string name)) :
      EncodesIdentifier name (.object members)
  | positional : EncodesIdentifier name (.array [.string name])

/-- A kind is given by its name or by its number. -/
def IsTag (kind : Kind) (tag : Json) : Prop :=
  tag = .string kind.name ∨ ∃ index : Nat, tag = .integer index ∧ Kind.all[index]? = some kind

/-- A term of a kind with these values for its fields. -/
inductive Tagged (kind : Kind) (tag : Json) (values : List Json) : Json → Prop where
  | named {members : List (String × Json)} (tagOnce : Once members "kind" tag)
      (each : ∀ entry ∈ kind.fieldNames.zip values, Once members entry.1 entry.2) :
      Tagged kind tag values (.object members)
  | positional : Tagged kind tag values (.array (tag :: values))

mutual

/-- A JSON value stands for a term below the root. -/
inductive EncodesTerm : Term → Json → Prop where
  | intro {term : Term} {tag json : Json} {values : List Json} (isTag : IsTag term.kind tag)
      (fields : EncodesFields term values) (shape : Tagged term.kind tag values json) :
      EncodesTerm term json

/-- The values of the fields of a term. -/
inductive EncodesFields : Term → List Json → Prop where
  | letIn {name : String} {value next : Term} {a b c : Json}
      (isName : EncodesIdentifier name a) (isValue : EncodesTerm value b)
      (isNext : EncodesTerm next c) : EncodesFields (.letIn name value next) [a, b, c]
  | function {parameters : List String} {body : Term} {items : List Json} {b : Json}
      (areParameters : List.Forall₂ EncodesIdentifier parameters items)
      (isBody : EncodesTerm body b) : EncodesFields (.function parameters body) [.array items, b]
  | ifElse {condition consequent alternative : Term} {a b c : Json}
      (isCondition : EncodesTerm condition a) (isConsequent : EncodesTerm consequent b)
      (isAlternative : EncodesTerm alternative c) :
      EncodesFields (.ifElse condition consequent alternative) [a, b, c]
  | print {value : Term} {a : Json} (isValue : EncodesTerm value a) :
      EncodesFields (.print value) [a]
  | call {callee : Term} {arguments : List Term} {a : Json} {items : List Json}
      (isCallee : EncodesTerm callee a) (areArguments : EncodesTerms arguments items) :
      EncodesFields (.call callee arguments) [a, .array items]
  | var {name : String} : EncodesFields (.var name) [.string name]
  | int {value : Int64} : EncodesFields (.int value) [.integer value.toInt]
  | str {value : String} : EncodesFields (.str value) [.string value]
  | bool {value : Bool} : EncodesFields (.bool value) [.bool value]
  | binary {op : BinaryOp} {lhs rhs : Term} {a c : Json} (isLeft : EncodesTerm lhs a)
      (isRight : EncodesTerm rhs c) : EncodesFields (.binary op lhs rhs) [a, .string op.name, c]
  | tuple {left right : Term} {a b : Json} (isLeft : EncodesTerm left a)
      (isRight : EncodesTerm right b) : EncodesFields (.tuple left right) [a, b]
  | first {value : Term} {a : Json} (isValue : EncodesTerm value a) :
      EncodesFields (.first value) [a]
  | second {value : Term} {a : Json} (isValue : EncodesTerm value a) :
      EncodesFields (.second value) [a]

inductive EncodesTerms : List Term → List Json → Prop where
  | nil : EncodesTerms [] []
  | cons {term : Term} {terms : List Term} {json : Json} {items : List Json}
      (first : EncodesTerm term json) (others : EncodesTerms terms items) :
      EncodesTerms (term :: terms) (json :: items)

end

/-- A JSON value stands for the root term, whose kind is given by name. -/
def EncodesRoot (term : Term) (json : Json) : Prop :=
  ∃ values, EncodesFields term values ∧ Tagged term.kind (.string term.kind.name) values json

/-! ### Records -/

theorem Once.mem {members : List (String × Json)} {key : String} {json : Json}
    (once : Once members key json) : (key, json) ∈ members := by
  have member : (key, json) ∈ members.filter (fun member => member.1 = key) := by
    rw [once]
    exact List.mem_singleton_self _
  exact (List.mem_filter.mp member).1

namespace Field

variable {α : Type} (field : Field α)

/-- What a member does to a field: it fills it or is not meant for it. -/
def step (given : Option α) (member : String × Json) : Except Flaw (Option α) :=
  if member.1 = field.name then field.fill given member.2 else .ok given

variable {field} {members : List (String × Json)}

theorem foldlM_step_of_absent (given : Option α)
    (absent : members.filter (fun member => member.1 = field.name) = []) :
    members.foldlM field.step given = .ok given := by
  induction members with
  | nil => rfl
  | cons member members inductionHypothesis =>
    rw [List.filter_eq_nil_iff] at absent
    have different : member.1 ≠ field.name := by
      simpa using absent member List.mem_cons_self
    rw [List.foldlM_cons, step, if_neg different]
    exact inductionHypothesis
      (List.filter_eq_nil_iff.mpr fun other inside => absent other (List.mem_cons_of_mem _ inside))

/-- A field that comes once is filled once. -/
theorem foldlM_step {json : Json} (once : Once members field.name json) {value : α}
    (read : field.read json = .ok value) : members.foldlM field.step none = .ok (some value) := by
  induction members with
  | nil => cases once
  | cons member members inductionHypothesis =>
    rw [List.foldlM_cons, step]
    by_cases same : member.1 = field.name
    · rw [Once, List.filter_cons_of_pos (by simpa using same), List.cons.injEq] at once
      obtain ⟨rfl, absent⟩ := once
      rw [if_pos rfl, fill, read]
      exact foldlM_step_of_absent (some value) absent
    · rw [Once, List.filter_cons_of_neg (by simpa using same)] at once
      rw [if_neg same]
      exact inductionHypothesis once

end Field

namespace Record

variable {α β γ : Type} {first : Field α} {second : Field β} {third : Field γ}
  {owner : Nat → Expected} {record : Record} {a b c : Json} {x : α} {y : β} {z : γ}

theorem one_of_gives (gives : record.Gives [first.name] [a]) (readFirst : first.read a = .ok x) :
    record.one owner first = .ok x := by
  cases gives with
  | @named members each =>
    have filled := Field.foldlM_step (each (first.name, a) (by simp)) readFirst
    show (members.foldlM first.step none >>= first.require) = _
    rw [filled]
    rfl
  | positional =>
    show ((first.read a).map (·, []) >>= fun taken => close 1 taken.2 >>= fun _ => .ok taken.1) = _
    rw [readFirst]
    rfl

/-- What a member does to a field and, if it is not meant for it, to other fields. -/
def joinStep {σ : Type} (first : Field α) (others : σ → String × Json → Except Flaw σ)
    (given : Option α × σ) (member : String × Json) : Except Flaw (Option α × σ) := do
  if member.1 = first.name then return (← first.fill given.1 member.2, given.2)
  else return (given.1, ← others given.2 member)

/-- Fields with different names are filled independently of each other. -/
theorem foldlM_joinStep {σ : Type} {others : σ → String × Json → Except Flaw σ}
    (ignores : ∀ state member, member.1 = first.name → others state member = .ok state)
    {members : List (String × Json)} {given filled : Option α} {state final : σ}
    (foldFirst : members.foldlM first.step given = .ok filled)
    (foldOthers : members.foldlM others state = .ok final) :
    members.foldlM (joinStep first others) (given, state) = .ok (filled, final) := by
  induction members generalizing given state with
  | nil =>
    cases foldFirst
    cases foldOthers
    rfl
  | cons member members inductionHypothesis =>
    rw [List.foldlM_cons] at foldFirst foldOthers ⊢
    rw [Field.step] at foldFirst
    rw [joinStep]
    by_cases isFirst : member.1 = first.name
    · rw [ignores state member isFirst] at foldOthers
      rw [if_pos isFirst] at foldFirst ⊢
      cases taken : first.fill given member.2 with
      | error flaw =>
        rw [taken] at foldFirst
        cases foldFirst
      | ok next =>
        rw [taken] at foldFirst
        exact inductionHypothesis foldFirst foldOthers
    · rw [if_neg isFirst] at foldFirst ⊢
      cases taken : others state member with
      | error flaw =>
        rw [taken] at foldOthers
        cases foldOthers
      | ok next =>
        rw [taken] at foldOthers
        exact inductionHypothesis foldFirst foldOthers

theorem two_named (members : List (String × Json)) :
    (named members).two owner first second =
      (members.foldlM (joinStep first second.step) (none, none) >>= fun given => do
        return (← first.require given.1, ← second.require given.2)) := by
  have same : (fun (given : Option α × Option β) (member : String × Json) => (do
      if member.1 = first.name then return (← first.fill given.1 member.2, given.2)
      else if member.1 = second.name then return (given.1, ← second.fill given.2 member.2)
      else return given : Except Flaw (Option α × Option β))) = joinStep first second.step := by
    funext given member
    simp only [joinStep, Field.step]
    by_cases isSecond : member.1 = second.name
    · simp only [isSecond, if_true]
    · simp only [isSecond, if_false]
      rfl
  rw [← same]
  rfl

theorem three_named (members : List (String × Json)) :
    (named members).three owner first second third =
      (members.foldlM (joinStep first (joinStep second third.step)) (none, none, none) >>=
        fun given => do
          return (← first.require given.1, ← second.require given.2.1,
            ← third.require given.2.2)) := by
  have same : (fun (given : Option α × Option β × Option γ) (member : String × Json) => (do
      if member.1 = first.name then return (← first.fill given.1 member.2, given.2)
      else if member.1 = second.name then
        return (given.1, ← second.fill given.2.1 member.2, given.2.2)
      else if member.1 = third.name then
        return (given.1, given.2.1, ← third.fill given.2.2 member.2)
      else return given : Except Flaw (Option α × Option β × Option γ))) =
      joinStep first (joinStep second third.step) := by
    funext given member
    simp only [joinStep, Field.step]
    by_cases isFirst : member.1 = first.name
    · simp only [isFirst, if_true]
    · simp only [isFirst, if_false]
      by_cases isSecond : member.1 = second.name
      · simp only [isSecond, if_true, bind_assoc, pure_bind]
      · simp only [isSecond, if_false]
        by_cases isThird : member.1 = third.name
        · simp only [isThird, if_true, bind_assoc, pure_bind]
        · simp only [isThird, if_false]
          rfl
  rw [← same]
  rfl

theorem two_of_gives (apart : [first.name, second.name].Nodup)
    (gives : record.Gives [first.name, second.name] [a, b]) (readFirst : first.read a = .ok x)
    (readSecond : second.read b = .ok y) : record.two owner first second = .ok (x, y) := by
  cases gives with
  | @named members each =>
    have differ : first.name ≠ second.name := by simpa using apart
    have ignores (state : Option β) (member : String × Json) (isFirst : member.1 = first.name) :
        second.step state member = .ok state := by
      rw [Field.step, if_neg (isFirst ▸ differ)]
    have filled := foldlM_joinStep ignores
      (Field.foldlM_step (each (first.name, a) (by simp)) readFirst)
      (Field.foldlM_step (each (second.name, b) (by simp)) readSecond)
    rw [two_named, filled]
    rfl
  | positional =>
    show ((first.read a).map (·, [b]) >>= fun taken => second.take (owner 2) 1 taken.2 >>=
      fun next => close 2 next.2 >>= fun _ => .ok (taken.1, next.1)) = _
    rw [readFirst]
    show ((second.read b).map (·, []) >>= fun next => close 2 next.2 >>= fun _ =>
      .ok (x, next.1)) = _
    rw [readSecond]
    rfl

theorem three_of_gives (apart : [first.name, second.name, third.name].Nodup)
    (gives : record.Gives [first.name, second.name, third.name] [a, b, c])
    (readFirst : first.read a = .ok x) (readSecond : second.read b = .ok y)
    (readThird : third.read c = .ok z) :
    record.three owner first second third = .ok (x, y, z) := by
  obtain ⟨⟨firstSecond, firstThird⟩, secondThird⟩ : (first.name ≠ second.name ∧
      first.name ≠ third.name) ∧ second.name ≠ third.name := by simpa using apart
  cases gives with
  | @named members each =>
    have ignoresThird (state : Option γ) (member : String × Json)
        (isSecond : member.1 = second.name) : third.step state member = .ok state := by
      rw [Field.step, if_neg (isSecond ▸ secondThird)]
    have ignoresBoth (state : Option β × Option γ) (member : String × Json)
        (isFirst : member.1 = first.name) :
        joinStep second third.step state member = .ok state := by
      rw [joinStep, if_neg (isFirst ▸ firstSecond), Field.step, if_neg (isFirst ▸ firstThird)]
      rfl
    have filled := foldlM_joinStep ignoresBoth
      (Field.foldlM_step (each (first.name, a) (by simp)) readFirst)
      (foldlM_joinStep ignoresThird
        (Field.foldlM_step (each (second.name, b) (by simp)) readSecond)
        (Field.foldlM_step (each (third.name, c) (by simp)) readThird))
    rw [three_named, filled]
    rfl
  | positional =>
    show ((first.read a).map (·, [b, c]) >>= fun taken => second.take (owner 3) 1 taken.2 >>=
      fun next => third.take (owner 3) 2 next.2 >>= fun last => close 3 last.2 >>= fun _ =>
        .ok (taken.1, next.1, last.1)) = _
    rw [readFirst]
    show ((second.read b).map (·, [c]) >>= fun next => third.take (owner 3) 2 next.2 >>= fun last =>
      close 3 last.2 >>= fun _ => .ok (x, next.1, last.1)) = _
    rw [readSecond]
    show ((third.read c).map (·, []) >>= fun last => close 3 last.2 >>= fun _ =>
      .ok (x, y, last.1)) = _
    rw [readThird]
    rfl

end Record

/-! ### Terms -/

theorem readIdentifier_of_encodes {name : String} {json : Json}
    (encodes : EncodesIdentifier name json) : readIdentifier json = .ok name := by
  cases encodes with
  | @named members once =>
    have gives : (Record.named members).Gives ["text"] [.string name] :=
      .named (by simpa using once)
    show (Record.named members).one (fun _ => .identifierFields) ⟨"text", readText⟩ = .ok name
    exact Record.one_of_gives gives rfl
  | positional => rfl

theorem readList_of_forall₂ {α : Type} {read : Json → Except Flaw α} {entries : List α}
    {items : List Json}
    (each : List.Forall₂ (fun entry item => read item = .ok entry) entries items) :
    readList read (.array items) = .ok entries := by
  show items.mapM read = .ok entries
  induction each with
  | nil => rfl
  | cons readFirst _ inductionHypothesis =>
    rw [List.mapM_cons, readFirst, inductionHypothesis]
    rfl

theorem readKindName_name (kind : Kind) : readKindName kind.name = .ok kind := by
  rw [readKindName, Kind.ofName?_name]

theorem readKind_of_isTag {kind : Kind} {tag : Json} (isTag : IsTag kind tag) :
    readKind tag = .ok kind := by
  rcases isTag with rfl | ⟨index, rfl, there⟩
  · exact readKindName_name kind
  · have nonnegative : ¬(index : Int) < 0 := by omega
    rw [readKind, if_neg nonnegative, Int.toNat_natCast, Kind.ofIndex?, there]

theorem readInteger_toInt (value : Int64) : readInteger (.integer value.toInt) = .ok value := by
  rw [readInteger, if_pos value.toInt_le, Int64.ofInt_toInt]

theorem readOperator_name (op : BinaryOp) : readOperator (.string op.name) = .ok op := by
  simp only [readOperator, readText, bind, Except.bind, BinaryOp.ofName?_name]
  rfl

/-- The kind is taken out of the members, and the others stay as they are. -/
theorem splitKind_of_absent (kind : Kind) {members : List (String × Json)}
    (absent : members.filter (fun member => member.1 = kindKey) = [])
    (others : List (String × Json)) :
    splitKind (some kind) others members = .ok (kind, .named (others.reverse ++ members)) := by
  induction members generalizing others with
  | nil => rw [splitKind, List.append_nil]
  | cons member members inductionHypothesis =>
    rw [List.filter_eq_nil_iff] at absent
    have different : member.1 ≠ kindKey := by simpa using absent member List.mem_cons_self
    rw [splitKind, if_neg different, inductionHypothesis (List.filter_eq_nil_iff.mpr
      fun other inside => absent other (List.mem_cons_of_mem _ inside)), List.reverse_cons,
      List.append_assoc, List.singleton_append]

theorem splitKind_of_once {kind : Kind} {tag : Json} {members : List (String × Json)}
    (once : Once members kindKey tag) (read : readKind tag = .ok kind)
    (others : List (String × Json)) :
    splitKind none others members =
      .ok (kind, .named (others.reverse ++ members.filter fun member => member.1 ≠ kindKey)) := by
  induction members generalizing others with
  | nil => cases once
  | cons member members inductionHypothesis =>
    obtain ⟨key, json⟩ := member
    by_cases same : key = kindKey
    · rw [Once, List.filter_cons_of_pos (by simpa using same), List.cons.injEq] at once
      obtain ⟨isTag, absent⟩ := once
      cases isTag
      rw [splitKind, if_pos rfl]
      show (readKind tag >>= fun kind => splitKind (some kind) others members) = _
      rw [read]
      have unchanged : members.filter (fun member => member.1 ≠ kindKey) = members :=
        List.filter_eq_self.mpr fun member inside => by
          simpa using List.filter_eq_nil_iff.mp absent member inside
      rw [List.filter_cons_of_neg (by simp), unchanged]
      exact splitKind_of_absent kind absent others
    · rw [Once, List.filter_cons_of_neg (by simpa using same)] at once
      rw [splitKind, if_neg same, inductionHypothesis once,
        List.filter_cons_of_pos (by simpa using same), List.reverse_cons, List.append_assoc,
        List.singleton_append]

theorem Once.filter_ne {members : List (String × Json)} {key : String} {json : Json}
    (once : Once members key json) {other : String} (different : key ≠ other) :
    Once (members.filter fun member => member.1 ≠ other) key json := by
  rw [Once, List.filter_filter]
  rw [Once] at once
  rw [← once]
  refine List.filter_congr fun member _ => ?_
  by_cases same : member.1 = key
  · simp [same, different]
  · simp [same]

theorem nodup_fieldNames (kind : Kind) : kind.fieldNames.Nodup := by
  cases kind <;> decide

theorem kindKey_notMem_fieldNames (kind : Kind) : kindKey ∉ kind.fieldNames := by
  cases kind <;> decide

/-- The kind of a term is found, and the rest of its record gives values to its fields. -/
theorem Tagged.readTagged {kind : Kind} {tag json : Json} {values : List Json}
    (tagged : Tagged kind tag values json) (isTag : IsTag kind tag) :
    ∃ record, readTagged json = .ok (kind, record) ∧ record.Gives kind.fieldNames values := by
  have read := readKind_of_isTag isTag
  cases tagged with
  | named tagOnce each =>
    refine ⟨_, splitKind_of_once tagOnce read [], .named fun entry member => ?_⟩
    refine (each entry member).filter_ne fun isKind => kindKey_notMem_fieldNames kind ?_
    rw [← isKind]
    exact (List.of_mem_zip member).1
  | positional =>
    refine ⟨.positional values, ?_, .positional⟩
    show (readKind tag >>= fun kind => .ok (kind, Record.positional values)) = _
    rw [read]
    rfl

theorem EncodesFields.length_eq {term : Term} {values : List Json}
    (encodes : EncodesFields term values) : values.length = term.kind.fieldNames.length := by
  cases encodes <;> rfl

theorem depth_le_depthElements {items : List Json} {json : Json} (member : json ∈ items) :
    json.depth ≤ Json.depthElements items := by
  induction items with
  | nil => cases member
  | cons item items inductionHypothesis =>
    rw [Json.depthElements]
    rcases List.mem_cons.mp member with rfl | further
    · exact Nat.le_max_left _ _
    · exact Nat.le_trans (inductionHypothesis further) (Nat.le_max_right _ _)

theorem depth_le_depthMembers {members : List (String × Json)} {entry : String × Json}
    (member : entry ∈ members) : entry.2.depth ≤ Json.depthMembers members := by
  induction members with
  | nil => cases member
  | cons first members inductionHypothesis =>
    rw [Json.depthMembers]
    rcases List.mem_cons.mp member with rfl | further
    · exact Nat.le_max_left _ _
    · exact Nat.le_trans (inductionHypothesis further) (Nat.le_max_right _ _)

/-- What stands for a field is among the members, or in the list. -/
theorem exists_name_of_mem {names : List String} {values : List Json}
    (same : values.length = names.length) {value : Json} (member : value ∈ values) :
    ∃ name, (name, value) ∈ names.zip values := by
  obtain ⟨position, inRange, rfl⟩ := List.getElem_of_mem member
  exact ⟨names[position], List.mem_of_getElem? (List.getElem?_zip_eq_some.mpr
    ⟨List.getElem?_eq_getElem _, List.getElem?_eq_getElem inRange⟩)⟩

/-- The values of the fields are nested less deep than the term. -/
theorem Tagged.depth_lt {kind : Kind} {tag json : Json} {values : List Json}
    (tagged : Tagged kind tag values json) (same : values.length = kind.fieldNames.length)
    {value : Json} (member : value ∈ values) : value.depth < json.depth := by
  cases tagged with
  | named _ each =>
    obtain ⟨name, inZip⟩ := exists_name_of_mem same member
    rw [Json.depth]
    exact Nat.lt_succ_of_le (depth_le_depthMembers (each _ inZip).mem)
  | positional =>
    rw [Json.depth]
    exact Nat.lt_succ_of_le (depth_le_depthElements (List.mem_cons_of_mem _ member))

mutual

/-- Every shape of a term is decoded to that term. -/
theorem readTerm_of_encodes {term : Term} {json : Json} (encodes : EncodesTerm term json)
    {depth : Nat} (enough : json.depth ≤ depth) : readTerm depth json = .ok term :=
  match encodes with
  | .intro isTag fields shape => by
    obtain ⟨record, tagged, gives⟩ := shape.readTagged isTag
    cases depth with
    | zero => cases shape <;> simp [Json.depth] at enough
    | succ depth =>
      show (readTagged json >>= fun tagged => termOfRecord (readTerm depth) tagged.1 tagged.2) = _
      rw [tagged]
      exact termOfRecord_of_encodes fields gives fun value member => Nat.le_of_lt_succ
        (Nat.lt_of_lt_of_le (shape.depth_lt fields.length_eq member) enough)

theorem termOfRecord_of_encodes {term : Term} {values : List Json}
    (encodes : EncodesFields term values) {record : Record}
    (gives : record.Gives term.kind.fieldNames values) {depth : Nat}
    (enough : ∀ value ∈ values, value.depth ≤ depth) :
    termOfRecord (readTerm depth) term.kind record = .ok term :=
  match encodes with
  | @EncodesFields.letIn name value next _ _ _ isName isValue isNext => by
    have read : record.three (.termFields .letIn) ⟨"name", readIdentifier⟩
        ⟨"value", readTerm depth⟩ ⟨"next", readTerm depth⟩ = .ok (name, value, next) :=
      Record.three_of_gives (nodup_fieldNames .letIn) gives (readIdentifier_of_encodes isName)
        (readTerm_of_encodes isValue (enough _ (by simp)))
        (readTerm_of_encodes isNext (enough _ (by simp)))
    simp only [termOfRecord, Term.kind, read]
    rfl
  | @EncodesFields.function parameters body items _ areParameters isBody => by
    have read : record.two (.termFields .function) ⟨"parameters", readList readIdentifier⟩
        ⟨"value", readTerm depth⟩ = .ok (parameters, body) :=
      Record.two_of_gives (nodup_fieldNames .function) gives
        (readList_of_forall₂ (areParameters.imp fun _ _ => readIdentifier_of_encodes))
        (readTerm_of_encodes isBody (enough _ (by simp)))
    simp only [termOfRecord, Term.kind, read]
    rfl
  | @EncodesFields.ifElse condition consequent alternative _ _ _ isCondition isConsequent
      isAlternative => by
    have read : record.three (.termFields .ifElse) ⟨"condition", readTerm depth⟩
        ⟨"then", readTerm depth⟩ ⟨"otherwise", readTerm depth⟩ =
          .ok (condition, consequent, alternative) :=
      Record.three_of_gives (nodup_fieldNames .ifElse) gives
        (readTerm_of_encodes isCondition (enough _ (by simp)))
        (readTerm_of_encodes isConsequent (enough _ (by simp)))
        (readTerm_of_encodes isAlternative (enough _ (by simp)))
    simp only [termOfRecord, Term.kind, read]
    rfl
  | @EncodesFields.print value _ isValue => by
    have read : record.one (.termFields .print) ⟨"value", readTerm depth⟩ = .ok value :=
      Record.one_of_gives gives (readTerm_of_encodes isValue (enough _ (by simp)))
    simp only [termOfRecord, Term.kind, read]
    rfl
  | @EncodesFields.call callee arguments _ items isCallee areArguments => by
    have within : Json.depthElements items ≤ depth := by
      have arrayWithin := enough (.array items) (by simp)
      rw [Json.depth] at arrayWithin
      exact Nat.le_of_succ_le arrayWithin
    have read : record.two (.termFields .call) ⟨"callee", readTerm depth⟩
        ⟨"arguments", readList (readTerm depth)⟩ = .ok (callee, arguments) :=
      Record.two_of_gives (nodup_fieldNames .call) gives
        (readTerm_of_encodes isCallee (enough _ (by simp)))
        (readList_of_forall₂ (readTerms_of_encodes areArguments within))
    simp only [termOfRecord, Term.kind, read]
    rfl
  | @EncodesFields.var name => by
    have read : record.one (.termFields .var) ⟨"text", readText⟩ = .ok name :=
      Record.one_of_gives gives rfl
    simp only [termOfRecord, Term.kind, read]
    rfl
  | @EncodesFields.int value => by
    have read : record.one (.termFields .int) ⟨"value", readInteger⟩ = .ok value :=
      Record.one_of_gives gives (readInteger_toInt value)
    simp only [termOfRecord, Term.kind, read]
    rfl
  | @EncodesFields.str value => by
    have read : record.one (.termFields .str) ⟨"value", readText⟩ = .ok value :=
      Record.one_of_gives gives rfl
    simp only [termOfRecord, Term.kind, read]
    rfl
  | @EncodesFields.bool value => by
    have read : record.one (.termFields .bool) ⟨"value", readBool⟩ = .ok value :=
      Record.one_of_gives gives rfl
    simp only [termOfRecord, Term.kind, read]
    rfl
  | @EncodesFields.binary op lhs rhs _ _ isLeft isRight => by
    have read : record.three (.termFields .binary) ⟨"lhs", readTerm depth⟩ ⟨"op", readOperator⟩
        ⟨"rhs", readTerm depth⟩ = .ok (lhs, op, rhs) :=
      Record.three_of_gives (nodup_fieldNames .binary) gives
        (readTerm_of_encodes isLeft (enough _ (by simp))) (readOperator_name op)
        (readTerm_of_encodes isRight (enough _ (by simp)))
    simp only [termOfRecord, Term.kind, read]
    rfl
  | @EncodesFields.tuple left right _ _ isLeft isRight => by
    have read : record.two (.termFields .tuple) ⟨"first", readTerm depth⟩
        ⟨"second", readTerm depth⟩ = .ok (left, right) :=
      Record.two_of_gives (nodup_fieldNames .tuple) gives
        (readTerm_of_encodes isLeft (enough _ (by simp)))
        (readTerm_of_encodes isRight (enough _ (by simp)))
    simp only [termOfRecord, Term.kind, read]
    rfl
  | @EncodesFields.first value _ isValue => by
    have read : record.one (.termFields .first) ⟨"value", readTerm depth⟩ = .ok value :=
      Record.one_of_gives gives (readTerm_of_encodes isValue (enough _ (by simp)))
    simp only [termOfRecord, Term.kind, read]
    rfl
  | @EncodesFields.second value _ isValue => by
    have read : record.one (.termFields .second) ⟨"value", readTerm depth⟩ = .ok value :=
      Record.one_of_gives gives (readTerm_of_encodes isValue (enough _ (by simp)))
    simp only [termOfRecord, Term.kind, read]
    rfl

theorem readTerms_of_encodes {terms : List Term} {items : List Json}
    (encodes : EncodesTerms terms items) {depth : Nat}
    (enough : Json.depthElements items ≤ depth) :
    List.Forall₂ (fun term item => readTerm depth item = .ok term) terms items :=
  match encodes with
  | .nil => .nil
  | .cons first others => .cons
      (readTerm_of_encodes first (Nat.le_trans (Nat.le_max_left _ _) enough))
      (readTerms_of_encodes others (Nat.le_trans (Nat.le_max_right _ _) enough))

end

/-- A record that gives values to the fields of a term is decoded to that term. -/
theorem readRecord_of_gives {term : Term} {values : List Json} (encodes : EncodesFields term values)
    {record : Record} (gives : record.Gives term.kind.fieldNames values) :
    readRecord term.kind record = .ok term := by
  cases gives with
  | named each =>
    refine termOfRecord_of_encodes encodes (.named each) fun value member => ?_
    obtain ⟨name, inZip⟩ := exists_name_of_mem encodes.length_eq member
    exact depth_le_depthMembers (each _ inZip).mem
  | positional =>
    exact termOfRecord_of_encodes encodes .positional fun _ => depth_le_depthElements

end Decoding

end TreeScript
