/-
This file says for which documents decoding stops at a kind that does not exist. The
document is decoded while it is read, so nothing may be wrong with the text in front of
its root term. The root term is read to its end before its fields are decoded, but its
kind is checked as soon as it has been read: what stands in front of the kind only has
to be JSON, and what stands behind it does not matter. If the kind of the root exists,
then the text of the root term has to be JSON to its end, and a kind inside it has to be
the first of its flaws.
-/

import TreeScript.Proofs.Decoding.Truncation
import TreeScript.Proofs.Decoding.UnknownKinds

namespace TreeScript

namespace Decoding

variable {α β : Type} {name : String}

/-- Decoding stops at a kind of this name. -/
def Refuses (name : String) (decoded : Except Fault α) : Prop :=
  ∃ fault, decoded = .error fault ∧ fault.cause = .flawed (.unknownKind name)

theorem not_refuses_ok (value : α) : ¬Refuses name (.ok value) := by
  rintro ⟨fault, same, -⟩
  cases same

theorem refuses_error_iff (fault : Fault) :
    Refuses name (.error fault : Except Fault α) ↔ fault.cause = .flawed (.unknownKind name) := by
  constructor
  · rintro ⟨_, ⟨⟩, cause⟩
    exact cause
  · exact fun cause => ⟨fault, rfl, cause⟩

theorem refuses_flawAt_iff (rest : List Char) (flaw : Flaw) :
    Refuses name (flawAt rest flaw : Except Fault α) ↔ flaw = .unknownKind name := by
  rw [flawAt, refuses_error_iff]
  exact Defect.flawed.injEq .. ▸ Iff.rfl

theorem refuses_bind_iff {decoded : Except Fault α} {next : α → Except Fault β} :
    Refuses name (decoded >>= next) ↔
      Refuses name decoded ∨ ∃ value, decoded = .ok value ∧ Refuses name (next value) := by
  cases decoded with
  | error fault =>
    show Refuses name (.error fault : Except Fault β) ↔ _
    rw [refuses_error_iff, refuses_error_iff]
    simp
  | ok value =>
    show Refuses name (next value) ↔ _
    simp [not_refuses_ok]

/-- What the JSON readers refuse is not refused for a kind. -/
theorem refuses_reading_iff {reading : Except Json.Fault α} {next : α → Except Fault β} :
    Refuses name (ofJsonReading reading >>= next) ↔
      ∃ value, reading = .ok value ∧ Refuses name (next value) := by
  cases reading with
  | error fault =>
    show Refuses name (.error (fault.map Defect.malformed) : Except Fault β) ↔ _
    rw [refuses_error_iff]
    simp [Text.Fault.map]
  | ok value =>
    show Refuses name (next value) ↔ _
    simp

theorem not_refuses_unexpected (expected : Expected) (input : List Char) :
    ¬Refuses name (unexpected expected input : Except Fault α) := by
  rw [unexpected.eq_def]
  split
  next =>
    rw [refuses_flawAt_iff]
    rintro ⟨⟩
  next =>
    rw [refuses_flawAt_iff]
    rintro ⟨⟩
  next =>
    split
    next =>
      rw [refuses_flawAt_iff]
      rintro ⟨⟩
    next =>
      rw [refuses_error_iff]
      rintro ⟨⟩

theorem not_refuses_text (expected : Expected) (input : List Char) :
    ¬Refuses name (text expected input) := by
  rw [text]
  split
  next =>
    rw [refuses_error_iff]
    rintro ⟨⟩
  next rest _ =>
    rintro ⟨fault, refused, cause⟩
    cases read : Json.stringBody [] rest with
    | ok result =>
      rw [read] at refused
      cases refused
    | error other =>
      rw [read] at refused
      cases refused
      cases cause
  next => exact not_refuses_unexpected expected _

theorem readKindName_eq_error_iff {text : String} :
    readKindName text = .error (.unknownKind name) ↔ text = name ∧ Kind.ofName? name = none := by
  rw [readKindName]
  cases found : Kind.ofName? text with
  | none =>
    constructor
    · intro refused
      cases refused
      exact ⟨rfl, found⟩
    · rintro ⟨rfl, -⟩
      rfl
  | some kind =>
    constructor
    · intro refused
      cases refused
    · rintro ⟨rfl, unknown⟩
      cases unknown.symm.trans found

/-! ### The kind of the root term -/

/-- Reading the members of the root term gets to its kind, which is given as this text. -/
inductive MeetsKind (name : String) : Bool → List Char → Prop where
  | here {isFirst : Bool} {input rest left behind : List Char}
      (isKind : Json.nextKey isFirst input = .ok (some (kindKey, rest)))
      (hasColon : Json.colon rest = .ok left) (read : text .kind left = .ok (name, behind)) :
      MeetsKind name isFirst input
  | later {isFirst : Bool} {input rest behind : List Char} {key : String} {json : Json}
      {count : Nat} (isOther : Json.nextKey isFirst input = .ok (some (key, rest)))
      (notKind : key ≠ kindKey) (read : Json.colon rest >>= Json.value count = .ok (json, behind))
      (meets : MeetsKind name false behind) : MeetsKind name isFirst input

/-- Reading the root term gets to its kind, which is given as this text. -/
inductive RootKind (name : String) (input : List Char) : Prop where
  | listed {rest left behind : List Char} (opens : Json.skipBlank input = '[' :: rest)
      (hasFirst : Json.nextElement true rest = .ok (some left))
      (read : text .kind left = .ok (name, behind))
  | named {rest : List Char} (opens : Json.skipBlank input = '\x7b' :: rest)
      (meets : MeetsKind name true rest)

theorem refuses_rootKind_iff {input : List Char} :
    Refuses name (rootKind input) ↔
      (∃ rest, text .kind input = .ok (name, rest)) ∧ Kind.ofName? name = none := by
  rw [rootKind, refuses_bind_iff, or_iff_right (not_refuses_text _ _)]
  constructor
  · rintro ⟨⟨found, rest⟩, read, refuses⟩
    dsimp only at refuses
    split at refuses
    next => exact absurd refuses (not_refuses_ok _)
    next flaw refused =>
      rw [refuses_flawAt_iff] at refuses
      subst refuses
      obtain ⟨rfl, unknown⟩ := readKindName_eq_error_iff.mp refused
      exact ⟨⟨rest, read⟩, unknown⟩
  · rintro ⟨⟨rest, read⟩, unknown⟩
    refine ⟨(name, rest), read, ?_⟩
    dsimp only
    rw [readKindName_eq_error_iff.mpr ⟨rfl, unknown⟩]
    exact (refuses_flawAt_iff rest _).mpr rfl

/-- What one member of the root term can have to do with it. -/
theorem refuses_rootMembers_iff {count : Nat} {isFirst : Bool} {kind : Option Kind}
    {done : List (String × Json)} {input : List Char} :
    Refuses name (rootMembers (count + 1) isFirst kind done input) ↔
      ∃ key rest, Json.nextKey isFirst input = .ok (some (key, rest)) ∧
        ((key = kindKey ∧ kind = none ∧ ∃ left, Json.colon rest = .ok left ∧
          (Refuses name (rootKind left) ∨ ∃ found behind, rootKind left = .ok (found, behind) ∧
            Refuses name (rootMembers count false (some found) done behind))) ∨
        (key ≠ kindKey ∧ ∃ json behind,
          Json.colon rest >>= Json.value count = .ok (json, behind) ∧
            Refuses name (rootMembers count false kind ((key, json) :: done) behind))) := by
  rw [rootMembers.eq_def]
  dsimp only
  rw [refuses_reading_iff]
  constructor
  · rintro ⟨next, hasNext, refuses⟩
    cases next with
    | none =>
      cases kind with
      | none =>
        rw [refuses_flawAt_iff] at refuses
        cases refuses
      | some kind => exact absurd refuses (not_refuses_ok _)
    | some entry =>
      obtain ⟨key, rest⟩ := entry
      refine ⟨key, rest, hasNext, ?_⟩
      dsimp only at refuses
      split at refuses
      next isKind =>
        split at refuses
        next =>
          rw [refuses_flawAt_iff] at refuses
          cases refuses
        next notGiven =>
          rw [refuses_reading_iff] at refuses
          obtain ⟨left, hasColon, refuses⟩ := refuses
          rw [refuses_bind_iff] at refuses
          refine .inl ⟨isKind, by simpa using notGiven, left, hasColon, refuses.imp_right ?_⟩
          rintro ⟨⟨found, behind⟩, read, refuses⟩
          exact ⟨found, behind, read, refuses⟩
      next notKind =>
        rw [refuses_reading_iff] at refuses
        obtain ⟨⟨json, behind⟩, read, refuses⟩ := refuses
        exact .inr ⟨notKind, json, behind, read, refuses⟩
  · rintro ⟨key, rest, hasNext, ⟨isKind, rfl, left, hasColon, refuses⟩ |
      ⟨notKind, json, behind, read, refuses⟩⟩
    · refine ⟨some (key, rest), hasNext, ?_⟩
      dsimp only
      rw [if_pos isKind, if_neg (by simp), refuses_reading_iff]
      refine ⟨left, hasColon, refuses_bind_iff.mpr (refuses.imp_right ?_)⟩
      rintro ⟨found, behind, read, refuses⟩
      exact ⟨(found, behind), read, refuses⟩
    · refine ⟨some (key, rest), hasNext, ?_⟩
      dsimp only
      rw [if_neg notKind, refuses_reading_iff]
      exact ⟨(json, behind), read, refuses⟩

theorem not_refuses_rootMembers_some (count : Nat) (isFirst : Bool) (kind : Kind)
    (done : List (String × Json)) (input : List Char) :
    ¬Refuses name (rootMembers count isFirst (some kind) done input) := by
  induction count generalizing isFirst done input with
  | zero =>
    rw [rootMembers, refuses_error_iff]
    rintro ⟨⟩
  | succ count inductionHypothesis =>
    rw [refuses_rootMembers_iff]
    rintro ⟨key, rest, -, ⟨-, given, -⟩ | ⟨-, json, behind, -, refuses⟩⟩
    · cases given
    · exact inductionHypothesis _ _ _ refuses

theorem meetsKind_of_refuses {count : Nat} {isFirst : Bool} {done : List (String × Json)}
    {input : List Char} (refuses : Refuses name (rootMembers count isFirst none done input)) :
    MeetsKind name isFirst input ∧ Kind.ofName? name = none := by
  induction count generalizing isFirst done input with
  | zero =>
    rw [rootMembers, refuses_error_iff] at refuses
    cases refuses
  | succ count inductionHypothesis =>
    obtain ⟨key, rest, hasNext, ⟨rfl, -, left, hasColon, refuses | ⟨found, behind, -, refuses⟩⟩ |
      ⟨notKind, json, behind, read, refuses⟩⟩ := refuses_rootMembers_iff.mp refuses
    · obtain ⟨⟨behind, read⟩, unknown⟩ := refuses_rootKind_iff.mp refuses
      exact ⟨.here hasNext hasColon read, unknown⟩
    · exact absurd refuses (not_refuses_rootMembers_some _ _ _ _ _)
    · obtain ⟨meets, unknown⟩ := inductionHypothesis refuses
      exact ⟨.later hasNext notKind read meets, unknown⟩

theorem refuses_of_meetsKind {isFirst : Bool} {input : List Char}
    (meets : MeetsKind name isFirst input) (unknown : Kind.ofName? name = none) {count : Nat}
    (enough : 2 * input.length < count) (done : List (String × Json)) :
    Refuses name (rootMembers count isFirst none done input) := by
  induction meets generalizing count done with
  | here isKind hasColon read =>
    obtain ⟨count, rfl⟩ := Nat.exists_eq_add_one.mpr (by omega : 0 < count)
    exact refuses_rootMembers_iff.mpr ⟨_, _, isKind, .inl ⟨rfl, rfl, _, hasColon,
      .inl (refuses_rootKind_iff.mpr ⟨⟨_, read⟩, unknown⟩)⟩⟩
  | later isOther notKind read _ inductionHypothesis =>
    obtain ⟨count, rfl⟩ := Nat.exists_eq_add_one.mpr (by omega : 0 < count)
    have restLength := ((Json.nextKey_extend isOther).1 _ rfl).length_le
    have behindLength := (Json.colon_value_extend read).1.2
    dsimp only at restLength
    exact refuses_rootMembers_iff.mpr ⟨_, _, isOther, .inr ⟨notKind, _, _,
      Json.colon_value_of_le read (by omega), inductionHypothesis (by omega) _⟩⟩

theorem not_refuses_close {left : List Char} {result : α}
    (close : List Char → Except Json.Fault (List Char)) :
    ¬Refuses name (do return (result, ← ofJsonReading (close left)) :
      Except Fault (α × List Char)) := by
  rw [refuses_reading_iff]
  rintro ⟨rest, -, refuses⟩
  exact not_refuses_ok _ refuses

theorem refuses_rootRecord_iff {input : List Char} :
    Refuses name (rootRecord input) ↔ RootKind name input ∧ Kind.ofName? name = none := by
  cases found : Json.skipBlank input with
  | nil =>
    rw [rootRecord, found]
    constructor
    · rintro ⟨fault, ⟨⟩, cause⟩
      cases cause
    · rintro ⟨⟨opens, -, -⟩ | ⟨opens, -⟩, -⟩ <;> cases found.symm.trans opens
  | cons c rest =>
    by_cases isList : c = '['
    · subst isList
      rw [rootRecord, found]
      refine refuses_reading_iff.trans ?_
      constructor
      · rintro ⟨next, hasNext, refuses⟩
        cases next with
        | none =>
          rw [refuses_flawAt_iff] at refuses
          cases refuses
        | some left =>
          rcases refuses_bind_iff.mp refuses with refuses | ⟨⟨kind, behind⟩, -, refuses⟩
          · obtain ⟨⟨behind, read⟩, unknown⟩ := refuses_rootKind_iff.mp refuses
            exact ⟨.listed found hasNext read, unknown⟩
          · obtain ⟨⟨fields, closing⟩, -, refuses⟩ := refuses_reading_iff.mp refuses
            exact absurd refuses (not_refuses_close Json.closeList)
      · rintro ⟨⟨opens, hasFirst, read⟩ | ⟨opens, -⟩, unknown⟩
        · cases found.symm.trans opens
          exact ⟨_, hasFirst, refuses_bind_iff.mpr
            (.inl (refuses_rootKind_iff.mpr ⟨⟨_, read⟩, unknown⟩))⟩
        · cases found.symm.trans opens
    by_cases isObject : c = '\x7b'
    · subst isObject
      rw [rootRecord, found]
      refine refuses_bind_iff.trans ?_
      constructor
      · rintro (refuses | ⟨⟨tagged, closing⟩, -, refuses⟩)
        · obtain ⟨meets, unknown⟩ := meetsKind_of_refuses refuses
          exact ⟨.named found meets, unknown⟩
        · exact absurd refuses (not_refuses_close Json.closeObject)
      · rintro ⟨⟨opens, -, -⟩ | ⟨opens, meets⟩, unknown⟩
        · cases found.symm.trans opens
        · cases found.symm.trans opens
          refine .inl (refuses_of_meetsKind meets unknown ?_ [])
          rw [Json.enough, List.length_cons]
          omega
    · rw [rootRecord_of_other found isList isObject]
      constructor
      · exact fun refuses => absurd refuses (not_refuses_unexpected _ _)
      · rintro ⟨⟨opens, -, -⟩ | ⟨opens, -⟩, -⟩
        · cases found.symm.trans opens
          contradiction
        · cases found.symm.trans opens
          contradiction

/-- The first thing wrong with a root term is a kind of this name: its own one, as soon as it has
been read, or one inside it, if it has been read to its end. -/
inductive FirstAtRoot (name : String) (input : List Char) : Prop where
  | own (isKind : RootKind name input) (unknown : Kind.ofName? name = none)
  | inside {kind : Kind} {record : Record} {rest : List Char}
      (read : rootRecord input = .ok ((kind, record), rest))
      (first : (record.flaws (.termFields kind) kind.fields).head? = some (.unknownKind name))

theorem FirstAtRoot.unknown {input : List Char} (first : FirstAtRoot name input) :
    Kind.ofName? name = none := by
  cases first with
  | own _ unknown => exact unknown
  | @inside kind record _ _ first =>
    rw [← flaw?_readRecord] at first
    exact stopsSound_readRecord kind record _ first

theorem refuses_rootTerm_iff (leave : List Char → List Char) {input : List Char} :
    Refuses name (rootTerm leave input) ↔ FirstAtRoot name input := by
  rw [rootTerm, refuses_bind_iff, refuses_rootRecord_iff]
  constructor
  · rintro (⟨isKind, unknown⟩ | ⟨⟨⟨kind, record⟩, rest⟩, read, refuses⟩)
    · exact .own isKind unknown
    refine .inside read ?_
    rw [← flaw?_readRecord]
    dsimp only at refuses
    split at refuses
    next => exact absurd refuses (not_refuses_ok _)
    next flaw refused =>
      rw [refuses_flawAt_iff] at refuses
      rw [refused, refuses]
      rfl
  · rintro (⟨isKind, unknown⟩ | @⟨kind, record, rest, read, first⟩)
    · exact .inl ⟨isKind, unknown⟩
    refine .inr ⟨((kind, record), rest), read, ?_⟩
    rw [← flaw?_readRecord] at first
    dsimp only
    cases decoded : readRecord kind record with
    | ok term =>
      rw [decoded] at first
      cases first
    | error flaw =>
      rw [decoded] at first
      cases first
      exact (refuses_flawAt_iff _ _).mpr rfl

/-! ### The way to the root term -/

/-- Reading the members of a document gets to its root term, whether its name was given before or
not. -/
inductive ReachesRoot : Bool → Bool → List Char → List Char → Prop where
  | here {named isFirst : Bool} {input rest root : List Char}
      (isRoot : Json.nextKey isFirst input = .ok (some (expressionKey, rest)))
      (hasColon : Json.colon rest = .ok root) : ReachesRoot named isFirst input root
  | name {isFirst : Bool} {input rest left behind root : List Char} {value : String}
      (isName : Json.nextKey isFirst input = .ok (some (nameKey, rest)))
      (hasColon : Json.colon rest = .ok left) (read : text .text left = .ok (value, behind))
      (reaches : ReachesRoot true false behind root) : ReachesRoot false isFirst input root
  | other {named isFirst : Bool} {input rest behind root : List Char} {key : String} {count : Nat}
      (isOther : Json.nextKey isFirst input = .ok (some (key, rest))) (notName : key ≠ nameKey)
      (notRoot : key ≠ expressionKey)
      (skipped : Json.colon rest >>= Json.skipValue count = .ok behind)
      (reaches : ReachesRoot named false behind root) : ReachesRoot named isFirst input root

/-- Reading a document gets to its root term. -/
inductive AtRoot (input root : List Char) : Prop where
  | listed {rest left behind : List Char} {value : String}
      (opens : Json.skipBlank input = '[' :: rest)
      (hasFirst : Json.nextElement true rest = .ok (some left))
      (read : text .text left = .ok (value, behind))
      (hasSecond : Json.nextElement false behind = .ok (some root))
  | named {rest : List Char} (opens : Json.skipBlank input = '\x7b' :: rest)
      (reaches : ReachesRoot false true rest root)

/-- What one member of a document can have to do with it. -/
theorem refuses_programMembers_iff {count : Nat} {isFirst : Bool} {given : Option String}
    {expression : Option Term} {input : List Char} :
    Refuses name (programMembers (count + 1) isFirst given expression input) ↔
      ∃ key rest, Json.nextKey isFirst input = .ok (some (key, rest)) ∧
        ((key = nameKey ∧ given = none ∧ ∃ left value behind, Json.colon rest = .ok left ∧
          text .text left = .ok (value, behind) ∧
            Refuses name (programMembers count false (some value) expression behind)) ∨
        (key = expressionKey ∧ expression = none ∧ ∃ left, Json.colon rest = .ok left ∧
          (Refuses name (rootTerm leaveObject left) ∨
            ∃ term behind, rootTerm leaveObject left = .ok (term, behind) ∧
              Refuses name (programMembers count false given (some term) behind))) ∨
        (key ≠ nameKey ∧ key ≠ expressionKey ∧ ∃ behind,
          Json.colon rest >>= Json.skipValue (Json.enough rest) = .ok behind ∧
            Refuses name (programMembers count false given expression behind))) := by
  rw [programMembers.eq_def]
  dsimp only
  rw [refuses_reading_iff]
  constructor
  · rintro ⟨next, hasNext, refuses⟩
    cases next with
    | none =>
      cases expression with
      | none =>
        rw [refuses_flawAt_iff] at refuses
        cases refuses
      | some expression => exact absurd refuses (not_refuses_ok _)
    | some entry =>
      obtain ⟨key, rest⟩ := entry
      refine ⟨key, rest, hasNext, ?_⟩
      dsimp only at refuses
      split at refuses
      next isName =>
        split at refuses
        next =>
          rw [refuses_flawAt_iff] at refuses
          cases refuses
        next notGiven =>
          obtain ⟨left, hasColon, refuses⟩ := refuses_reading_iff.mp refuses
          rcases refuses_bind_iff.mp refuses with refuses | ⟨⟨value, behind⟩, read, refuses⟩
          · exact absurd refuses (not_refuses_text _ _)
          · exact .inl ⟨isName, by simpa using notGiven, left, value, behind, hasColon, read,
              refuses⟩
      next notName =>
        split at refuses
        next isRoot =>
          split at refuses
          next =>
            rw [refuses_flawAt_iff] at refuses
            cases refuses
          next notGiven =>
            obtain ⟨left, hasColon, refuses⟩ := refuses_reading_iff.mp refuses
            refine .inr (.inl ⟨isRoot, by simpa using notGiven, left, hasColon,
              (refuses_bind_iff.mp refuses).imp_right ?_⟩)
            rintro ⟨⟨term, behind⟩, read, refuses⟩
            exact ⟨term, behind, read, refuses⟩
        next notRoot =>
          obtain ⟨behind, skipped, refuses⟩ := refuses_reading_iff.mp refuses
          exact .inr (.inr ⟨notName, notRoot, behind, skipped, refuses⟩)
  · rintro ⟨key, rest, hasNext, ⟨isName, rfl, left, value, behind, hasColon, read, refuses⟩ |
      ⟨isRoot, rfl, left, hasColon, refuses⟩ | ⟨notName, notRoot, behind, skipped, refuses⟩⟩
    · refine ⟨some (key, rest), hasNext, ?_⟩
      dsimp only
      rw [if_pos isName, if_neg (by simp), refuses_reading_iff]
      exact ⟨left, hasColon, refuses_bind_iff.mpr (.inr ⟨(value, behind), read, refuses⟩)⟩
    · have notName : key ≠ nameKey := by
        rw [isRoot]
        decide
      refine ⟨some (key, rest), hasNext, ?_⟩
      dsimp only
      rw [if_neg notName, if_pos isRoot, if_neg (by simp), refuses_reading_iff]
      refine ⟨left, hasColon, refuses_bind_iff.mpr (refuses.imp_right ?_)⟩
      rintro ⟨term, behind, read, refuses⟩
      exact ⟨(term, behind), read, refuses⟩
    · refine ⟨some (key, rest), hasNext, ?_⟩
      dsimp only
      rw [if_neg notName, if_neg notRoot, refuses_reading_iff]
      exact ⟨behind, skipped, refuses⟩

theorem not_refuses_programMembers_some (count : Nat) (isFirst : Bool) (given : Option String)
    (term : Term) (input : List Char) :
    ¬Refuses name (programMembers count isFirst given (some term) input) := by
  induction count generalizing isFirst given input with
  | zero =>
    rw [programMembers, refuses_error_iff]
    rintro ⟨⟩
  | succ count inductionHypothesis =>
    rw [refuses_programMembers_iff]
    rintro ⟨key, rest, -, ⟨-, -, left, value, behind, -, -, refuses⟩ | ⟨-, isNone, -⟩ |
      ⟨-, -, behind, -, refuses⟩⟩
    · exact inductionHypothesis _ _ _ refuses
    · cases isNone
    · exact inductionHypothesis _ _ _ refuses

theorem reachesRoot_of_refuses {count : Nat} {isFirst : Bool} {given : Option String}
    {input : List Char} (refuses : Refuses name (programMembers count isFirst given none input)) :
    ∃ root, ReachesRoot given.isSome isFirst input root ∧
      Refuses name (rootTerm leaveObject root) := by
  induction count generalizing isFirst given input with
  | zero =>
    rw [programMembers, refuses_error_iff] at refuses
    cases refuses
  | succ count inductionHypothesis =>
    obtain ⟨key, rest, hasNext, ⟨rfl, rfl, left, value, behind, hasColon, read, refuses⟩ |
      ⟨rfl, -, left, hasColon, refuses | ⟨term, behind, -, refuses⟩⟩ |
      ⟨notName, notRoot, behind, skipped, refuses⟩⟩ := refuses_programMembers_iff.mp refuses
    · obtain ⟨root, reaches, refuses⟩ := inductionHypothesis refuses
      exact ⟨root, .name hasNext hasColon read reaches, refuses⟩
    · exact ⟨left, .here hasNext hasColon, refuses⟩
    · exact absurd refuses (not_refuses_programMembers_some _ _ _ _ _)
    · obtain ⟨root, reaches, refuses⟩ := inductionHypothesis refuses
      exact ⟨root, .other hasNext notName notRoot skipped reaches, refuses⟩

theorem refuses_of_reachesRoot {named isFirst : Bool} {input root : List Char}
    (reaches : ReachesRoot named isFirst input root)
    (refuses : Refuses name (rootTerm leaveObject root)) {given : Option String}
    (isNamed : given.isSome = named) {count : Nat} (enough : 2 * input.length < count) :
    Refuses name (programMembers count isFirst given none input) := by
  induction reaches generalizing given count with
  | here isRoot hasColon =>
    obtain ⟨count, rfl⟩ := Nat.exists_eq_add_one.mpr (by omega : 0 < count)
    exact refuses_programMembers_iff.mpr
      ⟨_, _, isRoot, .inr (.inl ⟨rfl, rfl, _, hasColon, .inl refuses⟩)⟩
  | name isName hasColon read _ inductionHypothesis =>
    obtain ⟨count, rfl⟩ := Nat.exists_eq_add_one.mpr (by omega : 0 < count)
    have restLength := ((Json.nextKey_extend isName).1 _ rfl).length_le
    have leftLength := (Json.colon_extend hasColon).1.2
    have behindLength := ((carries_text .text _ []).isSuffix_of_eq_ok read).length_le
    dsimp only at restLength
    exact refuses_programMembers_iff.mpr ⟨_, _, isName, .inl ⟨rfl, by simpa using isNamed, _, _, _,
      hasColon, read, inductionHypothesis refuses rfl (by omega)⟩⟩
  | other isOther notName notRoot skipped _ inductionHypothesis =>
    obtain ⟨count, rfl⟩ := Nat.exists_eq_add_one.mpr (by omega : 0 < count)
    have restLength := ((Json.nextKey_extend isOther).1 _ rfl).length_le
    have behindLength := (Json.colon_skipValue_extend skipped).1.2
    dsimp only at restLength
    exact refuses_programMembers_iff.mpr ⟨_, _, isOther, .inr (.inr ⟨notName, notRoot, _,
      Json.colon_skipValue_of_le skipped (by rw [Json.enough]; omega),
      inductionHypothesis refuses isNamed (by omega)⟩)⟩

theorem refuses_programElements_iff {input : List Char} :
    Refuses name (programElements input) ↔
      ∃ left value behind root, Json.nextElement true input = .ok (some left) ∧
        text .text left = .ok (value, behind) ∧
        Json.nextElement false behind = .ok (some root) ∧ FirstAtRoot name root := by
  rw [programElements, refuses_reading_iff]
  constructor
  · rintro ⟨next, hasFirst, refuses⟩
    cases next with
    | none =>
      rw [refuses_flawAt_iff] at refuses
      cases refuses
    | some left =>
      rcases refuses_bind_iff.mp refuses with refuses | ⟨⟨value, behind⟩, read, refuses⟩
      · exact absurd refuses (not_refuses_text _ _)
      obtain ⟨next, hasSecond, refuses⟩ := refuses_reading_iff.mp refuses
      cases next with
      | none =>
        rw [refuses_flawAt_iff] at refuses
        cases refuses
      | some root =>
        rcases refuses_bind_iff.mp refuses with refuses | ⟨⟨term, rest⟩, -, refuses⟩
        · exact ⟨left, value, behind, root, hasFirst, read, hasSecond,
            (refuses_rootTerm_iff leaveList).mp refuses⟩
        · exact absurd refuses (not_refuses_ok _)
  · rintro ⟨left, value, behind, root, hasFirst, read, hasSecond, first⟩
    refine ⟨some left, hasFirst, refuses_bind_iff.mpr (.inr ⟨(value, behind), read, ?_⟩)⟩
    refine refuses_reading_iff.mpr ⟨some root, hasSecond, refuses_bind_iff.mpr (.inl ?_)⟩
    exact (refuses_rootTerm_iff leaveList).mpr first

/-- The first thing wrong with a document is a kind of this name. -/
def FirstIsKind (name : String) (input : List Char) : Prop :=
  ∃ root, AtRoot input root ∧ FirstAtRoot name root

theorem refuses_program_iff {input : List Char} :
    Refuses name (program input) ↔ FirstIsKind name input := by
  cases found : Json.skipBlank input with
  | nil =>
    rw [program, found]
    constructor
    · rintro ⟨fault, ⟨⟩, cause⟩
      cases cause
    · rintro ⟨root, ⟨opens, -, -, -⟩ | ⟨opens, -⟩, -⟩ <;> cases found.symm.trans opens
  | cons c rest =>
    by_cases isList : c = '['
    · subst isList
      rw [program, found]
      refine refuses_bind_iff.trans ?_
      constructor
      · rintro (refuses | ⟨⟨decoded, left⟩, -, refuses⟩)
        · obtain ⟨left, value, behind, root, hasFirst, read, hasSecond, first⟩ :=
            refuses_programElements_iff.mp refuses
          exact ⟨root, .listed found hasFirst read hasSecond, first⟩
        · exact absurd refuses (not_refuses_close Json.closeList)
      · rintro ⟨root, ⟨opens, hasFirst, read, hasSecond⟩ | ⟨opens, -⟩, first⟩
        · cases found.symm.trans opens
          exact .inl (refuses_programElements_iff.mpr
            ⟨_, _, _, root, hasFirst, read, hasSecond, first⟩)
        · cases found.symm.trans opens
    by_cases isObject : c = '\x7b'
    · subst isObject
      rw [program, found]
      refine refuses_bind_iff.trans ?_
      constructor
      · rintro (refuses | ⟨⟨decoded, left⟩, -, refuses⟩)
        · obtain ⟨root, reaches, refuses⟩ := reachesRoot_of_refuses refuses
          exact ⟨root, .named found reaches, (refuses_rootTerm_iff leaveObject).mp refuses⟩
        · exact absurd refuses (not_refuses_close Json.closeObject)
      · rintro ⟨root, ⟨opens, -, -, -⟩ | ⟨opens, reaches⟩, first⟩
        · cases found.symm.trans opens
        · cases found.symm.trans opens
          refine .inl (refuses_of_reachesRoot reaches ((refuses_rootTerm_iff leaveObject).mpr first)
            rfl ?_)
          rw [Json.enough]
          omega
    · rw [program_of_other found isList isObject]
      constructor
      · exact fun refuses => absurd refuses (not_refuses_unexpected _ _)
      · rintro ⟨root, ⟨opens, -, -, -⟩ | ⟨opens, -⟩, -⟩
        · cases found.symm.trans opens
          contradiction
        · cases found.symm.trans opens
          contradiction

theorem refuses_document_iff {input : List Char} :
    Refuses name (document input) ↔ FirstIsKind name input := by
  rw [document, refuses_bind_iff, ← refuses_program_iff]
  refine or_iff_left ?_
  rintro ⟨⟨decoded, rest⟩, -, refuses⟩
  dsimp only at refuses
  split at refuses
  next => exact not_refuses_ok _ refuses
  next =>
    rw [refuses_error_iff] at refuses
    cases refuses

end Decoding

end TreeScript
