/-
This file compares decoding a document with decoding it cut off or in front of more
text. Decoding goes on where reading goes on, so it meets its flaws before it meets the
end of the text. There are three ways in which a text can say something about what is
decoded in front of more: what was decoded stays the same, a flaw stays a failure, and
only a text that is malformed at its end can still become anything. All decoders keep
this, and so an accepted document that is cut off in front of its closing bracket can
only be malformed.
-/

import TreeScript.Compiler
import TreeScript.Proofs.Decoding.Rendering
import TreeScript.Proofs.Json.Extension.Values

namespace TreeScript

namespace Decoding

open Json (Blank)

variable {α β : Type}

/-- What decoding `input` says about decoding it in front of `more`. -/
inductive Carries (input more : List Char) :
    Except Fault (α × List Char) → Except Fault (α × List Char) → Prop where
  | decoded {value : α} {rest : List Char} (isSuffix : rest <:+ input) :
      Carries input more (.ok (value, rest)) (.ok (value, rest ++ more))
  | refused {fault other : Fault} : Carries input more (.error fault) (.error other)
  | unfinished {cause : Json.Cause} {rest : List Char} {ahead : Nat}
      {longer : Except Fault (α × List Char)} :
      Carries input more (.error ⟨.malformed cause, rest, ahead⟩) longer

namespace Carries

variable {input left more : List Char} {short long : Except Fault (α × List Char)}

theorem mono (carries : Carries left more short long) (isSuffix : left <:+ input) :
    Carries input more short long := by
  cases carries with
  | decoded restSuffix => exact .decoded (restSuffix.trans isSuffix)
  | refused => exact .refused
  | unfinished => exact .unfinished

theorem bind {next longNext : α × List Char → Except Fault (β × List Char)}
    (first : Carries input more short long)
    (rest : ∀ value rest, short = .ok (value, rest) → rest <:+ input →
      Carries input more (next (value, rest)) (longNext (value, rest ++ more))) :
    Carries input more (short >>= next) (long >>= longNext) := by
  cases first with
  | decoded isSuffix => exact rest _ _ rfl isSuffix
  | refused => exact .refused
  | unfinished => exact .unfinished

/-- What the JSON readers refuse is malformed. -/
theorem of_reading {γ : Type} {reading : Except Json.Fault γ}
    {next : γ → Except Fault (α × List Char)}
    (rest : ∀ value, reading = .ok value → Carries input more (next value) long) :
    Carries input more (ofJsonReading reading >>= next) long := by
  cases reading with
  | error fault => exact .unfinished
  | ok value => exact rest value rfl

theorem reading {γ : Type} {longReading : Except Json.Fault γ}
    {longNext : γ → Except Fault (α × List Char)} {value : γ}
    (extended : longReading = .ok value) (rest : Carries input more short (longNext value)) :
    Carries input more short (ofJsonReading longReading >>= longNext) := by
  rw [extended]
  exact rest

theorem isSuffix_of_eq_ok {value : α} {rest : List Char} (carries : Carries input more short long)
    (decoded : short = .ok (value, rest)) : rest <:+ input := by
  subst decoded
  cases carries
  assumption

theorem eq_ok {value : α} {rest : List Char} (carries : Carries input more short long)
    (decoded : short = .ok (value, rest)) : long = .ok (value, rest ++ more) := by
  subst decoded
  cases carries
  rfl

/-- If more text can be decoded, then less of it can only have been malformed. -/
theorem malformed {fault : Fault} {result : α × List Char}
    (carries : Carries input more (.error fault) (.ok result : Except Fault (α × List Char))) :
    ∃ cause, fault.cause = .malformed cause := by
  cases carries
  exact ⟨_, rfl⟩

end Carries

theorem exists_unexpected_eq_error (expected : Expected) (input : List Char) :
    ∃ fault, (unexpected expected input : Except Fault α) = .error fault := by
  rw [unexpected.eq_def]
  split
  next => exact ⟨_, rfl⟩
  next => exact ⟨_, rfl⟩
  next => split <;> exact ⟨_, rfl⟩

theorem carries_unexpected (expected : Expected) (input other more left : List Char) :
    Carries left more (unexpected expected input : Except Fault (α × List Char))
      (unexpected expected other) := by
  obtain ⟨fault, refused⟩ := exists_unexpected_eq_error (α := α × List Char) expected input
  obtain ⟨longFault, longRefused⟩ :=
    exists_unexpected_eq_error (α := α × List Char) expected other
  rw [refused, longRefused]
  exact .refused

/-! ### The root term -/

theorem text_of_other (expected : Expected) {input rest : List Char} {c : Char}
    (found : Json.skipBlank input = c :: rest) (notQuote : c ≠ '"') :
    text expected input = unexpected expected (c :: rest) := by
  rw [text, found]
  split
  next opens => cases opens
  next opens => exact absurd (List.cons.inj opens).1 notQuote
  next => rfl

theorem carries_text (expected : Expected) (input more : List Char) :
    Carries input more (text expected input) (text expected (input ++ more)) := by
  cases found : Json.skipBlank input with
  | nil =>
    rw [text, found]
    exact .unfinished
  | cons c rest =>
    have extended := Json.skipBlank_extend found more
    by_cases isQuote : c = '"'
    · subst isQuote
      rw [text, text, found, extended]
      show Carries input more (ofJsonReading (Json.stringBody [] rest))
        (ofJsonReading (Json.stringBody [] (rest ++ more)))
      cases read : Json.stringBody [] rest with
      | error fault => exact .unfinished
      | ok result =>
        obtain ⟨value, left⟩ := result
        obtain ⟨isSuffix, bodyExtended⟩ := Json.stringBody_extend read
        rw [bodyExtended]
        exact .decoded (isSuffix.trans (Json.suffix_of_skipBlank found))
    · rw [text_of_other expected found isQuote, text_of_other expected extended isQuote]
      exact carries_unexpected ..

theorem carries_rootKind (input more : List Char) :
    Carries input more (rootKind input) (rootKind (input ++ more)) := by
  refine (carries_text .kind input more).bind fun name rest _ isSuffix => ?_
  dsimp only
  split
  next => exact .decoded isSuffix
  next => exact .refused

theorem carries_rootMembers {count larger : Nat} (isFirst : Bool) (kind : Option Kind)
    (done : List (String × Json)) (input : List Char) (enough : 2 * input.length < larger)
    (more : List Char) :
    Carries input more (rootMembers count isFirst kind done input)
      (rootMembers larger isFirst kind done (input ++ more)) := by
  induction count generalizing larger isFirst kind done input with
  | zero => exact .unfinished
  | succ count inductionHypothesis =>
    obtain ⟨larger, rfl⟩ := Nat.exists_eq_add_one.mpr (by omega : 0 < larger)
    unfold rootMembers
    refine .of_reading fun next found => ?_
    obtain ⟨nextSuffix, nextExtended⟩ := Json.nextKey_extend found
    refine .reading (nextExtended more) ?_
    cases next with
    | none =>
      cases kind with
      | none => exact .refused
      | some kind => exact .decoded (List.suffix_refl _)
    | some entry =>
      obtain ⟨key, rest⟩ := entry
      have restSuffix : rest <:+ input := nextSuffix _ rfl
      have restLength := restSuffix.length_le
      dsimp only [Option.map_some]
      by_cases isKind : key = kindKey
      · rw [if_pos isKind, if_pos isKind]
        by_cases given : kind.isSome
        · rw [if_pos given, if_pos given]
          exact .refused
        · rw [if_neg given, if_neg given]
          refine .of_reading fun left hasColon => ?_
          obtain ⟨⟨colonSuffix, colonLength⟩, colonExtended⟩ := Json.colon_extend hasColon
          refine .reading (colonExtended more) ?_
          refine ((carries_rootKind left more).bind
            fun kind behind _ behindSuffix => ?_).mono (colonSuffix.trans restSuffix)
          have behindLength := behindSuffix.length_le
          exact (inductionHypothesis false (some kind) done behind (by omega)).mono behindSuffix
      · rw [if_neg isKind, if_neg isKind]
        refine .of_reading fun result read => ?_
        obtain ⟨json, behind⟩ := result
        obtain ⟨⟨behindSuffix, behindLength⟩, extended⟩ := Json.colon_value_extend read
        by_cases empty : behind = []
        · subst empty
          cases count <;> exact .unfinished
        · refine .reading (extended (by omega) fun atEnd => absurd atEnd empty) ?_
          exact (inductionHypothesis false kind ((key, json) :: done) behind (by omega)).mono
            (behindSuffix.trans restSuffix)

theorem length_lt_enough (input more : List Char) :
    2 * input.length < Json.enough (input ++ more) := by
  rw [Json.enough, List.length_append]
  omega

theorem rootRecord_of_other {input rest : List Char} {c : Char}
    (found : Json.skipBlank input = c :: rest) (notList : c ≠ '[') (notObject : c ≠ '\x7b') :
    rootRecord input = unexpected .term (c :: rest) := by
  rw [rootRecord, found]
  dsimp only
  split
  next opens => cases opens
  next opens => exact absurd (List.cons.inj opens).1 notList
  next opens => exact absurd (List.cons.inj opens).1 notObject
  next => rfl

theorem carries_closeList {input left : List Char} (leftSuffix : left <:+ input) (result : α)
    (more : List Char) :
    Carries input more (do return (result, ← ofJsonReading (Json.closeList left)))
      (do return (result, ← ofJsonReading (Json.closeList (left ++ more)))) := by
  refine .of_reading fun rest closes => ?_
  obtain ⟨⟨before, -, rfl⟩, extended⟩ := Json.closeList_extend closes
  exact .reading (extended more) (.decoded (Json.suffix_of_closed.trans leftSuffix))

theorem carries_closeObject {input left : List Char} (leftSuffix : left <:+ input) (result : α)
    (more : List Char) :
    Carries input more (do return (result, ← ofJsonReading (Json.closeObject left)))
      (do return (result, ← ofJsonReading (Json.closeObject (left ++ more)))) := by
  refine .of_reading fun rest closes => ?_
  obtain ⟨⟨before, -, rfl⟩, extended⟩ := Json.closeObject_extend closes
  exact .reading (extended more) (.decoded (Json.suffix_of_closed.trans leftSuffix))

theorem carries_rootRecord (input more : List Char) :
    Carries input more (rootRecord input) (rootRecord (input ++ more)) := by
  cases found : Json.skipBlank input with
  | nil =>
    rw [rootRecord, found]
    exact .unfinished
  | cons c rest =>
    have extended := Json.skipBlank_extend found more
    have inside : rest <:+ input := Json.suffix_of_skipBlank found
    have atLeast : 2 * (c :: rest).length < Json.enough (c :: (rest ++ more)) :=
      length_lt_enough (c :: rest) more
    rw [List.length_cons] at atLeast
    by_cases isList : c = '['
    · subst isList
      rw [rootRecord, rootRecord, found, extended]
      dsimp only
      refine .of_reading fun next foundNext => ?_
      obtain ⟨nextSuffix, nextExtended⟩ := Json.nextElement_extend foundNext
      refine .reading (nextExtended more) ?_
      cases next with
      | none => exact .refused
      | some left =>
        dsimp only [Option.map_some]
        have leftSuffix : left <:+ rest := nextSuffix _ rfl
        refine ((carries_rootKind left more).bind
          fun kind behind _ behindSuffix => ?_).mono (leftSuffix.trans inside)
        have behindLength := (behindSuffix.trans leftSuffix).length_le
        dsimp only
        refine .of_reading fun result read => ?_
        obtain ⟨fields, closing⟩ := result
        obtain ⟨closingSuffix, fieldsExtended⟩ := Json.elements_extend read
        refine .reading (fieldsExtended (by omega) more) ?_
        exact carries_closeList (closingSuffix.trans behindSuffix) _ more
    · by_cases isObject : c = '\x7b'
      · subst isObject
        rw [rootRecord, rootRecord, found, extended]
        dsimp only
        refine ((carries_rootMembers true none [] rest (by omega) more).mono inside).bind
          fun tagged closing _ closingSuffix => ?_
        exact carries_closeObject closingSuffix _ more
      · rw [rootRecord_of_other found isList isObject,
          rootRecord_of_other extended isList isObject]
        exact carries_unexpected ..

theorem carries_rootTerm (leave : List Char → List Char) (input more : List Char) :
    Carries input more (rootTerm leave input) (rootTerm leave (input ++ more)) := by
  refine (carries_rootRecord input more).bind fun tagged rest _ isSuffix => ?_
  dsimp only
  split
  next => exact .decoded isSuffix
  next => exact .refused

/-! ### The outermost record -/

theorem carries_programMembers {count larger : Nat} (isFirst : Bool) (name : Option String)
    (expression : Option Term) (input : List Char) (enough : 2 * input.length < larger)
    (more : List Char) :
    Carries input more (programMembers count isFirst name expression input)
      (programMembers larger isFirst name expression (input ++ more)) := by
  induction count generalizing larger isFirst name expression input with
  | zero => exact .unfinished
  | succ count inductionHypothesis =>
    obtain ⟨larger, rfl⟩ := Nat.exists_eq_add_one.mpr (by omega : 0 < larger)
    unfold programMembers
    refine .of_reading fun next found => ?_
    obtain ⟨nextSuffix, nextExtended⟩ := Json.nextKey_extend found
    refine .reading (nextExtended more) ?_
    cases next with
    | none =>
      cases expression with
      | none => exact .refused
      | some expression => exact .decoded (List.suffix_refl _)
    | some entry =>
      obtain ⟨key, rest⟩ := entry
      have restSuffix : rest <:+ input := nextSuffix _ rfl
      have restLength := restSuffix.length_le
      dsimp only [Option.map_some]
      by_cases isName : key = nameKey
      · rw [if_pos isName, if_pos isName]
        by_cases given : name.isSome
        · rw [if_pos given, if_pos given]
          exact .refused
        · rw [if_neg given, if_neg given]
          refine .of_reading fun left hasColon => ?_
          obtain ⟨⟨colonSuffix, colonLength⟩, colonExtended⟩ := Json.colon_extend hasColon
          refine .reading (colonExtended more) ?_
          refine ((carries_text .text left more).bind
            fun name behind _ behindSuffix => ?_).mono (colonSuffix.trans restSuffix)
          have behindLength := behindSuffix.length_le
          exact (inductionHypothesis false (some name) expression behind (by omega)).mono
            behindSuffix
      rw [if_neg isName, if_neg isName]
      by_cases isExpression : key = expressionKey
      · rw [if_pos isExpression, if_pos isExpression]
        by_cases given : expression.isSome
        · rw [if_pos given, if_pos given]
          exact .refused
        · rw [if_neg given, if_neg given]
          refine .of_reading fun left hasColon => ?_
          obtain ⟨⟨colonSuffix, colonLength⟩, colonExtended⟩ := Json.colon_extend hasColon
          refine .reading (colonExtended more) ?_
          refine ((carries_rootTerm leaveObject left more).bind
            fun term behind _ behindSuffix => ?_).mono (colonSuffix.trans restSuffix)
          have behindLength := behindSuffix.length_le
          exact (inductionHypothesis false name (some term) behind (by omega)).mono behindSuffix
      rw [if_neg isExpression, if_neg isExpression]
      refine .of_reading fun behind skipped => ?_
      obtain ⟨⟨behindSuffix, behindLength⟩, extended⟩ := Json.colon_skipValue_extend skipped
      have skips := length_lt_enough rest more
      by_cases empty : behind = []
      · subst empty
        cases count <;> exact .unfinished
      · refine .reading (extended (by omega) fun atEnd => absurd atEnd empty) ?_
        exact (inductionHypothesis false name expression behind (by omega)).mono
          (behindSuffix.trans restSuffix)

theorem carries_programElements (input more : List Char) :
    Carries input more (programElements input) (programElements (input ++ more)) := by
  refine .of_reading fun next found => ?_
  obtain ⟨nextSuffix, nextExtended⟩ := Json.nextElement_extend found
  refine .reading (nextExtended more) ?_
  cases next with
  | none => exact .refused
  | some left =>
    refine ((carries_text .text left more).mono (nextSuffix _ rfl)).bind
      fun name behind _ behindSuffix => ?_
    refine .of_reading fun second foundSecond => ?_
    obtain ⟨secondSuffix, secondExtended⟩ := Json.nextElement_extend foundSecond
    refine .reading (secondExtended more) ?_
    cases second with
    | none => exact .refused
    | some inner =>
      refine ((carries_rootTerm leaveList inner more).mono
        ((secondSuffix _ rfl).trans behindSuffix)).bind fun term rest _ isSuffix => ?_
      exact .decoded isSuffix

theorem program_of_other {input rest : List Char} {c : Char}
    (found : Json.skipBlank input = c :: rest) (notList : c ≠ '[') (notObject : c ≠ '\x7b') :
    program input = unexpected .program (c :: rest) := by
  rw [program, found]
  split
  next opens => cases opens
  next opens => exact absurd (List.cons.inj opens).1 notList
  next opens => exact absurd (List.cons.inj opens).1 notObject
  next => rfl

theorem carries_program (input more : List Char) :
    Carries input more (program input) (program (input ++ more)) := by
  cases found : Json.skipBlank input with
  | nil =>
    rw [program, found]
    exact .unfinished
  | cons c rest =>
    have extended := Json.skipBlank_extend found more
    have inside : rest <:+ input := Json.suffix_of_skipBlank found
    by_cases isList : c = '['
    · subst isList
      rw [program, program, found, extended]
      refine ((carries_programElements rest more).mono inside).bind
        fun result closing _ closingSuffix => ?_
      exact carries_closeList closingSuffix _ more
    by_cases isObject : c = '\x7b'
    · subst isObject
      rw [program, program, found, extended]
      refine ((carries_programMembers true none none rest (length_lt_enough rest more)
        more).mono inside).bind fun result closing _ closingSuffix => ?_
      exact carries_closeObject closingSuffix _ more
    rw [program_of_other found isList isObject, program_of_other extended isList isObject]
    exact carries_unexpected ..

/-! ### Whole documents -/

/-- A text is one list or object with blanks around it, and `body` is what stands in front of its
closing bracket. -/
inductive Enclosed : List Char → List Char → Prop where
  | list {before inner after : List Char} (blankBefore : Blank before) (blankAfter : Blank after) :
      Enclosed (before ++ '[' :: inner ++ ']' :: after) (before ++ '[' :: inner)
  | object {before inner after : List Char} (blankBefore : Blank before)
      (blankAfter : Blank after) :
      Enclosed (before ++ '\x7b' :: inner ++ '\x7d' :: after) (before ++ '\x7b' :: inner)

theorem eq_ok_of_ofJsonReading {reading : Except Json.Fault α} {value : α}
    (read : ofJsonReading reading = .ok value) : reading = .ok value := by
  cases reading with
  | error fault => cases read
  | ok result =>
    cases read
    rfl

theorem exists_enclosed {input rest : List Char} {result : Program}
    (decoded : program input = .ok (result, rest)) (blank : Blank rest) :
    ∃ body, Enclosed input body := by
  cases found : Json.skipBlank input with
  | nil =>
    rw [program, found] at decoded
    cases decoded
  | cons c others =>
    obtain ⟨before, blankBefore, isInput⟩ := Json.exists_blank_of_skipBlank found
    by_cases isList : c = '['
    · subst isList
      rw [program, found] at decoded
      obtain ⟨⟨inner, left⟩, readElements, finish⟩ := exists_of_bind_eq_ok decoded
      obtain ⟨closed, closes, same⟩ := exists_of_bind_eq_ok finish
      cases same
      obtain ⟨⟨space, -, rfl⟩, -⟩ := Json.closeList_extend (eq_ok_of_ofJsonReading closes)
      obtain ⟨front, rfl⟩ := (carries_programElements others []).isSuffix_of_eq_ok readElements
      refine ⟨before ++ '[' :: (front ++ space), ?_⟩
      have parts : input = before ++ '[' :: (front ++ space) ++ ']' :: rest := by
        rw [isInput]
        simp
      rw [parts]
      exact .list blankBefore blank
    by_cases isObject : c = '\x7b'
    · subst isObject
      rw [program, found] at decoded
      obtain ⟨⟨inner, left⟩, readMembers, finish⟩ := exists_of_bind_eq_ok decoded
      obtain ⟨closed, closes, same⟩ := exists_of_bind_eq_ok finish
      cases same
      obtain ⟨⟨space, -, rfl⟩, -⟩ := Json.closeObject_extend (eq_ok_of_ofJsonReading closes)
      obtain ⟨front, rfl⟩ :=
        (carries_programMembers true none none others (length_lt_enough others [])
          []).isSuffix_of_eq_ok readMembers
      refine ⟨before ++ '\x7b' :: (front ++ space), ?_⟩
      have parts : input = before ++ '\x7b' :: (front ++ space) ++ '\x7d' :: rest := by
        rw [isInput]
        simp
      rw [parts]
      exact .object blankBefore blank
    obtain ⟨fault, refused⟩ :=
      exists_unexpected_eq_error (α := Program × List Char) .program (c :: others)
    rw [program_of_other found isList isObject, refused] at decoded
    cases decoded

theorem Enclosed.exists_notBlank {text body : List Char} (enclosed : Enclosed text body) :
    ∃ rest, text = body ++ rest ∧ ¬Blank rest := by
  cases enclosed with
  | list =>
    refine ⟨_, rfl, fun blank => ?_⟩
    exact absurd (blank _ List.mem_cons_self) (by decide)
  | object =>
    refine ⟨_, rfl, fun blank => ?_⟩
    exact absurd (blank _ List.mem_cons_self) (by decide)

theorem document_of_program {input rest : List Char} {result : Program}
    (decoded : program input = .ok (result, rest)) :
    document input = if Blank rest then .ok result
      else .error (.next (Json.skipBlank rest) (.malformed .trailingCharacters)) := by
  simp only [document, decoded, bind, Except.bind]
  cases found : Json.skipBlank rest with
  | nil =>
    rw [if_pos (Json.skipBlank_eq_nil_iff.mp found)]
    rfl
  | cons c left =>
    rw [if_neg]
    intro blank
    rw [Json.skipBlank_eq_nil_iff.mpr blank] at found
    cases found

theorem exists_of_document_eq_ok {input : List Char} {result : Program}
    (accepted : document input = .ok result) :
    ∃ rest, program input = .ok (result, rest) ∧ Blank rest := by
  obtain ⟨⟨decodedProgram, rest⟩, decoded, -⟩ := exists_of_bind_eq_ok accepted
  rw [document_of_program decoded] at accepted
  split at accepted
  next blank =>
    cases accepted
    exact ⟨rest, decoded, blank⟩
  next => cases accepted

theorem blank_append_iff {text more : List Char} : Blank (text ++ more) ↔ Blank text ∧ Blank more :=
  List.forall_mem_append

theorem document_append {input : List Char} {result : Program}
    (accepted : document input = .ok result) (more : List Char) :
    (Blank more → document (input ++ more) = .ok result) ∧
      (¬Blank more → ∃ rest, document (input ++ more) =
        .error (.next rest (.malformed .trailingCharacters))) := by
  obtain ⟨rest, decoded, blank⟩ := exists_of_document_eq_ok accepted
  have extended := document_of_program ((carries_program input more).eq_ok decoded)
  constructor
  · intro blankMore
    rw [extended, if_pos (blank_append_iff.mpr ⟨blank, blankMore⟩)]
  · intro notBlank
    rw [extended, if_neg fun all => notBlank (blank_append_iff.mp all).2]
    exact ⟨_, rfl⟩

/-- Whatever is cut off an accepted document, if it is not blank, then what is left is malformed. -/
theorem document_of_append {input more : List Char} {result : Program}
    (accepted : document (input ++ more) = .ok result) (notBlank : ¬Blank more) :
    ∃ fault cause, document input = .error fault ∧ fault.cause = .malformed cause := by
  obtain ⟨rest, decoded, blank⟩ := exists_of_document_eq_ok accepted
  have carries := carries_program input more
  cases short : program input with
  | error fault =>
    rw [short, decoded] at carries
    obtain ⟨cause, isMalformed⟩ := carries.malformed
    refine ⟨fault, cause, ?_, isMalformed⟩
    rw [document, short]
    rfl
  | ok shortResult =>
    -- then the same program is decoded from the whole text, and the rest of it is not blank
    obtain ⟨shortProgram, shortRest⟩ := shortResult
    have whole := carries.eq_ok short
    rw [decoded] at whole
    cases whole
    exact absurd (blank_append_iff.mp blank).2 notBlank

end Decoding

namespace Program

open Decoding

/-- A text is refused because it is not JSON. -/
def Unreadable (source : String) : Prop :=
  ∃ error, Program.parse source = .error error ∧ error.diagnostic.category = .malformedJson

theorem unreadable_of_malformed {source : String} {fault : Fault} {cause : Json.Cause}
    (refused : document source.toList = .error fault) (malformed : fault.cause = .malformed cause) :
    Unreadable source := by
  refine ⟨⟨fault.cause, fault.position source.toList⟩, ?_, ?_⟩
  · rw [Program.parse, refused]
    rfl
  · rw [malformed]
    rfl

theorem document_of_parse {source : String} {program : Program}
    (accepted : Program.parse source = .ok program) : document source.toList = .ok program := by
  rw [Program.parse] at accepted
  cases decoded : document source.toList with
  | error fault =>
    rw [decoded] at accepted
    cases accepted
  | ok result =>
    rw [decoded] at accepted
    cases accepted
    rfl

theorem parse_of_document {source : String} {program : Program}
    (accepted : document source.toList = .ok program) : Program.parse source = .ok program := by
  rw [Program.parse, accepted]
  rfl

/-- An accepted document is a list or object with blanks around it. Cut off anywhere in front of
its closing bracket it is not JSON any more, whatever it held. With blanks behind it, it is the
same program, and with anything else it is not JSON either. -/
theorem parse_truncated {source : String} {program : Program}
    (accepted : Program.parse source = .ok program) :
    ∃ body, Enclosed source.toList body ∧
      (∀ shorter : String, shorter.toList <+: body → Unreadable shorter) ∧
      ∀ more : String, (Json.Blank more.toList → Program.parse (source ++ more) = .ok program) ∧
        (¬Json.Blank more.toList → Unreadable (source ++ more)) := by
  have decoded := document_of_parse accepted
  obtain ⟨rest, read, blank⟩ := exists_of_document_eq_ok decoded
  obtain ⟨body, enclosed⟩ := exists_enclosed read blank
  refine ⟨body, enclosed, fun shorter isPrefix => ?_, fun more => ⟨fun blankMore => ?_,
    fun notBlank => ?_⟩⟩
  · obtain ⟨cut, rfl⟩ := isPrefix
    obtain ⟨closing, parts, notBlank⟩ := enclosed.exists_notBlank
    rw [parts, List.append_assoc] at decoded
    obtain ⟨fault, cause, refused, malformed⟩ := document_of_append decoded
      fun all => notBlank (blank_append_iff.mp all).2
    exact unreadable_of_malformed refused malformed
  · refine parse_of_document ?_
    rw [String.toList_append]
    exact (document_append decoded more.toList).1 blankMore
  · obtain ⟨left, refused⟩ := (document_append decoded more.toList).2 notBlank
    rw [← String.toList_append] at refused
    exact unreadable_of_malformed refused rfl

theorem parse_truncated_mixedSource :
    Program.parse mixedSource = .ok mixedProgram ∧
      ∃ body, Enclosed mixedSource.toList body ∧
        (∀ shorter : String, shorter.toList <+: body → Unreadable shorter) ∧
        ∀ more : String,
          (Json.Blank more.toList → Program.parse (mixedSource ++ more) = .ok mixedProgram) ∧
          (¬Json.Blank more.toList → Unreadable (mixedSource ++ more)) := by
  have accepted := parse_of_document (document_of_renders renders_mixedSource)
  exact ⟨accepted, parse_truncated accepted⟩

end Program

end TreeScript
