/-
This file proves that a refused document is judged by what is wrong with it, and not by
the text it holds. The judgement is read off the beginning of the message. The message
of an unknown kind is the only one that begins with the mark of a refused kind: the
others begin with words of their own, and the text they take from the document comes
behind these. So a document is refused for a kind exactly if such a kind is the first
thing wrong with it.
-/

import TreeScript.Compiler
import TreeScript.Proofs.Decoding.Detection

namespace TreeScript

namespace Decoding

/-! ### Beginnings of messages -/

/-- What a message shows of a kind: a backquote in the kind looks like the end of it. -/
def shownKind (name : String) : String :=
  String.ofList (name.toList.takeWhile (· ≠ '\x60'))

/-- A message refuses no kind if it begins differently. -/
theorem refusedKind?_append (first rest : String)
    (differs : ¬first.toList <+: refusalMark ∧ ¬refusalMark <+: first.toList) :
    refusedKind? (first ++ rest) = none := by
  have notMarked : ¬refusalMark <+: (first ++ rest).toList := by
    rw [String.toList_append]
    intro marked
    rcases List.prefix_or_prefix_of_prefix (List.prefix_append first.toList rest.toList) marked with
      shorter | longer
    · exact differs.1 shorter
    · exact differs.2 longer
  rw [refusedKind?]
  dsimp only
  rw [if_neg fun marked => notMarked (List.isPrefixOf_iff_prefix.mp marked)]

theorem takeWhile_append_cons {α : Type} {test : α → Bool} {item : α} (left right : List α)
    (stops : test item = false) :
    (left ++ item :: right).takeWhile test = left.takeWhile test := by
  rw [List.takeWhile_append]
  split
  next whole =>
    rw [List.takeWhile_cons_of_neg (by simp [stops]), List.append_nil]
    exact ((List.takeWhile_prefix test).eq_of_length whole).symm
  next => rfl

theorem refusedKind?_unknownKind (name rest : String) :
    refusedKind? ((Flaw.unknownKind name).message ++ rest) = some (shownKind name) := by
  obtain ⟨behind, parts⟩ : ∃ behind, ((Flaw.unknownKind name).message ++ rest).toList =
      refusalMark ++ (name.toList ++ '\x60' :: behind) := by
    refine ⟨(", expected one of " ++ nameList (Kind.all.map Kind.name) ++ rest).toList, ?_⟩
    show ("unknown variant `" ++ name ++ "`, expected one of " ++
      nameList (Kind.all.map Kind.name) ++ rest).toList = _
    have closing : "`, expected one of ".toList = '\x60' :: ", expected one of ".toList := by
      decide +kernel
    simp only [String.toList_append, List.append_assoc, closing, List.cons_append]
    rfl
  rw [refusedKind?]
  dsimp only
  rw [parts, if_pos (List.isPrefixOf_iff_prefix.mpr (List.prefix_append _ _)), List.drop_left,
    if_pos (by simp), shownKind, takeWhile_append_cons _ _ (by simp)]

/-- The other flaws begin their messages differently. -/
theorem refusedKind?_message {flaw : Flaw} (isOther : ∀ name, flaw ≠ .unknownKind name)
    (rest : String) : refusedKind? (flaw.message ++ rest) = none := by
  have begins (first : String) {behind : String} (parts : flaw.message = first ++ behind)
      (differs : ¬first.toList <+: refusalMark ∧ ¬refusalMark <+: first.toList) :
      refusedKind? (flaw.message ++ rest) = none := by
    rw [parts, String.append_assoc]
    exact refusedKind?_append first _ differs
  cases flaw with
  | unknownKind name => exact absurd rfl (isOther name)
  | missingField name =>
    exact begins "missing field `" (String.append_assoc ..) (by decide +kernel)
  | duplicateField name =>
    exact begins "duplicate field `" (String.append_assoc ..) (by decide +kernel)
  | invalidType found expected =>
    exact begins "invalid type: " ((String.append_assoc ..).trans (String.append_assoc ..))
      (by decide +kernel)
  | invalidValue value expected =>
    exact begins "invalid value: integer `"
      ((String.append_assoc ..).trans (String.append_assoc ..)) (by decide +kernel)
  | invalidLength count expected =>
    exact begins "invalid length " ((String.append_assoc ..).trans (String.append_assoc ..))
      (by decide +kernel)
  | unsupportedOperator text =>
    exact begins "unsupported binary operator `" (String.append_assoc ..) (by decide +kernel)

/-! ### Categories -/

theorem refusedKind?_error {error : Error} {flaw : Flaw} (isFlaw : error.defect = .flawed flaw) :
    ∃ place, refusedKind? error.message = refusedKind? (flaw.message ++ place) := by
  refine ⟨" at " ++ error.position.text, congrArg refusedKind? ?_⟩
  show error.defect.message ++ " at " ++ error.position.text = _
  rw [isFlaw, String.append_assoc]
  rfl

theorem diagnostic_of_unknownKind {error : Error} {name : String}
    (isKind : error.defect = .flawed (.unknownKind name)) :
    error.diagnostic.category = .unsupportedKind ∧
      error.diagnostic.kindName = some (shownKind name) := by
  obtain ⟨place, same⟩ := refusedKind?_error isKind
  rw [refusedKind?_unknownKind] at same
  rw [Error.diagnostic, same, isKind]
  exact ⟨rfl, rfl⟩

theorem category_of_other {error : Error} {flaw : Flaw} (isFlaw : error.defect = .flawed flaw)
    (isOther : ∀ name, flaw ≠ .unknownKind name) :
    error.diagnostic.category = .malformedTerm := by
  obtain ⟨place, same⟩ := refusedKind?_error isFlaw
  rw [refusedKind?_message isOther] at same
  rw [Error.diagnostic, same, isFlaw]

theorem category_of_malformed {error : Error} {cause : Json.Cause}
    (isMalformed : error.defect = .malformed cause) :
    error.diagnostic.category = .malformedJson := by
  rw [Error.diagnostic, isMalformed]

/-- The category of a refused document by what is wrong with it. -/
def Defect.category : Defect → Category
  | malformed _ => .malformedJson
  | flawed (.unknownKind _) => .unsupportedKind
  | flawed _ => .malformedTerm

theorem category_diagnostic (error : Error) :
    error.diagnostic.category = error.defect.category := by
  cases defect : error.defect with
  | malformed cause => exact category_of_malformed defect
  | flawed flaw =>
    cases flaw with
    | unknownKind name => exact (diagnostic_of_unknownKind defect).1
    | _ => exact category_of_other defect (by simp)

theorem category_eq_unsupportedKind_iff (error : Error) :
    error.diagnostic.category = .unsupportedKind ↔
      ∃ name, error.defect = .flawed (.unknownKind name) := by
  rw [category_diagnostic]
  generalize error.defect = defect
  constructor
  · intro same
    cases defect with
    | malformed cause => cases same
    | flawed flaw =>
      cases flaw with
      | unknownKind name => exact ⟨name, rfl⟩
      | _ => cases same
  · rintro ⟨name, rfl⟩
    rfl

theorem Defect.category_mem (defect : Defect) :
    defect.category ∈ [Category.malformedJson, .malformedTerm, .unsupportedKind] := by
  rw [Defect.category.eq_def]
  split <;> decide

theorem FirstIsKind.not_mem {name : String} {input : List Char} (first : FirstIsKind name input) :
    name ∉ Kind.all.map Kind.name := by
  obtain ⟨root, -, first⟩ := first
  rw [List.mem_map]
  rintro ⟨kind, -, rfl⟩
  exact absurd first.unknown (by rw [Kind.ofName?_name]; simp)

end Decoding

namespace Program

open Decoding

theorem defect_eq_unknownKind_iff {source name : String} {error : Decoding.Error}
    (refused : Program.parse source = .error error) :
    error.defect = .flawed (.unknownKind name) ↔ FirstIsKind name source.toList := by
  rw [Program.parse] at refused
  rw [← refuses_document_iff]
  cases decoded : document source.toList with
  | ok program =>
    rw [decoded] at refused
    cases refused
  | error fault =>
    rw [decoded] at refused
    cases refused
    exact (refuses_error_iff fault).symm

/-- A refused document is judged by what is wrong with it. A kind is refused exactly if the first
thing wrong with the document is a kind that does not exist, and then this is the kind that is
shown. -/
theorem parse_refusal {source : String} {error : Decoding.Error}
    (refused : Program.parse source = .error error) :
    error.diagnostic.category ∈ [.malformedJson, .malformedTerm, .unsupportedKind] ∧
      error.diagnostic.category = error.defect.category ∧
      (error.diagnostic.category = .unsupportedKind ↔ ∃ name, FirstIsKind name source.toList) ∧
      ∀ name, FirstIsKind name source.toList →
        name ∉ Kind.all.map Kind.name ∧ error.diagnostic.kindName = some (shownKind name) := by
  refine ⟨?_, category_diagnostic error, ?_, fun name first => ⟨first.not_mem, ?_⟩⟩
  · rw [category_diagnostic]
    exact error.defect.category_mem
  · rw [category_eq_unsupportedKind_iff]
    exact exists_congr fun name => defect_eq_unknownKind_iff refused
  · exact (diagnostic_of_unknownKind ((defect_eq_unknownKind_iff refused).mpr first)).2

/-- A kind that does not exist, in front of an operator that does not exist either and is spelled
like the message about a kind. -/
def loopSource : String :=
  "\x7b\"name\":\"f\",\"expression\":\x7b\"kind\":\"Binary\",\"lhs\":\x7b\"kind\":\"Lo`op\"\x7d," ++
    "\"op\":\"unknown variant `x`\",\"rhs\":null\x7d\x7d"

theorem parse_refusal_loopSource :
    ∃ error, Program.parse loopSource = .error error ∧
      error.diagnostic.category = .unsupportedKind ∧ error.diagnostic.kindName = some "Lo" ∧
      (∃ name, FirstIsKind name loopSource.toList) ∧
      ∀ name, FirstIsKind name loopSource.toList →
        name ∉ Kind.all.map Kind.name ∧ shownKind name = "Lo" := by
  have said : (Program.parse loopSource).casesOn
      (motive := fun _ => Option (Category × Option String))
      (fun error => some (error.diagnostic.category, error.diagnostic.kindName)) (fun _ => none) =
        some (.unsupportedKind, some "Lo") := by
    decide +kernel
  cases refused : Program.parse loopSource with
  | ok program =>
    rw [refused] at said
    cases said
  | error error =>
    rw [refused] at said
    obtain ⟨category, kindName⟩ := Prod.mk.inj (Option.some.inj said)
    obtain ⟨-, -, isKind, names⟩ := parse_refusal refused
    refine ⟨error, rfl, category, kindName, isKind.mp category, fun name first => ?_⟩
    obtain ⟨unknown, shown⟩ := names name first
    exact ⟨unknown, Option.some.inj (shown.symm.trans kindName)⟩

end Program

end TreeScript
