/-
This file shows that a kind is refused only if it does not exist. Among all the
decoders only the one for kinds can say that a kind is unknown, and it says so of the
text it was given. The others pass on what they met inside, or have flaws of their own.
-/

import TreeScript.Proofs.Decoding.Flaws

namespace TreeScript.Decoding

/-- Only a text that names no kind is refused as a kind. -/
def Flaw.Sound : Flaw → Prop
  | .unknownKind name => Kind.ofName? name = none
  | _ => True

/-- If a decoder stops, it stops at a sound flaw. -/
def StopsSound {α : Type} (decoded : Except Flaw α) : Prop :=
  ∀ flaw ∈ flaw? decoded, flaw.Sound

variable {α β γ σ : Type}

/-! ### Steps and records -/

theorem stopsSound_ok (value : α) : StopsSound (.ok value : Except Flaw α) := by
  rintro flaw ⟨⟩

theorem stopsSound_error {flaw : Flaw} (sound : flaw.Sound) :
    StopsSound (.error flaw : Except Flaw α) := by
  rintro other ⟨⟩
  exact sound

theorem StopsSound.bind {decoded : Except Flaw α} {next : α → Except Flaw β}
    (first : StopsSound decoded) (later : ∀ value, StopsSound (next value)) :
    StopsSound (decoded >>= next) := by
  cases decoded with
  | error flaw => exact first
  | ok value => exact later value

theorem StopsSound.map {decoded : Except Flaw α} (first : StopsSound decoded) (change : α → β) :
    StopsSound (decoded.map change) := by
  rw [StopsSound, flaw?_map]
  exact first

theorem stopsSound_foldlM {step : σ → String × Json → Except Flaw σ}
    (each : ∀ state member, StopsSound (step state member)) (members : List (String × Json))
    (state : σ) : StopsSound (members.foldlM step state) := by
  induction members generalizing state with
  | nil => exact stopsSound_ok state
  | cons member members inductionHypothesis =>
    rw [List.foldlM_cons]
    exact (each state member).bind inductionHypothesis

theorem stopsSound_mapM {read : Json → Except Flaw α} (each : ∀ json, StopsSound (read json))
    (elements : List Json) : StopsSound (elements.mapM read) := by
  induction elements with
  | nil => exact stopsSound_ok []
  | cons json elements inductionHypothesis =>
    rw [List.mapM_cons]
    exact (each json).bind fun _ => inductionHypothesis.bind fun _ => stopsSound_ok _

variable {first : Field α} {second : Field β} {third : Field γ}

theorem Field.stopsSound_fill (reads : ∀ json, StopsSound (first.read json)) (given : Option α)
    (json : Json) : StopsSound (first.fill given json) := by
  cases given with
  | some value => exact stopsSound_error trivial
  | none => exact (reads json).map some

theorem Field.stopsSound_step (reads : ∀ json, StopsSound (first.read json)) (given : Option α)
    (member : String × Json) : StopsSound (first.step given member) := by
  rw [Field.step]
  split
  next => exact Field.stopsSound_fill reads given member.2
  next => exact stopsSound_ok given

theorem Field.stopsSound_require (given : Option α) : StopsSound (first.require given) := by
  cases given with
  | some value => exact stopsSound_ok value
  | none => exact stopsSound_error trivial

theorem Field.stopsSound_take (reads : ∀ json, StopsSound (first.read json)) (owner : Expected)
    (position : Nat) (elements : List Json) : StopsSound (first.take owner position elements) := by
  cases elements with
  | nil => exact stopsSound_error trivial
  | cons json rest => exact (reads json).map _

namespace Record

theorem stopsSound_close (count : Nat) (rest : List Json) : StopsSound (close count rest) := by
  rw [close]
  split
  next => exact stopsSound_ok ()
  next => exact stopsSound_error trivial

theorem stopsSound_join {others : σ → String × Json → Except Flaw σ}
    (reads : ∀ json, StopsSound (first.read json))
    (each : ∀ state member, StopsSound (others state member)) (given : Option α × σ)
    (member : String × Json) : StopsSound (joinStep first others given member) := by
  rw [joinStep]
  split
  next => exact (Field.stopsSound_fill reads given.1 member.2).bind fun _ => stopsSound_ok _
  next => exact (each given.2 member).bind fun _ => stopsSound_ok _

variable {owner : Nat → Expected} (record : Record)

theorem stopsSound_one (reads : ∀ json, StopsSound (first.read json)) :
    StopsSound (record.one owner first) := by
  cases record with
  | named members =>
    exact (stopsSound_foldlM (Field.stopsSound_step reads) members none).bind
      Field.stopsSound_require
  | positional elements =>
    exact (Field.stopsSound_take reads _ _ elements).bind fun _ =>
      (stopsSound_close 1 _).bind fun _ => stopsSound_ok _

theorem stopsSound_two (readsFirst : ∀ json, StopsSound (first.read json))
    (readsSecond : ∀ json, StopsSound (second.read json)) :
    StopsSound (record.two owner first second) := by
  cases record with
  | named members =>
    rw [two_named]
    exact (stopsSound_foldlM (stopsSound_join readsFirst (Field.stopsSound_step readsSecond))
      members _).bind fun _ => (Field.stopsSound_require _).bind fun _ =>
        (Field.stopsSound_require _).bind fun _ => stopsSound_ok _
  | positional elements =>
    exact (Field.stopsSound_take readsFirst _ _ elements).bind fun _ =>
      (Field.stopsSound_take readsSecond _ _ _).bind fun _ =>
        (stopsSound_close 2 _).bind fun _ => stopsSound_ok _

theorem stopsSound_three (readsFirst : ∀ json, StopsSound (first.read json))
    (readsSecond : ∀ json, StopsSound (second.read json))
    (readsThird : ∀ json, StopsSound (third.read json)) :
    StopsSound (record.three owner first second third) := by
  cases record with
  | named members =>
    rw [three_named]
    exact (stopsSound_foldlM (stopsSound_join readsFirst
      (stopsSound_join readsSecond (Field.stopsSound_step readsThird))) members _).bind
        fun _ => (Field.stopsSound_require _).bind fun _ => (Field.stopsSound_require _).bind
          fun _ => (Field.stopsSound_require _).bind fun _ => stopsSound_ok _
  | positional elements =>
    exact (Field.stopsSound_take readsFirst _ _ elements).bind fun _ =>
      (Field.stopsSound_take readsSecond _ _ _).bind fun _ =>
        (Field.stopsSound_take readsThird _ _ _).bind fun _ =>
          (stopsSound_close 3 _).bind fun _ => stopsSound_ok _

end Record

/-! ### Values and terms -/

theorem stopsSound_readText (json : Json) : StopsSound (readText json) := by
  cases json with
  | string value => exact stopsSound_ok value
  | _ => exact stopsSound_error trivial

theorem stopsSound_readBool (json : Json) : StopsSound (readBool json) := by
  cases json with
  | bool value => exact stopsSound_ok value
  | _ => exact stopsSound_error trivial

theorem stopsSound_readInteger (json : Json) : StopsSound (readInteger json) := by
  cases json with
  | integer value =>
    rw [readInteger]
    split
    next => exact stopsSound_ok _
    next => exact stopsSound_error trivial
  | _ => exact stopsSound_error trivial

theorem stopsSound_readOperator (json : Json) : StopsSound (readOperator json) := by
  refine (stopsSound_readText json).bind fun text => ?_
  split
  next => exact stopsSound_ok _
  next => exact stopsSound_error trivial

theorem stopsSound_readIdentifier (json : Json) : StopsSound (readIdentifier json) := by
  cases json with
  | object members =>
    show StopsSound ((Record.named members).one (fun _ => .identifierFields) ⟨"text", readText⟩)
    exact Record.stopsSound_one _ stopsSound_readText
  | array elements =>
    show StopsSound
      ((Record.positional elements).one (fun _ => .identifierFields) ⟨"text", readText⟩)
    exact Record.stopsSound_one _ stopsSound_readText
  | _ => exact stopsSound_error trivial

theorem stopsSound_readList {read : Json → Except Flaw α} (each : ∀ json, StopsSound (read json))
    (json : Json) : StopsSound (readList read json) := by
  cases json with
  | array elements => exact stopsSound_mapM each elements
  | _ => exact stopsSound_error trivial

theorem stopsSound_readKind (json : Json) : StopsSound (readKind json) := by
  cases json with
  | string name =>
    rw [readKind, readKindName]
    split
    next => exact stopsSound_ok _
    next unknown => exact stopsSound_error unknown
  | integer index =>
    rw [readKind]
    split
    next => exact stopsSound_error trivial
    next =>
      split
      next => exact stopsSound_ok _
      next => exact stopsSound_error trivial
  | _ => exact stopsSound_error trivial

theorem stopsSound_readTagged (json : Json) : StopsSound (readTagged json) := by
  cases json with
  | object members =>
    rw [readTagged, splitKind_none]
    refine StopsSound.map ?_ _
    cases tags members with
    | nil => exact stopsSound_error trivial
    | cons tag others =>
      refine (stopsSound_readKind tag).bind fun kind => ?_
      split
      next => exact stopsSound_ok kind
      next => exact stopsSound_error trivial
  | array elements =>
    cases elements with
    | nil => exact stopsSound_error trivial
    | cons tag elements => exact (stopsSound_readKind tag).bind fun _ => stopsSound_ok _
  | _ => exact stopsSound_error trivial

theorem stopsSound_termOfRecord {read : Json → Except Flaw Term}
    (reads : ∀ json, StopsSound (read json)) (kind : Kind) (record : Record) :
    StopsSound (termOfRecord read kind record) := by
  cases kind with
  | letIn =>
    exact (Record.stopsSound_three record stopsSound_readIdentifier reads reads).bind
      fun _ => stopsSound_ok _
  | function =>
    exact (Record.stopsSound_two record (stopsSound_readList stopsSound_readIdentifier) reads).bind
      fun _ => stopsSound_ok _
  | ifElse => exact (Record.stopsSound_three record reads reads reads).bind fun _ => stopsSound_ok _
  | call =>
    exact (Record.stopsSound_two record reads (stopsSound_readList reads)).bind
      fun _ => stopsSound_ok _
  | var => exact (Record.stopsSound_one record stopsSound_readText).bind fun _ => stopsSound_ok _
  | int => exact (Record.stopsSound_one record stopsSound_readInteger).bind fun _ => stopsSound_ok _
  | str => exact (Record.stopsSound_one record stopsSound_readText).bind fun _ => stopsSound_ok _
  | bool => exact (Record.stopsSound_one record stopsSound_readBool).bind fun _ => stopsSound_ok _
  | binary =>
    exact (Record.stopsSound_three record reads stopsSound_readOperator reads).bind
      fun _ => stopsSound_ok _
  | tuple => exact (Record.stopsSound_two record reads reads).bind fun _ => stopsSound_ok _
  | print => exact (Record.stopsSound_one record reads).bind fun _ => stopsSound_ok _
  | first => exact (Record.stopsSound_one record reads).bind fun _ => stopsSound_ok _
  | second => exact (Record.stopsSound_one record reads).bind fun _ => stopsSound_ok _

theorem stopsSound_readTerm (depth : Nat) (json : Json) : StopsSound (readTerm depth json) := by
  induction depth generalizing json with
  | zero => exact stopsSound_error trivial
  | succ depth inductionHypothesis =>
    exact (stopsSound_readTagged json).bind fun tagged =>
      stopsSound_termOfRecord inductionHypothesis tagged.1 tagged.2

theorem stopsSound_readRecord (kind : Kind) (record : Record) :
    StopsSound (readRecord kind record) :=
  stopsSound_termOfRecord (stopsSound_readTerm _) kind record

end TreeScript.Decoding
