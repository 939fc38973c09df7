/-
This file reads the root term of a program. Its text is read to its end before it is
decoded, except that its kind, which must be a name, is settled on the way, so the walk
through its members or elements is not the one for values in general. Reading one member
takes the same step as splitting it off from the members of a value; in the end the
record is the same one, and it is decoded to the term that it stands for.
-/

import TreeScript.Decoding.Program
import TreeScript.Proofs.Json.Values
import TreeScript.Proofs.Decoding.Shapes

namespace TreeScript

/-! ### Forms of a value -/

namespace Json

def IsNumber : Json → Prop
  | integer _ | double _ _ => True
  | _ => False

theorem Numeral.isNumber_of_json? {numeral : Numeral} {json : Json}
    (hasValue : numeral.json? = some json) : json.IsNumber := by
  rw [json?, jsonOf?] at hasValue
  by_cases kept : numeral.isInteger = true
  · rw [if_pos kept, Option.some.injEq] at hasValue
    rw [← hasValue]
    trivial
  · rw [if_neg kept, Option.map_eq_some_iff] at hasValue
    obtain ⟨magnitude, -, rfl⟩ := hasValue
    trivial

theorem Writes.of_string {value : String} {text : List Char}
    (written : Writes Numeral.json? (.string value) text) : WritesString value text := by
  cases written with
  | number hasValue => exact (Numeral.isNumber_of_json? hasValue).elim
  | string written => exact written

theorem Writes.of_array {items : List Json} {text : List Char}
    (written : Writes Numeral.json? (.array items) text) (nonempty : items ≠ []) :
    ∃ inner, text = '[' :: (inner ++ [']']) ∧ WritesElements Numeral.json? items inner := by
  cases written with
  | number hasValue => exact (Numeral.isNumber_of_json? hasValue).elim
  | emptyArray => exact absurd rfl nonempty
  | array written => exact ⟨_, rfl, written⟩

theorem Writes.of_object {members : List (String × Json)} {text : List Char}
    (written : Writes Numeral.json? (.object members) text) (nonempty : members ≠ []) :
    ∃ inner, text = '\x7b' :: (inner ++ ['\x7d']) ∧ WritesMembers Numeral.json? members inner := by
  cases written with
  | number hasValue => exact (Numeral.isNumber_of_json? hasValue).elim
  | emptyObject => exact absurd rfl nonempty
  | object written => exact ⟨_, rfl, written⟩

theorem WritesMember.length_pos {values : Numeral → Option Json} {member : String × Json}
    {text : List Char} (written : WritesMember values member text) : 0 < text.length := by
  cases written
  simp

end Json

namespace Decoding

open Json

@[simp]
theorem ofJsonReading_ok {α : Type} (result : α) : ofJsonReading (.ok result) = .ok result :=
  rfl

/-! ### The root term -/

theorem text_append (expected : Expected) {value : String} {before text : List Char}
    (blank : Blank before) (written : WritesString value text) (rest : List Char) :
    Decoding.text expected (before ++ (text ++ rest)) = .ok (value, rest) := by
  obtain ⟨body, opened, read⟩ := stringBody_append written rest
  rw [opened, Decoding.text, skipBlank_append_cons blank isBlank_quote]
  show ofJsonReading (stringBody [] body) = _
  rw [read, ofJsonReading_ok]

theorem rootKind_append {name : String} {kind : Kind} (found : readKindName name = .ok kind)
    {before text : List Char} (blank : Blank before) (written : WritesString name text)
    (rest : List Char) : rootKind (before ++ (text ++ rest)) = .ok (kind, rest) := by
  rw [rootKind, text_append .kind blank written rest]
  simp only [bind, Except.bind, found]
  rfl

/-- Reading one member of the root term takes the same step as splitting it off. -/
theorem rootMembers_step {member : String × Json} {text : List Char}
    (written : WritesMember Numeral.json? member text)
    (isText : member.1 = kindKey → ∃ name, member.2 = .string name) {known : Option Kind}
    {done fields : List (String × Json)} {tagged : Kind × Record}
    (split : splitKind known done (member :: fields) = .ok tagged) (isFirst : Bool) {count : Nat}
    (enough : 2 * text.length ≤ count) {before rest : List Char} (blank : Blank before)
    (stops : StopsNumber rest) :
    ∃ next others after, splitKind next others fields = .ok tagged ∧ Blank after ∧
      rootMembers (count + 1) isFirst known done
          (before ++ (separator isFirst ++ (text ++ rest))) =
        rootMembers count false next others (after ++ rest) := by
  obtain @⟨key, json, _, _, _, _, _, after, blankBefore, keyWritten, blankBetween, blankSpace,
    inner, blankAfter⟩ := written
  simp only [List.length_append, List.length_cons] at enough
  simp only [List.append_assoc, List.cons_append, rootMembers,
    nextKey_string blank blankBefore isFirst keyWritten, ofJsonReading_ok, bind, Except.bind,
    colon_append blankBetween]
  by_cases isKind : key = kindKey
  · obtain ⟨name, rfl⟩ := isText isKind
    cases known with
    | some kind => simp [splitKind, isKind] at split
    | none =>
      have step : (readKindName name >>= fun kind => splitKind (some kind) done fields) =
          .ok tagged := by
        simpa only [splitKind, if_pos isKind, readKind] using split
      cases found : readKindName name with
      | error flaw =>
        rw [found] at step
        cases step
      | ok kind =>
        rw [found] at step
        refine ⟨some kind, done, after, step, blankAfter, ?_⟩
        rw [if_pos isKind, rootKind_append found blankSpace inner.of_string]
        rfl
  · have step : splitKind known ((key, json) :: done) fields = .ok tagged := by
      cases known <;> simpa only [splitKind, if_neg isKind] using split
    refine ⟨known, (key, json) :: done, after, step, blankAfter, ?_⟩
    rw [if_neg isKind, value_append inner (by omega) blankSpace (stops.of_blank blankAfter),
      ofJsonReading_ok]

/-- The members of the root term are read up to its closing brace. -/
theorem rootMembers_append {fields : List (String × Json)} {text : List Char}
    (written : WritesMembers Numeral.json? fields text)
    (isText : ∀ member ∈ fields, member.1 = kindKey → ∃ name, member.2 = .string name)
    {known : Option Kind} {done : List (String × Json)} {tagged : Kind × Record}
    (split : splitKind known done fields = .ok tagged) (isFirst : Bool) {count : Nat}
    (enough : 2 * text.length + 1 ≤ count) {before : List Char} (blank : Blank before)
    (rest : List Char) :
    ∃ after, Blank after ∧
      rootMembers count isFirst known done
          (before ++ (separator isFirst ++ (text ++ '\x7d' :: rest))) =
        .ok (tagged, after ++ '\x7d' :: rest) :=
  match written with
  | .last first => by
    have nonempty := first.length_pos
    obtain ⟨count, rfl⟩ : ∃ less, count = less + 2 := ⟨count - 2, by omega⟩
    obtain ⟨next, others, after, ended, blankAfter, step⟩ := rootMembers_step first
      (isText _ List.mem_cons_self) split isFirst (by omega : _ ≤ count + 1) blank
      (stopsNumber_cons (.inr (.inr rfl)) rest)
    refine ⟨after, blankAfter, ?_⟩
    cases next with
    | none => cases ended
    | some kind =>
      cases ended
      rw [step, rootMembers, nextKey_close blankAfter]
      rfl
  | @WritesMembers.cons _ _ _ _ more first others => by
    simp only [List.length_append, List.length_cons] at enough
    obtain ⟨count, rfl⟩ : ∃ less, count = less + 1 := ⟨count - 1, by omega⟩
    obtain ⟨next, passed, between, split, blankBetween, step⟩ := rootMembers_step first
      (isText _ List.mem_cons_self) split isFirst (by omega : _ ≤ count) blank
      (stopsNumber_cons (.inl rfl) (more ++ '\x7d' :: rest))
    obtain ⟨after, blankAfter, read⟩ := rootMembers_append others
      (fun member inside => isText member (List.mem_cons_of_mem _ inside)) split false
      (by omega : _ ≤ count) blankBetween rest
    refine ⟨after, blankAfter, ?_⟩
    simp only [List.append_assoc, List.cons_append]
    rw [step]
    simpa [separator] using read

/-- Behind its first element the other elements of a list are read up to its closing bracket. -/
theorem elements_behind_first {item : Json} {items : List Json} {text : List Char}
    (written : WritesElements Numeral.json? (item :: items) text) {count : Nat}
    (enough : 2 * text.length + 1 ≤ count) (rest : List Char) :
    ∃ before first others after, text = before ++ (first ++ others) ∧ Blank before ∧
      Writes Numeral.json? item first ∧ Blank after ∧
      elements count false [] (others ++ ']' :: rest) = .ok (items, after ++ ']' :: rest) := by
  cases written with
  | last written =>
    obtain @⟨_, before, first, after, blankBefore, written, blankAfter⟩ := written
    obtain ⟨count, rfl⟩ : ∃ less, count = less + 1 := ⟨count - 1, by omega⟩
    exact ⟨before, first, after, after, rfl, blankBefore, written, blankAfter,
      elements_close false [] blankAfter count rest⟩
  | @cons _ _ _ more written others =>
    obtain @⟨_, before, first, between, blankBefore, written, blankBetween⟩ := written
    simp only [List.length_append, List.length_cons] at enough
    obtain ⟨after, blankAfter, read⟩ := elements_append others false (by omega : _ ≤ count) []
      blankBetween rest
    refine ⟨before, first, between ++ ',' :: more, after, by simp, blankBefore, written, blankAfter,
      ?_⟩
    simpa [separator] using read

theorem Once.ne_nil {members : List (String × Json)} {key : String} {json : Json}
    (once : Once members key json) : members ≠ [] :=
  List.ne_nil_of_mem once.mem

theorem Once.eq_of_mem {members : List (String × Json)} {key : String} {json : Json}
    (once : Once members key json) {member : String × Json} (inside : member ∈ members)
    (isKey : member.1 = key) : member.2 = json := by
  have kept : member ∈ members.filter (fun member => member.1 = key) :=
    List.mem_filter.mpr ⟨inside, by simpa using isKey⟩
  rw [once, List.mem_singleton] at kept
  rw [kept]

/-- The root term is read to its end, and its record gives values to its fields. -/
theorem rootRecord_append {kind : Kind} {values : List Json} {json : Json} {text : List Char}
    (shape : Tagged kind (.string kind.name) values json) (written : Writes Numeral.json? json text)
    {before : List Char} (blank : Blank before) (rest : List Char) :
    ∃ record, rootRecord (before ++ (text ++ rest)) = .ok ((kind, record), rest) ∧
      record.Gives kind.fieldNames values := by
  cases shape with
  | @named members tagOnce each =>
    obtain ⟨inner, rfl, inside⟩ := written.of_object tagOnce.ne_nil
    obtain ⟨record, split, gives⟩ := (Tagged.named tagOnce each).readTagged (.inl rfl)
    obtain ⟨after, blankAfter, read⟩ := rootMembers_append inside
      (fun member inList isKind => ⟨kind.name, tagOnce.eq_of_mem inList isKind⟩) split true
      (by simp [Json.enough]; omega :
        _ ≤ Json.enough ('\x7b' :: (inner ++ '\x7d' :: rest))) blank_nil rest
    refine ⟨record, ?_, gives⟩
    rw [List.cons_append, List.append_assoc, List.singleton_append, rootRecord,
      skipBlank_append_cons blank isBlank_brace]
    show (rootMembers _ true none [] (inner ++ '\x7d' :: rest) >>= fun read =>
      ofJsonReading (closeObject read.2) >>= fun rest => .ok (read.1, rest)) = _
    simp only [separator, if_true, List.nil_append] at read
    rw [read]
    show (ofJsonReading (closeObject (after ++ '\x7d' :: rest)) >>= fun rest =>
      .ok ((kind, record), rest)) = _
    rw [closeObject_append blankAfter]
    rfl
  | positional =>
    obtain ⟨inner, rfl, inside⟩ := written.of_array (List.cons_ne_nil _ _)
    obtain ⟨space, first, others, after, rfl, blankSpace, isKind, blankAfter, read⟩ :=
      elements_behind_first inside (by simp [Json.enough]; omega :
        _ ≤ Json.enough ('[' :: (inner ++ ']' :: rest))) rest
    refine ⟨.positional values, ?_, .positional⟩
    have opened : nextElement true (space ++ (first ++ (others ++ ']' :: rest))) =
        .ok (some (first ++ (others ++ ']' :: rest))) :=
      nextElement_value blank_nil blankSpace true isKind
    have kindRead : rootKind (first ++ (others ++ ']' :: rest)) =
        .ok (kind, others ++ ']' :: rest) :=
      rootKind_append (readKindName_name kind) blank_nil isKind.of_string _
    rw [List.cons_append, List.append_assoc, List.singleton_append, rootRecord,
      skipBlank_append_cons blank isBlank_bracket]
    simp only [List.append_assoc, opened, ofJsonReading_ok, bind, Except.bind, kindRead] at read ⊢
    rw [read]
    simp only [ofJsonReading_ok, closeList_append blankAfter]
    rfl

theorem rootTerm_append {term : Term} {json : Json} {text : List Char}
    (encodes : EncodesRoot term json) (written : Writes Numeral.json? json text)
    (leave : List Char → List Char) {before : List Char} (blank : Blank before)
    (rest : List Char) : rootTerm leave (before ++ (text ++ rest)) = .ok (term, rest) := by
  obtain ⟨values, fields, shape⟩ := encodes
  obtain ⟨record, read, gives⟩ := rootRecord_append shape written blank rest
  rw [rootTerm, read]
  simp only [bind, Except.bind, readRecord_of_gives fields gives]
  rfl

end Decoding

end TreeScript
