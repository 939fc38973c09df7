/-
This file compares reading a JSON value with reading it in front of more text, as it
has been done for scalars. Lists and objects say themselves where they end, so only a
number depends on what is left behind it. It also shows that the count that bounds the
nesting is never the reason to refuse a text: what is read with any count is read with
every count that is twice the number of characters that the value takes.
-/

import TreeScript.Proofs.Json.Extension.Scalars

namespace TreeScript.Json

variable {text rest : List Char}

/-! ### Steps through lists and objects -/

theorem nextElement_extend {isFirst : Bool} {next : Option (List Char)}
    (read : nextElement isFirst text = .ok next) :
    (∀ left ∈ next, left <:+ text) ∧
      ∀ more, nextElement isFirst (text ++ more) = .ok (next.map (· ++ more)) := by
  rw [nextElement] at read
  split at read
  next => cases read
  next c others found =>
    have whole : c :: others <:+ text := found ▸ List.dropWhile_suffix _
    have extended (more : List Char) := skipBlank_extend found more
    split at read
    next isClosing =>
      cases read
      refine ⟨by simp, fun more => ?_⟩
      simp only [nextElement, extended, if_pos isClosing, Option.map_none]
    next notClosing =>
      split at read
      next isComma =>
        split at read
        next => cases read
        next d left foundNext =>
          split at read
          next => cases read
          next notEnd =>
            cases read
            refine ⟨?_, fun more => ?_⟩
            · rintro _ ⟨⟩
              exact (foundNext ▸ List.dropWhile_suffix _ : d :: left <:+ others).trans
                ((List.suffix_cons c others).trans whole)
            · simp only [nextElement, extended, if_neg notClosing, if_pos isComma,
                skipBlank_extend foundNext, if_neg notEnd]
              rfl
      next notComma =>
        split at read
        next first =>
          cases read
          refine ⟨by rintro _ ⟨⟩; exact whole, fun more => ?_⟩
          simp only [nextElement, extended, if_neg notClosing, if_neg notComma, if_pos first]
          rfl
        next => cases read

theorem map_some_stringBody_extend {next : Option (String × List Char)}
    (read : (stringBody [] text).map some = .ok next) :
    (∀ entry ∈ next, entry.2 <:+ text) ∧
      ∀ more, (stringBody [] (text ++ more)).map some =
        .ok (next.map fun entry => (entry.1, entry.2 ++ more)) := by
  obtain ⟨⟨key, left⟩, taken, same⟩ := exists_of_map_eq_ok read
  cases same
  obtain ⟨isSuffix, extended⟩ := stringBody_extend taken
  refine ⟨by rintro _ ⟨⟩; exact isSuffix, fun more => ?_⟩
  rw [extended]
  rfl

theorem nextKey_extend {isFirst : Bool} {next : Option (String × List Char)}
    (read : nextKey isFirst text = .ok next) :
    (∀ entry ∈ next, entry.2 <:+ text) ∧
      ∀ more, nextKey isFirst (text ++ more) =
        .ok (next.map fun entry => (entry.1, entry.2 ++ more)) := by
  rw [nextKey] at read
  split at read
  next => cases read
  next c others found =>
    have whole : others <:+ text := suffix_of_skipBlank found
    have extended (more : List Char) := skipBlank_extend found more
    split at read
    next isClosing =>
      cases read
      refine ⟨by simp, fun more => ?_⟩
      simp only [nextKey, extended, if_pos isClosing, Option.map_none]
    next notClosing =>
      split at read
      next isComma =>
        split at read
        next => cases read
        next d left foundNext =>
          split at read
          next isQuote =>
            obtain ⟨isSuffix, bodyExtended⟩ := map_some_stringBody_extend read
            refine ⟨fun entry given =>
              ((isSuffix entry given).trans (suffix_of_skipBlank foundNext)).trans whole,
              fun more => ?_⟩
            simp only [nextKey, extended, if_neg notClosing, if_pos isComma,
              skipBlank_extend foundNext, if_pos isQuote, bodyExtended]
          next => split at read <;> cases read
      next notComma =>
        split at read
        next first =>
          split at read
          next isQuote =>
            obtain ⟨isSuffix, bodyExtended⟩ := map_some_stringBody_extend read
            refine ⟨fun entry given => (isSuffix entry given).trans whole, fun more => ?_⟩
            simp only [nextKey, extended, if_neg notClosing, if_neg notComma, if_pos first,
              if_pos isQuote, bodyExtended]
          next => cases read
        next => cases read

theorem length_lt_of_skipBlank {c : Char} (found : skipBlank text = c :: rest) :
    rest.length < text.length := by
  obtain ⟨before, -, rfl⟩ := exists_blank_of_skipBlank found
  rw [List.length_append, List.length_cons]
  omega

theorem colon_extend (read : colon text = .ok rest) :
    (rest <:+ text ∧ rest.length < text.length) ∧
      ∀ more, colon (text ++ more) = .ok (rest ++ more) := by
  rw [colon] at read
  split at read
  next => cases read
  next c others found =>
    split at read
    next isColon =>
      cases read
      refine ⟨⟨suffix_of_skipBlank found, length_lt_of_skipBlank found⟩, fun more => ?_⟩
      simp only [colon, skipBlank_extend found, if_pos isColon]
    next => cases read

theorem closeList_extend (read : closeList text = .ok rest) :
    (∃ before, Blank before ∧ text = before ++ ']' :: rest) ∧
      ∀ more, closeList (text ++ more) = .ok (rest ++ more) := by
  rw [closeList] at read
  split at read
  next => cases read
  next c others found =>
    split at read
    next isClosing =>
      cases read
      subst isClosing
      refine ⟨exists_blank_of_skipBlank found, fun more => ?_⟩
      simp only [closeList, skipBlank_extend found, if_true]
    next =>
      split at read
      next => split at read <;> (try split at read) <;> cases read
      next => cases read

theorem closeObject_extend (read : closeObject text = .ok rest) :
    (∃ before, Blank before ∧ text = before ++ '\x7d' :: rest) ∧
      ∀ more, closeObject (text ++ more) = .ok (rest ++ more) := by
  rw [closeObject] at read
  split at read
  next => cases read
  next c others found =>
    split at read
    next isClosing =>
      cases read
      subst isClosing
      refine ⟨exists_blank_of_skipBlank found, fun more => ?_⟩
      simp only [closeObject, skipBlank_extend found, if_true]
    next => split at read <;> cases read

theorem suffix_of_closed {before : List Char} {c : Char} : rest <:+ before ++ c :: rest :=
  (List.suffix_cons c rest).trans (List.suffix_append before _)

/-! ### Values

Where the elements or members of a value go on, something is left to read: in front of
nothing they would have failed. So only a value on its own depends on what is left.
-/

theorem ne_nil_of_elements {count : Nat} {isFirst : Bool} {done items : List Json}
    (read : elements count isFirst done text = .ok (items, rest)) : text ≠ [] := by
  rintro rfl
  cases count with
  | zero => cases read
  | succ count => cases read

theorem ne_nil_of_members {count : Nat} {isFirst : Bool} {done fields : List (String × Json)}
    (read : members count isFirst done text = .ok (fields, rest)) : text ≠ [] := by
  rintro rfl
  cases count with
  | zero => cases read
  | succ count => cases read

theorem value_of_list {count : Nat} {inner left : List Char} {items : List Json}
    (opens : skipBlank text = '[' :: inner)
    (readItems : elements count true [] inner = .ok (items, left))
    (closes : closeList left = .ok rest) : value (count + 1) text = .ok (.array items, rest) := by
  simp only [value, opens, if_true, readItems]
  show (closeList left >>= fun rest => Except.ok (Json.array items, rest)) = _
  rw [closes]
  rfl

theorem value_of_object {count : Nat} {inner left : List Char} {fields : List (String × Json)}
    (opens : skipBlank text = '\x7b' :: inner)
    (readFields : members count true [] inner = .ok (fields, left))
    (closes : closeObject left = .ok rest) :
    value (count + 1) text = .ok (.object fields, rest) := by
  have notBracket : '\x7b' ≠ '[' := by decide
  simp only [value, opens, notBracket, if_false, if_true, readFields]
  show (closeObject left >>= fun rest => Except.ok (Json.object fields, rest)) = _
  rw [closes]
  rfl

theorem elements_of_next {count : Nat} {isFirst : Bool} {done : List Json}
    {left behind : List Char} {item : Json} (next : nextElement isFirst text = .ok (some left))
    (readItem : value count left = .ok (item, behind)) :
    elements (count + 1) isFirst done text = elements count false (item :: done) behind := by
  rw [elements, next]
  show (value count left >>= fun read => elements count false (read.1 :: done) read.2) = _
  rw [readItem]
  rfl

theorem members_of_next {count : Nat} {isFirst : Bool} {done : List (String × Json)}
    {key : String} {left inner behind : List Char} {item : Json}
    (next : nextKey isFirst text = .ok (some (key, left))) (hasColon : colon left = .ok inner)
    (readItem : value count inner = .ok (item, behind)) :
    members (count + 1) isFirst done text = members count false ((key, item) :: done) behind := by
  rw [members, next]
  show (colon left >>= fun inner => value count inner >>= fun read =>
    members count false ((key, read.1) :: done) read.2) = _
  rw [hasColon]
  show (value count inner >>= fun read => members count false ((key, read.1) :: done) read.2) = _
  rw [readItem]
  rfl

mutual

theorem value_extend {count : Nat} {text rest : List Char} {json : Json}
    (read : value count text = .ok (json, rest)) :
    (rest <:+ text ∧ rest.length < text.length) ∧
      ∀ {larger : Nat} (_ : 2 * text.length ≤ larger + 2 * rest.length) {more : List Char}
        (_ : rest = [] → more = []), value larger (text ++ more) = .ok (json, rest ++ more) := by
  match count with
  | count + 1 =>
    rw [value] at read
    split at read
    next => cases read
    next c others found =>
      have inside : others <:+ text := suffix_of_skipBlank found
      have shorter : others.length < text.length := length_lt_of_skipBlank found
      split at read
      next isList =>
        subst isList
        obtain ⟨⟨items, left⟩, readItems, finish⟩ := exists_of_bind_eq_ok read
        obtain ⟨closed, closing, result⟩ := exists_of_bind_eq_ok finish
        cases result
        obtain ⟨leftSuffix, itemsExtended⟩ := elements_extend readItems
        obtain ⟨⟨before, -, rfl⟩, closeExtended⟩ := closeList_extend closing
        have restSuffix : rest <:+ others := suffix_of_closed.trans leftSuffix
        have restLength := restSuffix.length_le
        refine ⟨⟨restSuffix.trans inside, by omega⟩, fun {larger} enough {more} _ => ?_⟩
        obtain ⟨larger, rfl⟩ := Nat.exists_eq_add_one.mpr (by omega : 0 < larger)
        refine value_of_list (skipBlank_extend found more) (itemsExtended ?_ more)
          (closeExtended more)
        rw [List.length_append, List.length_cons]
        omega
      next notList =>
        split at read
        next isObject =>
          subst isObject
          obtain ⟨⟨fields, left⟩, readFields, finish⟩ := exists_of_bind_eq_ok read
          obtain ⟨closed, closing, result⟩ := exists_of_bind_eq_ok finish
          cases result
          obtain ⟨leftSuffix, fieldsExtended⟩ := members_extend readFields
          obtain ⟨⟨before, -, rfl⟩, closeExtended⟩ := closeObject_extend closing
          have restSuffix : rest <:+ others := suffix_of_closed.trans leftSuffix
          have restLength := restSuffix.length_le
          refine ⟨⟨restSuffix.trans inside, by omega⟩, fun {larger} enough {more} _ => ?_⟩
          obtain ⟨larger, rfl⟩ := Nat.exists_eq_add_one.mpr (by omega : 0 < larger)
          refine value_of_object (skipBlank_extend found more) (fieldsExtended ?_ more)
            (closeExtended more)
          rw [List.length_append, List.length_cons]
          omega
        next notObject =>
          obtain ⟨restSuffix, extended⟩ := scalar_extend read
          have restLength : rest.length ≤ others.length := restSuffix.length_le
          refine ⟨⟨restSuffix.trans inside, by omega⟩, fun {larger} enough {more} atEnd => ?_⟩
          obtain ⟨larger, rfl⟩ := Nat.exists_eq_add_one.mpr (by omega : 0 < larger)
          simp only [value, skipBlank_extend found, if_neg notList, if_neg notObject]
          by_cases nonempty : rest = []
          · rw [atEnd nonempty, List.append_nil, List.append_nil]
            exact read
          · exact extended nonempty more

theorem elements_extend {count : Nat} {text rest : List Char} {isFirst : Bool}
    {done items : List Json} (read : elements count isFirst done text = .ok (items, rest)) :
    rest <:+ text ∧
      ∀ {larger : Nat} (_ : 2 * text.length < larger + 2 * rest.length) (more : List Char),
        elements larger isFirst done (text ++ more) = .ok (items, rest ++ more) := by
  match count with
  | count + 1 =>
    rw [elements] at read
    obtain ⟨next, found, finish⟩ := exists_of_bind_eq_ok read
    obtain ⟨nextSuffix, nextExtended⟩ := nextElement_extend found
    cases next with
    | none =>
      cases finish
      refine ⟨List.suffix_refl _, fun {larger} enough more => ?_⟩
      obtain ⟨larger, rfl⟩ := Nat.exists_eq_add_one.mpr (by omega : 0 < larger)
      rw [elements, nextExtended]
      rfl
    | some left =>
      obtain ⟨⟨item, behind⟩, readItem, readOthers⟩ := exists_of_bind_eq_ok finish
      obtain ⟨⟨itemSuffix, itemLength⟩, itemExtended⟩ := value_extend readItem
      obtain ⟨othersSuffix, othersExtended⟩ := elements_extend readOthers
      have leftLength := (nextSuffix _ rfl).length_le
      have behindLength := othersSuffix.length_le
      refine ⟨(othersSuffix.trans itemSuffix).trans (nextSuffix _ rfl),
        fun {larger} enough more => ?_⟩
      obtain ⟨larger, rfl⟩ := Nat.exists_eq_add_one.mpr (by omega : 0 < larger)
      rw [elements_of_next (nextExtended more) (itemExtended (by omega)
        fun atEnd => absurd atEnd (ne_nil_of_elements readOthers))]
      exact othersExtended (by omega) more

theorem members_extend {count : Nat} {text rest : List Char} {isFirst : Bool}
    {done fields : List (String × Json)}
    (read : members count isFirst done text = .ok (fields, rest)) :
    rest <:+ text ∧
      ∀ {larger : Nat} (_ : 2 * text.length < larger + 2 * rest.length) (more : List Char),
        members larger isFirst done (text ++ more) = .ok (fields, rest ++ more) := by
  match count with
  | count + 1 =>
    rw [members] at read
    obtain ⟨next, found, finish⟩ := exists_of_bind_eq_ok read
    obtain ⟨nextSuffix, nextExtended⟩ := nextKey_extend found
    cases next with
    | none =>
      cases finish
      refine ⟨List.suffix_refl _, fun {larger} enough more => ?_⟩
      obtain ⟨larger, rfl⟩ := Nat.exists_eq_add_one.mpr (by omega : 0 < larger)
      rw [members, nextExtended]
      rfl
    | some entry =>
      obtain ⟨key, left⟩ := entry
      obtain ⟨inner, hasColon, finish⟩ := exists_of_bind_eq_ok finish
      obtain ⟨⟨item, behind⟩, readItem, readOthers⟩ := exists_of_bind_eq_ok finish
      obtain ⟨⟨colonSuffix, colonLength⟩, colonExtended⟩ := colon_extend hasColon
      obtain ⟨⟨itemSuffix, itemLength⟩, itemExtended⟩ := value_extend readItem
      obtain ⟨othersSuffix, othersExtended⟩ := members_extend readOthers
      have leftLength : left.length ≤ text.length := (nextSuffix _ rfl).length_le
      have behindLength := othersSuffix.length_le
      refine ⟨((othersSuffix.trans itemSuffix).trans colonSuffix).trans (nextSuffix _ rfl),
        fun {larger} enough more => ?_⟩
      obtain ⟨larger, rfl⟩ := Nat.exists_eq_add_one.mpr (by omega : 0 < larger)
      rw [members_of_next (nextExtended more) (colonExtended more) (itemExtended (by omega)
        fun atEnd => absurd atEnd (ne_nil_of_members readOthers))]
      exact othersExtended (by omega) more

end

/-- A value behind its colon. -/
theorem colon_value_extend {count : Nat} {json : Json}
    (read : colon text >>= value count = .ok (json, rest)) :
    (rest <:+ text ∧ rest.length < text.length) ∧
      ∀ {larger : Nat} (_ : 2 * text.length ≤ larger + 2 * rest.length) {more : List Char}
        (_ : rest = [] → more = []),
        colon (text ++ more) >>= value larger = .ok (json, rest ++ more) := by
  obtain ⟨left, hasColon, readItem⟩ := exists_of_bind_eq_ok read
  obtain ⟨⟨colonSuffix, colonLength⟩, colonExtended⟩ := colon_extend hasColon
  obtain ⟨⟨isSuffix, isShorter⟩, extended⟩ := value_extend readItem
  refine ⟨⟨isSuffix.trans colonSuffix, by omega⟩, fun {larger} enough {more} atEnd => ?_⟩
  rw [colonExtended]
  exact extended (by omega) atEnd

/-- The count is never the reason to refuse a value. -/
theorem colon_value_of_le {count larger : Nat} {json : Json}
    (read : colon text >>= value count = .ok (json, rest))
    (enough : 2 * text.length ≤ larger + 2 * rest.length) :
    colon text >>= value larger = .ok (json, rest) := by
  have again := (colon_value_extend read).2 enough (fun _ => rfl : rest = [] → [] = [])
  rwa [List.append_nil, List.append_nil] at again

/-! ### Values that are skipped -/

theorem skipKey_extend (read : skipKey text = .ok rest) :
    (rest <:+ text ∧ rest.length < text.length) ∧
      ∀ more, skipKey (text ++ more) = .ok (rest ++ more) := by
  rw [skipKey] at read
  split at read
  next => cases read
  next c others found =>
    split at read
    next isQuote =>
      obtain ⟨left, skipped, hasColon⟩ := exists_of_bind_eq_ok read
      obtain ⟨leftSuffix, leftExtended⟩ := skipString_extend skipped
      obtain ⟨⟨colonSuffix, -⟩, colonExtended⟩ := colon_extend hasColon
      have restSuffix : rest <:+ others := colonSuffix.trans leftSuffix
      refine ⟨⟨restSuffix.trans (suffix_of_skipBlank found),
        restSuffix.length_le.trans_lt (length_lt_of_skipBlank found)⟩, fun more => ?_⟩
      simp only [skipKey, skipBlank_extend found, if_pos isQuote, leftExtended]
      exact colonExtended more
    next => cases read

/-- Skips what stands behind an opening bracket: the closing one, or parts up to it. -/
def skipInside (closing : Char) (atEnd : Cause) (parts : List Char → Except Fault (List Char))
    (text : List Char) : Except Fault (List Char) :=
  match skipBlank text with
  | [] => .error (.before [] atEnd)
  | c :: rest => if c = closing then .ok rest else parts text

/-- Skips what stands behind a part: the closing bracket, or a comma and more parts. -/
def skipBehind (closing : Char) (atEnd noComma : Cause)
    (parts : List Char → Except Fault (List Char)) (text : List Char) :
    Except Fault (List Char) :=
  match skipBlank text with
  | [] => .error (.before [] atEnd)
  | c :: rest =>
    if c = closing then .ok rest
    else if c = ',' then parts rest
    else .error (.next (c :: rest) noComma)

section Parts

variable {closing : Char} {atEnd noComma : Cause} {count : Nat}
  (parts : Nat → List Char → Except Fault (List Char))

/-- Parts and their closing bracket are skipped in front of more text as they are on their own. -/
def SkipsAlike (text rest : List Char) : Prop :=
  (rest <:+ text ∧ rest.length < text.length) ∧
    ∀ {larger : Nat} (_ : 2 * text.length ≤ larger + 2 * rest.length) (more : List Char),
      parts larger (text ++ more) = .ok (rest ++ more)

theorem skipInside_extend (read : skipInside closing atEnd (parts count) text = .ok rest)
    (alike : parts count text = .ok rest → SkipsAlike parts text rest) :
    SkipsAlike (fun count => skipInside closing atEnd (parts count)) text rest := by
  rw [skipInside] at read
  split at read
  next => cases read
  next c others found =>
    split at read
    next isClosing =>
      cases read
      refine ⟨⟨suffix_of_skipBlank found, length_lt_of_skipBlank found⟩, fun _ more => ?_⟩
      simp only [skipInside, skipBlank_extend found, if_pos isClosing]
    next notClosing =>
      obtain ⟨shorter, extended⟩ := alike read
      refine ⟨shorter, fun enough more => ?_⟩
      simp only [skipInside, skipBlank_extend found, if_neg notClosing]
      exact extended enough more

theorem skipBehind_extend (read : skipBehind closing atEnd noComma (parts count) text = .ok rest)
    (alike : ∀ {others}, parts count others = .ok rest → SkipsAlike parts others rest) :
    SkipsAlike (fun count => skipBehind closing atEnd noComma (parts count)) text rest := by
  rw [skipBehind] at read
  split at read
  next => cases read
  next c others found =>
    have inside : others <:+ text := suffix_of_skipBlank found
    have shorter : others.length < text.length := length_lt_of_skipBlank found
    split at read
    next isClosing =>
      cases read
      refine ⟨⟨inside, shorter⟩, fun _ more => ?_⟩
      simp only [skipBehind, skipBlank_extend found, if_pos isClosing]
    next notClosing =>
      split at read
      next isComma =>
        obtain ⟨⟨isSuffix, isShorter⟩, extended⟩ := alike read
        refine ⟨⟨isSuffix.trans inside, by omega⟩, fun enough more => ?_⟩
        simp only [skipBehind, skipBlank_extend found, if_neg notClosing, if_pos isComma]
        exact extended (by omega) more
      next => cases read

theorem ne_nil_of_skipBehind
    (read : skipBehind closing atEnd noComma (parts count) text = .ok rest) : text ≠ [] := by
  rintro rfl
  cases read

end Parts

mutual

theorem skipValue_extend {count : Nat} {text rest : List Char}
    (read : skipValue count text = .ok rest) :
    (rest <:+ text ∧ rest.length < text.length) ∧
      ∀ {larger : Nat} (_ : 2 * text.length ≤ larger + 2 * rest.length) {more : List Char}
        (_ : rest = [] → more = []), skipValue larger (text ++ more) = .ok (rest ++ more) := by
  match count with
  | count + 1 =>
    rw [skipValue] at read
    split at read
    next => cases read
    next c others found =>
      have inside : others <:+ text := suffix_of_skipBlank found
      have shorter : others.length < text.length := length_lt_of_skipBlank found
      split at read
      next isList =>
        obtain ⟨⟨isSuffix, isShorter⟩, extended⟩ :=
          skipInside_extend skipElements read skipElements_extend
        refine ⟨⟨isSuffix.trans inside, by omega⟩, fun {larger} enough {more} _ => ?_⟩
        obtain ⟨larger, rfl⟩ := Nat.exists_eq_add_one.mpr (by omega : 0 < larger)
        simp only [skipValue, skipBlank_extend found, if_pos isList]
        exact extended (by omega) more
      next notList =>
        split at read
        next isObject =>
          obtain ⟨⟨isSuffix, isShorter⟩, extended⟩ :=
            skipInside_extend skipMembers read skipMembers_extend
          refine ⟨⟨isSuffix.trans inside, by omega⟩, fun {larger} enough {more} _ => ?_⟩
          obtain ⟨larger, rfl⟩ := Nat.exists_eq_add_one.mpr (by omega : 0 < larger)
          simp only [skipValue, skipBlank_extend found, if_neg notList, if_pos isObject]
          exact extended (by omega) more
        next notObject =>
          obtain ⟨restSuffix, extended⟩ := skipScalar_extend read
          have restLength : rest.length ≤ others.length := restSuffix.length_le
          refine ⟨⟨restSuffix.trans inside, by omega⟩, fun {larger} enough {more} atEnd => ?_⟩
          obtain ⟨larger, rfl⟩ := Nat.exists_eq_add_one.mpr (by omega : 0 < larger)
          simp only [skipValue, skipBlank_extend found, if_neg notList, if_neg notObject]
          by_cases nonempty : rest = []
          · rw [atEnd nonempty, List.append_nil, List.append_nil]
            exact read
          · exact extended nonempty more

theorem skipElements_extend {count : Nat} {text rest : List Char}
    (read : skipElements count text = .ok rest) : SkipsAlike skipElements text rest := by
  match count with
  | count + 1 =>
    rw [skipElements] at read
    obtain ⟨left, skipped, behind⟩ := exists_of_bind_eq_ok read
    obtain ⟨⟨leftSuffix, leftLength⟩, leftExtended⟩ := skipValue_extend skipped
    obtain ⟨⟨isSuffix, isShorter⟩, extended⟩ :=
      skipBehind_extend skipElements behind skipElements_extend
    have notEmpty : left ≠ [] := ne_nil_of_skipBehind skipElements behind
    refine ⟨⟨isSuffix.trans leftSuffix, by omega⟩, fun {larger} enough more => ?_⟩
    obtain ⟨larger, rfl⟩ := Nat.exists_eq_add_one.mpr (by omega : 0 < larger)
    rw [skipElements, leftExtended (by omega) fun atEnd => absurd atEnd notEmpty]
    exact extended (by omega) more

theorem skipMembers_extend {count : Nat} {text rest : List Char}
    (read : skipMembers count text = .ok rest) : SkipsAlike skipMembers text rest := by
  match count with
  | count + 1 =>
    rw [skipMembers] at read
    obtain ⟨inner, keyed, read⟩ := exists_of_bind_eq_ok read
    obtain ⟨left, skipped, behind⟩ := exists_of_bind_eq_ok read
    obtain ⟨⟨keySuffix, keyLength⟩, keyExtended⟩ := skipKey_extend keyed
    obtain ⟨⟨leftSuffix, leftLength⟩, leftExtended⟩ := skipValue_extend skipped
    obtain ⟨⟨isSuffix, isShorter⟩, extended⟩ :=
      skipBehind_extend skipMembers behind skipMembers_extend
    have notEmpty : left ≠ [] := ne_nil_of_skipBehind skipMembers behind
    refine ⟨⟨(isSuffix.trans leftSuffix).trans keySuffix, by omega⟩,
      fun {larger} enough more => ?_⟩
    obtain ⟨larger, rfl⟩ := Nat.exists_eq_add_one.mpr (by omega : 0 < larger)
    rw [skipMembers, keyExtended]
    show (skipValue larger (inner ++ more) >>= _) = _
    rw [leftExtended (by omega) fun atEnd => absurd atEnd notEmpty]
    exact extended (by omega) more

end

/-- A skipped value behind its colon. -/
theorem colon_skipValue_extend {count : Nat}
    (read : colon text >>= skipValue count = .ok rest) :
    (rest <:+ text ∧ rest.length < text.length) ∧
      ∀ {larger : Nat} (_ : 2 * text.length ≤ larger + 2 * rest.length) {more : List Char}
        (_ : rest = [] → more = []),
        colon (text ++ more) >>= skipValue larger = .ok (rest ++ more) := by
  obtain ⟨left, hasColon, skipped⟩ := exists_of_bind_eq_ok read
  obtain ⟨⟨colonSuffix, colonLength⟩, colonExtended⟩ := colon_extend hasColon
  obtain ⟨⟨isSuffix, isShorter⟩, extended⟩ := skipValue_extend skipped
  refine ⟨⟨isSuffix.trans colonSuffix, by omega⟩, fun {larger} enough {more} atEnd => ?_⟩
  rw [colonExtended]
  exact extended (by omega) atEnd

theorem colon_skipValue_of_le {count larger : Nat}
    (read : colon text >>= skipValue count = .ok rest)
    (enough : 2 * text.length ≤ larger + 2 * rest.length) :
    colon text >>= skipValue larger = .ok rest := by
  have again := (colon_skipValue_extend read).2 enough (fun _ => rfl : rest = [] → [] = [])
  rwa [List.append_nil, List.append_nil] at again

end TreeScript.Json
