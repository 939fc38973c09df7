/-
This file says what identifiers look like. Every name becomes a word of letters,
digits, underscores and dollar signs that does not start with a digit, is not
reserved and is not the name of the support module. A word that is like this
already is its own identifier, so names are settled after one step.
-/

import TreeScript.Script.Identifier

namespace TreeScript.Script

/-- A word that can stand for a name in a script. -/
structure IsIdentifier (word : String) : Prop where
  chars : ∀ c ∈ word.toList, isIdentifierChar c = true
  start : ∃ c cs, word.toList = c :: cs ∧ c.isDigit = false
  notReserved : word ∉ reservedWords
  notSupport : word ≠ supportName

/-! ### Sanitized names -/

theorem isIdentifierChar_of_mem_replaceChars {name : List Char} {c : Char}
    (member : c ∈ replaceChars name) : isIdentifierChar c = true := by
  obtain ⟨original, -, rfl⟩ := List.mem_map.mp member
  split
  · assumption
  · rfl

theorem replaceChars_of_isIdentifierChar {name : List Char}
    (chars : ∀ c ∈ name, isIdentifierChar c = true) : replaceChars name = name := by
  rw [replaceChars, List.map_congr_left fun c member => if_pos (chars c member), List.map_id']

/-- What a sanitized name consists of and starts with. -/
theorem sanitize_spec (name : String) :
    (∀ c ∈ (sanitize name).toList, isIdentifierChar c = true) ∧
      ∃ c cs, (sanitize name).toList = c :: cs ∧ c.isDigit = false := by
  rw [sanitize]
  split
  case h_1 =>
    exact ⟨List.all_eq_true.mp (by decide), '_', ['v', 'a', 'l', 'u', 'e'], by decide, by decide⟩
  case h_2 c cs replaced =>
    have chars (other : Char) (member : other ∈ c :: cs) : isIdentifierChar other = true :=
      isIdentifierChar_of_mem_replaceChars (replaced ▸ member)
    rw [String.toList_ofList]
    split
    · refine ⟨fun other member => ?_, '_', c :: cs, rfl, by decide⟩
      obtain rfl | member := List.mem_cons.mp member
      · decide
      · exact chars other member
    case isFalse notDigit => exact ⟨chars, c, cs, rfl, Bool.eq_false_iff.mpr notDigit⟩

/-! ### Identifiers -/

theorem toList_underscore (word : String) : ("_" ++ word).toList = '_' :: word.toList := by
  rw [String.toList_append]
  rfl

theorem underscore_inj {word other : String} (same : "_" ++ word = "_" ++ other) :
    word = other := by
  have sameChars := congrArg String.toList same
  rw [toList_underscore, toList_underscore] at sameChars
  exact String.toList_inj.mp (List.cons.inj sameChars).2

theorem notMem_reservedWords_underscore (word : String) : "_" ++ word ∉ reservedWords := by
  have starts : ∀ reserved ∈ reservedWords, reserved.toList.head? ≠ some '_' := by decide
  intro member
  refine starts _ member ?_
  rw [toList_underscore]
  rfl

theorem isIdentifier_identifier (name : String) : IsIdentifier (identifier name) := by
  obtain ⟨chars, start⟩ := sanitize_spec name
  rw [identifier]
  split
  case isTrue taken =>
    have spelled := toList_underscore (sanitize name)
    refine ⟨fun c member => ?_, ⟨'_', _, spelled, by decide⟩, notMem_reservedWords_underscore _, ?_⟩
    · rw [spelled] at member
      obtain rfl | member := List.mem_cons.mp member
      · decide
      · exact chars c member
    · intro same
      have short := underscore_inj (show "_" ++ sanitize name = "_" ++ "_rinha" from same)
      rw [short] at taken
      revert taken
      decide
  case isFalse free =>
    rw [not_or] at free
    exact ⟨chars, start, free.1, free.2⟩

theorem identifier_of_isIdentifier {word : String} (isIdentifier : IsIdentifier word) :
    identifier word = word := by
  have sanitized : sanitize word = word := by
    obtain ⟨c, cs, spelled, notDigit⟩ := isIdentifier.start
    rw [sanitize, replaceChars_of_isIdentifierChar isIdentifier.chars, spelled]
    dsimp only
    rw [notDigit, if_neg Bool.false_ne_true, ← spelled, String.ofList_toList]
  rw [identifier, sanitized, if_neg]
  rintro (reserved | support)
  · exact isIdentifier.notReserved reserved
  · exact isIdentifier.notSupport support

/-- An identifier is its own identifier. -/
theorem identifier_identifier (name : String) : identifier (identifier name) = identifier name :=
  identifier_of_isIdentifier (isIdentifier_identifier name)

theorem map_identifier_map (names : List String) :
    (names.map identifier).map identifier = names.map identifier := by
  simp only [List.map_map, Function.comp_def, identifier_identifier]

/-! ### Usable words -/

/-- What a word starts with: a letter, an underscore or a dollar sign. -/
def IsWordStart (c : Char) : Prop :=
  ('a' ≤ c ∧ c ≤ 'z') ∨ ('A' ≤ c ∧ c ≤ 'Z') ∨ c = '_' ∨ c = '$'

/-- What a word goes on with: the same, or a digit. -/
def IsWordPart (c : Char) : Prop :=
  IsWordStart c ∨ ('0' ≤ c ∧ c ≤ '9')

theorem isDigit_iff {c : Char} : c.isDigit = true ↔ '0' ≤ c ∧ c ≤ '9' :=
  Bool.and_eq_true_iff.trans (and_congr decide_eq_true_iff decide_eq_true_iff)

theorem isAlpha_iff {c : Char} :
    c.isAlpha = true ↔ ('a' ≤ c ∧ c ≤ 'z') ∨ ('A' ≤ c ∧ c ≤ 'Z') := by
  have upper : c.isUpper = true ↔ 'A' ≤ c ∧ c ≤ 'Z' := decide_eq_true_iff
  have lower : c.isLower = true ↔ 'a' ≤ c ∧ c ≤ 'z' :=
    Bool.and_eq_true_iff.trans (and_congr decide_eq_true_iff decide_eq_true_iff)
  rw [← upper, ← lower, or_comm]
  exact Bool.or_eq_true_iff

theorem isIdentifierChar_iff {c : Char} : isIdentifierChar c = true ↔ IsWordPart c := by
  simp only [isIdentifierChar, Char.isAlphanum, Bool.or_eq_true, decide_eq_true_eq, isAlpha_iff,
    isDigit_iff, IsWordPart, IsWordStart]
  grind

/-- No digit starts a word. -/
theorem isWordStart_iff {c : Char} :
    IsWordStart c ↔ isIdentifierChar c = true ∧ c.isDigit = false := by
  rw [isIdentifierChar_iff, ← Bool.not_eq_true, isDigit_iff, IsWordPart]
  refine ⟨fun starts => ⟨.inl starts, ?_⟩, fun both => both.1.resolve_right both.2⟩
  rintro ⟨fromZero, toNine⟩
  rcases starts with ⟨above, -⟩ | ⟨above, -⟩ | rfl | rfl
  · exact absurd (Char.le_trans above toNine) (by decide)
  · exact absurd (Char.le_trans above toNine) (by decide)
  · exact absurd toNine (by decide)
  · exact absurd fromZero (by decide)

/-- A word that a script may bind and use like any other. -/
structure IsUsable (word : String) : Prop where
  spelled : ∃ first others, word.toList = first :: others ∧ IsWordStart first ∧
    ∀ c ∈ others, IsWordPart c
  notReserved : word ∉ reservedWords
  notSupport : word ≠ "__rinha"

theorem isUsable_iff {word : String} : IsUsable word ↔ IsIdentifier word := by
  constructor
  · rintro ⟨⟨first, others, spelled, starts, parts⟩, notReserved, notSupport⟩
    obtain ⟨char, notDigit⟩ := isWordStart_iff.mp starts
    refine ⟨fun c member => ?_, ⟨first, others, spelled, notDigit⟩, notReserved, notSupport⟩
    rw [spelled] at member
    obtain rfl | member := List.mem_cons.mp member
    · exact char
    · exact isIdentifierChar_iff.mpr (parts c member)
  · rintro ⟨chars, ⟨first, others, spelled, notDigit⟩, notReserved, notSupport⟩
    rw [spelled] at chars
    refine ⟨⟨first, others, spelled, ?_, fun c member => ?_⟩, notReserved, notSupport⟩
    · exact isWordStart_iff.mpr ⟨chars first List.mem_cons_self, notDigit⟩
    · exact isIdentifierChar_iff.mp (chars c (List.mem_cons_of_mem _ member))

/-- Every name becomes a usable word. Those that are usable already, and only those, stay as they
are, so nothing changes the second time. -/
theorem identifier_usable (name : String) :
    IsUsable (identifier name) ∧ (identifier name = name ↔ IsUsable name) ∧
      identifier (identifier name) = identifier name := by
  have usable : IsUsable (identifier name) := isUsable_iff.mpr (isIdentifier_identifier name)
  refine ⟨usable, ⟨fun same => same ▸ usable, fun already => ?_⟩, identifier_identifier name⟩
  exact identifier_of_isIdentifier (isUsable_iff.mp already)

end TreeScript.Script
