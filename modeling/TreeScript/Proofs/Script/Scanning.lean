/-
This file reads the smallest pieces of a script: fixed texts, words, integers,
string literals and lists in parentheses. A reader takes what it wants from the
front of a text and leaves the rest. For each of them a lemma says that it gets
back what was written, with anything behind it that cannot belong to the piece.
-/

import TreeScript.Proofs.Script.Identifier
import TreeScript.Proofs.Script.Lexing

namespace TreeScript.Script

/-- Reads from the front of a text, or fails. -/
abbrev Reader := StateT (List Char) Option

/-- A text that does not go on with a word. -/
def endsWord : List Char → Bool
  | [] => true
  | c :: _ => !isIdentifierChar c

/-- A text that does not go on with a word or with the arguments of a call. -/
def isEnd (rest : List Char) : Bool :=
  endsWord rest && rest.head? != some '('

theorem endsWord_of_isEnd {rest : List Char} (ends : isEnd rest = true) : endsWord rest = true :=
  (Bool.and_eq_true_iff.mp ends).1

theorem isIdentifierChar_of_endsWord {rest : List Char} (ends : endsWord rest = true) :
    ∀ c ∈ rest.head?, isIdentifierChar c = false := by
  cases rest with
  | nil => simp
  | cons c cs => simpa [endsWord] using ends

namespace Reader

theorem bind_of_some {α β : Type} {reader : Reader α} {next : α → Reader β} {input rest : List Char}
    {value : α} (taken : reader input = some (value, rest)) :
    (reader >>= next) input = next value rest := by
  show (reader input >>= fun step => next step.1 step.2) = _
  rw [taken]
  rfl

theorem get_apply (input : List Char) : (get : Reader (List Char)) input = some (input, input) :=
  rfl

/-! ### Fixed texts -/

/-- Whether the text goes on with a fixed one. -/
def startsWith (text : String) : Reader Bool :=
  fun input => some (text.toList.isPrefixOf input, input)

/-- Takes a fixed text. -/
def expect (text : String) : Reader Unit :=
  fun input =>
    if text.toList.isPrefixOf input then some ((), input.drop text.toList.length) else none

theorem startsWith_append (text : String) (rest : List Char) :
    startsWith text (text.toList ++ rest) = some (true, text.toList ++ rest) := by
  simp [startsWith]

theorem startsWith_of_head {text : String} {c : Char} {cs input : List Char}
    (spelled : text.toList = c :: cs) (differs : input.head? ≠ some c) :
    startsWith text input = some (false, input) := by
  cases input with
  | nil => simp [startsWith, spelled]
  | cons first input =>
    have apart : ¬ c = first := fun same => differs (congrArg some same.symm)
    simp [startsWith, spelled, List.isPrefixOf, apart]

theorem expect_append (text : String) (rest : List Char) :
    expect text (text.toList ++ rest) = some ((), rest) := by
  simp [expect]

/-! ### Words and integers -/

/-- Takes all characters of a kind. -/
def takeAll (kind : Char → Bool) : Reader (List Char) :=
  fun input => some (input.takeWhile kind, input.dropWhile kind)

theorem takeAll_append {kind : Char → Bool} {chars rest : List Char}
    (all : ∀ c ∈ chars, kind c = true) (ends : ∀ c ∈ rest.head?, kind c = false) :
    takeAll kind (chars ++ rest) = some (chars, rest) := by
  have taken : rest.takeWhile kind = [] ∧ rest.dropWhile kind = rest := by
    cases rest with
    | nil => exact ⟨rfl, rfl⟩
    | cons c cs => simp [ends c rfl]
  rw [takeAll, List.takeWhile_append_of_pos all, List.dropWhile_append_of_pos all, taken.1, taken.2,
    List.append_nil]

def word : Reader String := do
  return String.ofList (← takeAll isIdentifierChar)

theorem word_append {text : String} {rest : List Char}
    (chars : ∀ c ∈ text.toList, isIdentifierChar c = true) (ends : endsWord rest = true) :
    word (text.toList ++ rest) = some (text, rest) := by
  rw [word, bind_of_some (takeAll_append chars (isIdentifierChar_of_endsWord ends)),
    String.ofList_toList]
  rfl

/-- Takes an integer, which may start with a minus sign. -/
def integer : Reader Int := do
  if ← startsWith "-" then
    expect "-"
    return -(Nat.ofDigitChars 10 (← takeAll Char.isDigit) 0 : Int)
  else return (Nat.ofDigitChars 10 (← takeAll Char.isDigit) 0 : Int)

theorem takeAll_toDigits (number : Nat) {rest : List Char} (ends : isEnd rest = true) :
    takeAll Char.isDigit (Nat.toDigits 10 number ++ rest) =
      some (Nat.toDigits 10 number, rest) := by
  refine takeAll_append
    (fun c member => Nat.isDigit_of_mem_toDigits (by decide) (by decide) member) fun c member => ?_
  have noChar := isIdentifierChar_of_endsWord (endsWord_of_isEnd ends) c member
  simp only [isIdentifierChar, Char.isAlphanum, Bool.or_eq_false_iff] at noChar
  exact noChar.2.2

theorem toList_toString_of_nonneg {number : Int} (nonnegative : 0 ≤ number) :
    (toString number).toList = Nat.toDigits 10 number.toNat := by
  rw [Int.toString_eq_repr, Int.repr_eq_if, if_pos nonnegative, Nat.toList_repr]

theorem toList_toString_of_neg {number : Int} (negative : ¬ 0 ≤ number) :
    (toString number).toList = "-".toList ++ Nat.toDigits 10 (-number).toNat := by
  rw [Int.toString_eq_repr, Int.repr_eq_if, if_neg negative, String.toList_append, Nat.toList_repr]

/-- The digits of a number start with a digit. -/
theorem toDigits_eq_cons (number : Nat) :
    ∃ digit others, Nat.toDigits 10 number = digit :: others ∧ digit.isDigit = true := by
  cases digits : Nat.toDigits 10 number with
  | nil => exact absurd digits Nat.toDigits_ne_nil
  | cons digit others =>
    exact ⟨digit, others, rfl,
      Nat.isDigit_of_mem_toDigits (by decide) (by decide) (digits ▸ List.mem_cons_self)⟩

theorem toString_eq_cons (number : Int) :
    ∃ c cs, (toString number).toList = c :: cs ∧ (c = '-' ∨ c.isDigit = true) := by
  by_cases nonnegative : 0 ≤ number
  · obtain ⟨digit, others, digits, isDigit⟩ := toDigits_eq_cons number.toNat
    exact ⟨digit, others, (toList_toString_of_nonneg nonnegative).trans digits, .inr isDigit⟩
  · exact ⟨'-', _, toList_toString_of_neg nonnegative, .inl rfl⟩

theorem integer_append (number : Int) {rest : List Char} (ends : isEnd rest = true) :
    integer ((toString number).toList ++ rest) = some (number, rest) := by
  by_cases nonnegative : 0 ≤ number
  · obtain ⟨digit, others, digits, isDigit⟩ := toDigits_eq_cons number.toNat
    have noSign : (Nat.toDigits 10 number.toNat ++ rest).head? ≠ some '-' := by
      rw [digits]
      rintro ⟨⟩
      exact absurd isDigit (by decide)
    rw [toList_toString_of_nonneg nonnegative, integer,
      bind_of_some (startsWith_of_head rfl noSign), if_neg Bool.false_ne_true,
      bind_of_some (takeAll_toDigits _ ends), Nat.ofDigitChars_toDigits (by decide) (by decide)]
    exact congrArg (fun value => some (value, rest)) (Int.toNat_of_nonneg nonnegative)
  · rw [toList_toString_of_neg nonnegative, List.append_assoc, integer,
      bind_of_some (startsWith_append "-" _), if_pos rfl, bind_of_some (expect_append "-" _),
      bind_of_some (takeAll_toDigits _ ends), Nat.ofDigitChars_toDigits (by decide) (by decide)]
    refine congrArg (fun value => some (value, rest)) ?_
    omega

/-! ### Literals -/

/-- Takes a string literal, by the rules for all of them. -/
def stringLiteral : Reader String := fun input => do
  let taken ← stringLiteral? input
  return (String.ofList (decode taken.1), taken.2)

/-- A text is taken back from its literal. -/
theorem stringLiteral_append (text : String) (rest : List Char) :
    stringLiteral ((literal text).toList ++ rest) = some (text, rest) := by
  rw [stringLiteral, stringLiteral?_literal]
  show some (String.ofList (decode (units text)), rest) = _
  rw [ofList_decode_units]

/-! ### Lists -/

section Lists

variable {α β : Type}

/-- Takes one item and those after it, with a comma in front of each, and the closing
parenthesis. -/
def separated (item : Reader α) : Nat → Reader (List α)
  | 0 => failure
  | length + 1 => do
    let first ← item
    if ← startsWith ", " then
      expect ", "
      return first :: (← separated item length)
    else
      expect ")"
      return [first]

/-- Takes a list of items and the closing parenthesis. -/
def listed (item : Reader α) : Reader (List α) := do
  if ← startsWith ")" then
    expect ")"
    return []
  else separated item (← get).length

variable {item : Reader β} {text : α → String} {value : α → β}

theorem separated_append {entry : α} {entries : List α} {rest : List Char} {length : Nat}
    (reads : ∀ one ∈ entry :: entries, ∀ rest, isEnd rest = true →
      item ((text one).toList ++ rest) = some (value one, rest))
    (enough : entries.length < length) :
    separated item length
        ((", ".intercalate ((entry :: entries).map text)).toList ++ (")".toList ++ rest)) =
      some ((entry :: entries).map value, rest) := by
  induction entries generalizing entry length with
  | nil =>
    obtain ⟨length, rfl⟩ := Nat.exists_eq_succ_of_ne_zero (Nat.ne_of_gt enough)
    rw [List.map_singleton, String.intercalate_singleton, separated,
      bind_of_some (reads entry List.mem_cons_self _ rfl),
      bind_of_some (startsWith_of_head (c := ',') rfl (by simp)), if_neg Bool.false_ne_true,
      bind_of_some (expect_append ")" rest)]
    rfl
  | cons next entries inductionHypothesis =>
    obtain ⟨length, rfl⟩ := Nat.exists_eq_succ_of_ne_zero (Nat.ne_of_gt (Nat.zero_lt_of_lt enough))
    have others := inductionHypothesis
      (fun one member => reads one (List.mem_cons_of_mem _ member)) (Nat.lt_of_succ_lt_succ enough)
    rw [List.map_cons, List.map_cons, String.intercalate_cons_cons, String.toList_append,
      String.toList_append, List.append_assoc, List.append_assoc, separated,
      bind_of_some (reads entry List.mem_cons_self _ rfl),
      bind_of_some (startsWith_append ", " _), if_pos rfl, bind_of_some (expect_append ", " _),
      ← List.map_cons, bind_of_some others]
    rfl

/-- A list that is not empty starts with its first item. -/
theorem intercalate_eq_append (entry : String) (entries : List String) :
    ∃ more, (", ".intercalate (entry :: entries)).toList = entry.toList ++ more := by
  cases entries with
  | nil => exact ⟨[], by rw [String.intercalate_singleton, List.append_nil]⟩
  | cons next entries =>
    refine ⟨", ".toList ++ (", ".intercalate (next :: entries)).toList, ?_⟩
    rw [String.intercalate_cons_cons, String.toList_append, String.toList_append,
      List.append_assoc]

theorem length_le_intercalate (entry : String) (entries : List String) :
    entries.length ≤ (", ".intercalate (entry :: entries)).toList.length := by
  induction entries generalizing entry with
  | nil => exact Nat.zero_le _
  | cons next entries inductionHypothesis =>
    have shorter := inductionHypothesis next
    have comma : ", ".toList.length = 2 := rfl
    rw [String.intercalate_cons_cons, String.toList_append, String.toList_append,
      List.length_append, List.length_append, List.length_cons]
    omega

/-- A list is taken back if its items are. -/
theorem listed_append {entries : List α} {rest : List Char}
    (reads : ∀ one ∈ entries, ∀ rest, isEnd rest = true →
      item ((text one).toList ++ rest) = some (value one, rest))
    (opens : ∀ one ∈ entries, ∃ c cs, (text one).toList = c :: cs ∧ c ≠ ')') :
    listed item ((", ".intercalate (entries.map text)).toList ++ (")".toList ++ rest)) =
      some (entries.map value, rest) := by
  cases entries with
  | nil =>
    rw [List.map_nil, String.intercalate_nil, listed]
    show (startsWith ")" >>= _) (")".toList ++ rest) = _
    rw [bind_of_some (startsWith_append ")" rest), if_pos rfl,
      bind_of_some (expect_append ")" rest)]
    rfl
  | cons entry entries =>
    obtain ⟨c, cs, spelled, notClosed⟩ := opens entry List.mem_cons_self
    obtain ⟨more, whole⟩ := intercalate_eq_append (text entry) (entries.map text)
    have notEmpty : ((", ".intercalate ((entry :: entries).map text)).toList ++
        (")".toList ++ rest)).head? ≠ some ')' := by
      rw [List.map_cons, whole, spelled]
      simpa using notClosed
    have enough : entries.length < ((", ".intercalate ((entry :: entries).map text)).toList ++
        (")".toList ++ rest)).length := by
      have shorter := length_le_intercalate (text entry) (entries.map text)
      rw [List.length_map, ← List.map_cons] at shorter
      rw [List.length_append]
      exact Nat.lt_of_le_of_lt shorter (Nat.lt_add_of_pos_right (Nat.succ_pos rest.length))
    rw [listed, bind_of_some (startsWith_of_head rfl notEmpty), if_neg Bool.false_ne_true,
      bind_of_some (get_apply _), separated_append reads enough]

end Lists

end Reader

end TreeScript.Script
