/-
This file holds the lexical rules for string literals in double quotes, as they
are laid down for the language of the scripts. They know more than scripts use:
all escapes, with two, four or any number of hexadecimal digits, lines that go
on behind a backslash, and the characters that may not stand in a literal at
all. The value of a literal is a sequence of UTF-16 code units, which tell the text
that they came from. Whatever a text holds, its literal ends where it was meant to
end and has the text as its value.
-/

import TreeScript.Json.Scalar
import TreeScript.Script.Literal
import Mathlib.Data.List.Basic

namespace TreeScript.Script

/-! ### Code units -/

/-- The UTF-16 code units of a code point. -/
def codeUnits (code : Nat) : List Nat :=
  if code < 0x10000 then [code]
  else [0xD800 + (code - 0x10000) / 0x400, 0xDC00 + (code - 0x10000) % 0x400]

/-- The UTF-16 code units of a text. -/
def units (text : String) : List Nat :=
  text.toList.flatMap fun c => codeUnits c.toNat

/-- The characters of UTF-16 code units; a high surrogate and the unit behind it are one. -/
def decode : List Nat → List Char
  | [] => []
  | [unit] => [Char.ofNat unit]
  | unit :: next :: rest =>
    if 0xD800 ≤ unit ∧ unit < 0xDC00 then
      Char.ofNat (0x10000 + (unit - 0xD800) * 0x400 + (next - 0xDC00)) :: decode rest
    else Char.ofNat unit :: decode (next :: rest)

/-- No character is a surrogate, so the code units at the start of a text tell its first one. -/
theorem decode_codeUnits_append (c : Char) (more : List Nat) :
    decode (codeUnits c.toNat ++ more) = c :: decode more := by
  have valid : c.toNat < 0xD800 ∨ 0xDFFF < c.toNat ∧ c.toNat < 0x110000 := c.valid
  unfold codeUnits
  split
  next short =>
    cases more with
    | nil =>
      show [Char.ofNat c.toNat] = [c]
      rw [Char.ofNat_toNat]
    | cons next more =>
      have noSurrogate : ¬(0xD800 ≤ c.toNat ∧ c.toNat < 0xDC00) := by omega
      rw [List.singleton_append, decode, if_neg noSurrogate, Char.ofNat_toNat]
  next long =>
    have high : 0xD800 ≤ 0xD800 + (c.toNat - 0x10000) / 0x400 ∧
        0xD800 + (c.toNat - 0x10000) / 0x400 < 0xDC00 := by omega
    have code : 0x10000 + (0xD800 + (c.toNat - 0x10000) / 0x400 - 0xD800) * 0x400 +
        (0xDC00 + (c.toNat - 0x10000) % 0x400 - 0xDC00) = c.toNat := by omega
    rw [List.cons_append, List.singleton_append, decode, if_pos high, code, Char.ofNat_toNat]

theorem ofList_decode_units (text : String) : String.ofList (decode (units text)) = text := by
  have decoded (chars : List Char) :
      decode (chars.flatMap fun c => codeUnits c.toNat) = chars := by
    induction chars with
    | nil => rfl
    | cons c chars inductionHypothesis =>
      rw [List.flatMap_cons, decode_codeUnits_append, inductionHypothesis]
  rw [units, decoded, String.ofList_toList]

theorem units_injective : Function.Injective units :=
  Function.LeftInverse.injective (g := String.ofList ∘ decode) ofList_decode_units

/-! ### The lexer -/

def isLineTerminator (c : Char) : Bool :=
  c = '\n' || c = '\r' || c.toNat = 0x2028 || c.toNat = 0x2029

/-- The code point that hexadecimal digits stand for. -/
def codePoint? (digits : List Char) : Option Nat := do
  let values ← digits.mapM Json.hexDigit?
  let code := values.foldl (fun code value => code * 16 + value) 0
  if values = [] ∨ 0x10FFFF < code then none else some code

/-- What stands behind a backslash and a `u`: a code point in braces or a code unit. -/
def unicodeEscape? : List Char → Option (List Nat × List Char)
  | '\x7b' :: rest => do
    let code ← codePoint? (rest.takeWhile (· ≠ '\x7d'))
    match rest.dropWhile (· ≠ '\x7d') with
    | _ :: rest => some (codeUnits code, rest)
    | [] => none
  | a :: b :: c :: d :: rest => do return ([← Json.hexUnit? a b c d], rest)
  | _ => none

def hexEscape? : List Char → Option (List Nat × List Char)
  | a :: b :: rest => do return ([(← Json.hexDigit? a) * 16 + (← Json.hexDigit? b)], rest)
  | _ => none

/-- The letters that stand for a control behind a backslash. -/
def controlLetters : List (Char × Nat) :=
  [('b', 0x8), ('t', 0x9), ('n', 0xA), ('v', 0xB), ('f', 0xC), ('r', 0xD)]

/-- What stands behind a backslash. A line that goes on has no value, and of the digits only a zero
that no digit follows is an escape. -/
def escape? : List Char → Option (List Nat × List Char)
  | [] => none
  | 'u' :: rest => unicodeEscape? rest
  | 'x' :: rest => hexEscape? rest
  | '0' :: rest => if rest.head?.any Char.isDigit then none else some ([0], rest)
  | '\r' :: '\n' :: rest => some ([], rest)
  | c :: rest =>
    if isLineTerminator c then some ([], rest)
    else if c.isDigit then none
    else some (((controlLetters.lookup c).map fun code => [code]).getD (codeUnits c.toNat), rest)

/-- The code units of the next element of a literal, and what follows it. -/
def element? : List Char → Option (List Nat × List Char)
  | [] => none
  | '\\' :: rest => escape? rest
  | c :: rest => if isLineTerminator c then none else some (codeUnits c.toNat, rest)

/-! ### What is left gets shorter -/

theorem length_of_unicodeEscape? {input rest : List Char} {value : List Nat}
    (taken : unicodeEscape? input = some (value, rest)) : rest.length ≤ input.length := by
  revert taken
  fun_cases unicodeEscape? input with
  | case1 input =>
    intro taken
    obtain ⟨code, -, taken⟩ := Option.bind_eq_some_iff.mp taken
    split at taken
    next closed _ dropped =>
      obtain ⟨-, rfl⟩ := Prod.mk.inj (Option.some.inj taken)
      have shorter := (List.dropWhile_suffix (l := input) (· ≠ '\x7d')).length_le
      rw [dropped, List.length_cons] at shorter
      rw [List.length_cons]
      omega
    next => cases taken
  | case2 =>
    intro taken
    obtain ⟨unit, -, taken⟩ := Option.bind_eq_some_iff.mp taken
    obtain ⟨-, rfl⟩ := Prod.mk.inj (Option.some.inj taken)
    simp only [List.length_cons]
    omega
  | case3 => rintro ⟨⟩

theorem length_of_hexEscape? {input rest : List Char} {value : List Nat}
    (taken : hexEscape? input = some (value, rest)) : rest.length ≤ input.length := by
  revert taken
  fun_cases hexEscape? input with
  | case1 =>
    intro taken
    obtain ⟨high, -, taken⟩ := Option.bind_eq_some_iff.mp taken
    obtain ⟨low, -, taken⟩ := Option.bind_eq_some_iff.mp taken
    obtain ⟨-, rfl⟩ := Prod.mk.inj (Option.some.inj taken)
    simp only [List.length_cons]
    omega
  | case2 => rintro ⟨⟩

theorem length_of_escape? {input rest : List Char} {value : List Nat}
    (taken : escape? input = some (value, rest)) : rest.length ≤ input.length := by
  revert taken
  fun_cases escape? input with
  | case2 => exact fun taken => Nat.le_succ_of_le (length_of_unicodeEscape? taken)
  | case3 => exact fun taken => Nat.le_succ_of_le (length_of_hexEscape? taken)
  | _ =>
    rintro ⟨⟩
    all_goals simp only [List.length_cons]; omega

theorem length_of_element? {input rest : List Char} {value : List Nat}
    (taken : element? input = some (value, rest)) : rest.length < input.length := by
  revert taken
  fun_cases element? input with
  | case2 => exact fun taken => Nat.lt_succ_of_le (length_of_escape? taken)
  | case4 =>
    rintro ⟨⟩
    exact Nat.lt_succ_self _
  | _ => rintro ⟨⟩

/-- The code units up to the closing quote, and what follows it. -/
def quoted? (input : List Char) : Option (List Nat × List Char) :=
  if input.head? = some '"' then some ([], input.tail)
  else
    match _taken : element? input with
    | none => none
    | some (value, rest) => (quoted? rest).map fun others => (value ++ others.1, others.2)
termination_by input.length
decreasing_by exact length_of_element? ‹_›

/-- The value of the string literal at the front of a text, and what follows it. -/
def stringLiteral? : List Char → Option (List Nat × List Char)
  | '"' :: rest => quoted? rest
  | _ => none

theorem length_of_quoted? {input rest : List Char} {value : List Nat}
    (taken : quoted? input = some (value, rest)) : rest.length < input.length := by
  fun_induction quoted? input generalizing value with
  | case1 input quote =>
    obtain ⟨-, rfl⟩ := Prod.mk.inj (Option.some.inj taken)
    obtain ⟨more, rfl⟩ := List.head?_eq_some_iff.mp quote
    exact Nat.lt_succ_self _
  | case2 => cases taken
  | case3 input _ first others element inductionHypothesis =>
    obtain ⟨⟨more, after⟩, closed, same⟩ := Option.map_eq_some_iff.mp taken
    obtain ⟨-, rfl⟩ := Prod.mk.inj same
    exact Nat.lt_trans (inductionHypothesis closed) (length_of_element? element)

/-! ### Literals of texts -/

theorem hexDigit?_hexDigit {value : Nat} (small : value < 16) :
    Json.hexDigit? (hexDigit value) = some value := by
  have all : ∀ digit : Fin 16, Json.hexDigit? (hexDigit digit) = some digit.val := by decide
  exact all ⟨value, small⟩

theorem hexUnit?_escapeCode {code : Nat} (short : code < 0x10000) :
    Json.hexUnit? (hexDigit (code / 4096 % 16)) (hexDigit (code / 256 % 16))
      (hexDigit (code / 16 % 16)) (hexDigit (code % 16)) = some code := by
  have digit (number : Nat) : Json.hexDigit? (hexDigit (number % 16)) = some (number % 16) :=
    hexDigit?_hexDigit (Nat.mod_lt _ (by decide))
  simp only [Json.hexUnit?, digit, Option.bind_eq_bind, Option.bind_some, Option.pure_def]
  congr 1
  omega

theorem unicodeEscape?_of_hexUnit? {a b c d : Char} {rest : List Char} {unit : Nat}
    (read : Json.hexUnit? a b c d = some unit) :
    unicodeEscape? (a :: b :: c :: d :: rest) = some ([unit], rest) := by
  have notBrace : a ≠ '\x7b' := by
    rintro rfl
    cases read
  rw [unicodeEscape?, read]
  · rfl
  · exact notBrace

/-- The next element of a literal is read as the character that was written. -/
theorem element?_escapeChar (c : Char) (rest : List Char) :
    element? (escapeChar c ++ rest) = some (codeUnits c.toNat, rest) := by
  fun_cases escapeChar c with
  | case1 same => rw [same]; rfl
  | case2 _ same => rw [same]; rfl
  | case3 _ _ same => rw [same]; rfl
  | case4 _ _ _ same => rw [same]; rfl
  | case5 _ _ _ _ same => rw [same]; rfl
  | case6 _ _ _ _ _ special =>
    have short : c.toNat < 0x10000 := by
      simp only [isControl, Bool.or_eq_true, Bool.and_eq_true, decide_eq_true_eq] at special
      omega
    rw [codeUnits, if_pos short]
    exact unicodeEscape?_of_hexUnit? (hexUnit?_escapeCode short)
  | case7 notBackslash _ notLineFeed notReturn _ plain =>
    have noLineTerminator : isLineTerminator c = false := by
      simp only [not_or] at plain
      simp [isLineTerminator, notLineFeed, notReturn, plain.2.1, plain.2.2]
    rw [List.singleton_append, element?, noLineTerminator, if_neg Bool.false_ne_true]
    exact notBackslash

theorem head?_escapeChar (c : Char) (rest : List Char) :
    (escapeChar c ++ rest).head? ≠ some '"' := by
  fun_cases escapeChar c with
  | case7 _ notQuote => simpa using notQuote
  | _ => simp [escapeCode]

theorem quoted?_flatMap_escapeChar (chars rest : List Char) :
    quoted? (chars.flatMap escapeChar ++ '"' :: rest) =
      some (chars.flatMap fun c => codeUnits c.toNat, rest) := by
  induction chars with
  | nil =>
    rw [List.flatMap_nil, List.nil_append, quoted?]
    exact if_pos rfl
  | cons c chars inductionHypothesis =>
    rw [List.flatMap_cons, List.append_assoc, quoted?, if_neg (head?_escapeChar c _)]
    split
    next nothing => cases nothing.symm.trans (element?_escapeChar c _)
    next value others taken =>
      cases taken.symm.trans (element?_escapeChar c _)
      rw [inductionHypothesis, List.flatMap_cons]
      rfl

/-- The literal of a text is lexed as the text, whatever follows it. -/
theorem stringLiteral?_literal (text : String) (rest : List Char) :
    stringLiteral? ((literal text).toList ++ rest) = some (units text, rest) := by
  rw [literal, String.toList_ofList, List.cons_append, List.append_assoc, List.singleton_append]
  exact quoted?_flatMap_escapeChar text.toList rest

end TreeScript.Script
