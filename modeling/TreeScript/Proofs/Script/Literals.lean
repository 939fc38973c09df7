/-
This file settles what a string literal is good for. Whatever a text holds and
whatever follows its literal, the lexer stops behind the closing quote and has the
text as its value, so different texts have different literals. A literal is also
safe to look at: no control and no line separator stands in it.

A script that requires the support module names it by a literal. So it loads the
module from the path that it was given, whichever that is.
-/

import TreeScript.Proofs.Script.Tokens

namespace TreeScript.Script

/-! ### The characters of literals -/

/-- Neither a control nor a line separator. -/
def IsLineSafe (c : Char) : Prop :=
  0x20 ≤ c.toNat ∧ (c.toNat < 0x7F ∨ 0x9F < c.toNat) ∧ c.toNat ≠ 0x2028 ∧ c.toNat ≠ 0x2029

instance (c : Char) : Decidable (IsLineSafe c) :=
  inferInstanceAs (Decidable (_ ∧ _))

theorem isLineSafe_hexDigit {value : Nat} (small : value < 16) : IsLineSafe (hexDigit value) := by
  have all : ∀ digit : Fin 16, IsLineSafe (hexDigit digit) := by decide
  exact all ⟨value, small⟩

theorem isLineSafe_of_mem_escapeCode {code : Nat} {c : Char} (member : c ∈ escapeCode code) :
    IsLineSafe c := by
  have digit (number : Nat) : IsLineSafe (hexDigit (number % 16)) :=
    isLineSafe_hexDigit (Nat.mod_lt _ (by decide))
  simp only [escapeCode, List.mem_cons, List.not_mem_nil, or_false] at member
  rcases member with rfl | rfl | rfl | rfl | rfl | rfl
  · decide
  · decide
  all_goals exact digit _

theorem isLineSafe_of_mem_escapeChar {c other : Char} (member : other ∈ escapeChar c) :
    IsLineSafe other := by
  have short {letter : Char} (safe : IsLineSafe letter) (inPair : other ∈ ['\\', letter]) :
      IsLineSafe other := by
    rw [List.mem_pair] at inPair
    rcases inPair with rfl | rfl
    · decide
    · exact safe
  revert member
  fun_cases escapeChar c with
  | case6 => exact isLineSafe_of_mem_escapeCode
  | case7 _ _ _ _ _ unescaped =>
    intro member
    rw [List.mem_singleton.mp member]
    simp only [isControl, Bool.or_eq_true, Bool.and_eq_true, decide_eq_true_eq] at unescaped
    unfold IsLineSafe
    omega
  | _ => exact short (by decide)

theorem isLineSafe_of_mem_literal {text : String} {c : Char} (member : c ∈ (literal text).toList) :
    IsLineSafe c := by
  have quote : IsLineSafe '"' := by decide
  rw [literal, String.toList_ofList, List.mem_cons, List.mem_append, List.mem_flatMap,
    List.mem_singleton] at member
  rcases member with rfl | ⟨original, -, written⟩ | rfl
  · exact quote
  · exact isLineSafe_of_mem_escapeChar written
  · exact quote

/-! ### The declaration in front of a script -/

/-- The declaration that loads the support module from a path. -/
def requireTokens (path : List Nat) : List Token :=
  [.word "const", .word supportName, .sign "=", .word "require", .sign "(", .string path,
    .sign ")", .sign ";"]

/-- The declaration is read up to the end of its line, whatever stands in the lines below. -/
theorem reads_prologue (path : String) (rest : List Char) :
    Reads ((Linkage.require path).prologue.toList ++ rest) (requireTokens (units path))
      ('\n' :: rest) := by
  have opened : ReadsFixed ("const " ++ supportName ++ " = require(")
      [.word "const", .word supportName, .sign "=", .word "require", .sign "("] :=
    readsFixed_of_take? 8 fun _ => rfl
  have closed : ReadsFixed ");" [.sign ")", .sign ";"] := readsFixed_of_take? 2 fun _ => rfl
  have spelled : (Linkage.require path).prologue.toList ++ rest =
      ("const " ++ supportName ++ " = require(").toList ++
        ((literal path).toList ++ (");".toList ++ '\n' :: rest)) := by
    rw [Linkage.prologue, String.toList_append, String.toList_append, List.append_assoc,
      List.append_assoc]
    rfl
  rw [spelled]
  exact (opened _).trans ((readsFixed_literal path _).trans (closed _))

/-! ### Literals as an encoding -/

/-- A literal has its text as its value, and no other text, and it ends where the lexer stops. It
is safe to look at, and a script requires the module at the path that is written as a literal. -/
theorem literal_exact (text : String) (rest : List Char) :
    (∀ value left, stringLiteral? ((literal text).toList ++ rest) = some (units value, left) ↔
        value = text ∧ left = rest) ∧
      (∀ c ∈ (literal text).toList, IsLineSafe c) ∧
      Reads ((Linkage.require text).prologue.toList ++ rest) (requireTokens (units text))
        ('\n' :: rest) ∧
      ∀ other, literal other = literal text ↔ other = text := by
  have lexed := stringLiteral?_literal text rest
  refine ⟨fun value left => ?_, fun c => isLineSafe_of_mem_literal, reads_prologue text rest,
    fun other => ?_⟩
  · rw [lexed, Option.some.injEq, Prod.mk.injEq, units_injective.eq_iff, eq_comm (a := text),
      eq_comm (a := rest)]
  · refine ⟨fun same => ?_, congrArg literal⟩
    have otherLexed := stringLiteral?_literal other rest
    rw [same, lexed] at otherLexed
    exact (units_injective (Prod.mk.inj (Option.some.inj otherLexed)).1).symm

/-- A quote, a backslash, a control, a line separator and a character beyond 16 bits, and behind the
literal what could be taken for a part of it. -/
theorem literal_exact_mixedText :
    stringLiteral? ((literal "\"\\\x00\u2028😀").toList ++ "1\"".toList) =
        some (units "\"\\\x00\u2028😀", "1\"".toList) ∧
      '\\' ∈ (literal "\"\\\x00\u2028😀").toList ∧ IsLineSafe '\\' := by
  have member : '\\' ∈ (literal "\"\\\x00\u2028😀").toList := by decide
  obtain ⟨lexed, safe, -, -⟩ := literal_exact "\"\\\x00\u2028😀" "1\"".toList
  exact ⟨(lexed _ _).mpr ⟨rfl, rfl⟩, member, safe _ member⟩

end TreeScript.Script
