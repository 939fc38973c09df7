/-
This file writes lines for a terminal. A line is made of pieces; the styles in
front of a piece stay in force until another style changes them, and every line
ends with all styles taken back.
-/

namespace TreeScript.Report

inductive Style where
  | red | green | yellow | blue | magenta | bold | dark | reset
deriving DecidableEq, Repr

/-- The number that switches a style on. -/
def Style.code : Style → Nat
  | red => 31
  | green => 32
  | yellow => 33
  | blue => 34
  | magenta => 35
  | bold => 1
  | dark => 2
  | reset => 0

/-- The control sequence of a style. -/
def Style.sequence (style : Style) : String :=
  "\x1b[" ++ toString style.code ++ "m"

/-- A text with the styles that are switched on before it. -/
structure Piece where
  styles : List Style
  text : String

def Piece.plain (text : String) : Piece := ⟨[], text⟩

def Piece.styled (styles : List Style) (text : String) : Piece := ⟨styles, text⟩

def Piece.render (piece : Piece) : String :=
  String.join (piece.styles.map Style.sequence) ++ piece.text

/-- A line of pieces. -/
def line (pieces : List Piece) : String :=
  String.join (pieces.map Piece.render) ++ Style.reset.sequence ++ "\n"

end TreeScript.Report
