/-
This file locates a defect in a text. A reader works on the list of characters
that remain, so a defect is named by what remained when it was found and by how
many bytes of that it lies ahead. Lines are counted from one, and a column is
the number of bytes that stand before it in its line.
-/

namespace TreeScript.Text

/-- The number of bytes of a text in UTF-8. -/
def byteLength (text : List Char) : Nat :=
  text.foldr (fun c bytes => c.utf8Size + bytes) 0

/-- A line, counted from one, and a number of bytes in it. -/
structure Position where
  line : Nat
  column : Nat
deriving DecidableEq, Repr

namespace Position

/-- The position after one more character. -/
def advance (position : Position) (c : Char) : Position :=
  if c = '\n' then ⟨position.line + 1, 0⟩ else ⟨position.line, position.column + c.utf8Size⟩

/-- The position `offset` bytes further on, which may lie inside a character. -/
def skip (position : Position) : List Char → Nat → Position
  | [], _ => position
  | c :: cs, offset =>
    if c.utf8Size ≤ offset then (position.advance c).skip cs (offset - c.utf8Size)
    else ⟨position.line, position.column + offset⟩

/-- The position after the first `offset` bytes of a text. -/
def ofOffset (text : List Char) (offset : Nat) : Position :=
  skip ⟨1, 0⟩ text offset

def text (position : Position) : String :=
  s!"line {position.line} column {position.column}"

end Position

/-- What went wrong while reading, the text that remained then, and how many of its bytes belong
to the defect. -/
structure Fault (Cause : Type) where
  cause : Cause
  rest : List Char
  ahead : Nat

namespace Fault

variable {Cause : Type}

/-- A defect right before the text that remains. -/
def before (rest : List Char) (cause : Cause) : Fault Cause :=
  ⟨cause, rest, 0⟩

/-- A defect that the next character shows; at the end of the text there is none. -/
def next (rest : List Char) (cause : Cause) : Fault Cause :=
  ⟨cause, rest, 1⟩

def map {Other : Type} (f : Cause → Other) (fault : Fault Cause) : Fault Other :=
  ⟨f fault.cause, fault.rest, fault.ahead⟩

/-- Where a defect lies in the whole text, never beyond its end. -/
def position (fault : Fault Cause) (text : List Char) : Position :=
  .ofOffset text
    (min (byteLength text) (byteLength text - byteLength fault.rest + fault.ahead))

end Fault

end TreeScript.Text
