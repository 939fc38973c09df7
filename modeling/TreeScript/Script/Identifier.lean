/-
This file turns names into identifiers of the emitted script. A character that
an identifier cannot hold becomes an underscore; a name that is empty, starts
with a digit, is reserved, or would hide the support module gets one in front.
-/

import TreeScript.Script.Support

namespace TreeScript.Script

/-- Names that a script must not bind. -/
def reservedWords : List String :=
  [ "break", "case", "catch", "class", "const", "continue", "debugger", "default", "delete", "do",
    "else", "export", "extends", "finally", "for", "function", "if", "import", "in",
    "instanceof", "new", "return", "super", "switch", "this", "throw", "try", "typeof", "var",
    "void", "while", "with", "yield", "enum", "implements", "interface", "let", "package",
    "private", "protected", "public", "static", "await", "undefined", "null", "true", "false",
    "NaN", "Infinity", "eval", "arguments", "require", "module", "console", "Math" ]

def isIdentifierChar (c : Char) : Bool :=
  c = '_' || c = '$' || c.isAlphanum

/-- The characters of a name with an underscore for each that an identifier cannot hold. -/
def replaceChars (name : List Char) : List Char :=
  name.map fun c => if isIdentifierChar c then c else '_'

/-- A name in the form of an identifier. -/
def sanitize (name : String) : String :=
  match replaceChars name.toList with
  | [] => "_value"
  | c :: cs => String.ofList (if c.isDigit then '_' :: c :: cs else c :: cs)

/-- The identifier of a name. -/
def identifier (name : String) : String :=
  let sanitized := sanitize name
  if sanitized ∈ reservedWords ∨ sanitized = supportName then "_" ++ sanitized else sanitized

end TreeScript.Script
