/-
This file works with paths as texts: pieces between slashes. Empty pieces and
pieces that are a single dot count for nothing, except that a leading slash
means the root and a leading dot the current directory. A path is never
normalised; what an operation does not touch stays as it was written.
-/

namespace TreeScript

structure Path where
  text : String
deriving DecidableEq, Repr

namespace Path

/-! ### Pieces -/

/-- The pieces between slashes. -/
def split : List Char → List (List Char)
  | [] => [[]]
  | c :: cs =>
    if c = '/' then [] :: split cs
    else
      match split cs with
      | [] => [[c]]
      | piece :: pieces => (c :: piece) :: pieces

def pieces (path : Path) : List String :=
  (split path.text.toList).map String.ofList

/-- The path with the given pieces. -/
def ofPieces (pieces : List String) : Path :=
  ⟨"/".intercalate pieces⟩

/-- Whether a piece counts for nothing. -/
def isTrivial (piece : String) : Bool :=
  piece = "" || piece = "."

/-- Drops pieces at the end that count for nothing; the first piece always stays. -/
def dropTrivialEnd : List String → List String
  | [] => []
  | piece :: pieces => piece :: (pieces.reverse.dropWhile isTrivial).reverse

def isAbsolute (path : Path) : Bool :=
  path.text.startsWith "/"

/-! ### File names -/

/-- The last piece that counts, if it names something. -/
def fileName? (path : Path) : Option String :=
  match (dropTrivialEnd path.pieces).getLast? with
  | some piece => if isTrivial piece || piece = ".." then none else some piece
  | none => none

/-- Divides a file name at its last dot, unless that dot is its first character. -/
def divide (name : String) : String × Option String :=
  let back := name.toList.reverse
  let extension := back.takeWhile (· ≠ '.')
  match back.dropWhile (· ≠ '.') with
  | [] => (name, none)
  | _ :: stem =>
    if stem.isEmpty then (name, none)
    else (String.ofList stem.reverse, some (String.ofList extension.reverse))

/-- A file name without its extension. -/
def stem? (path : Path) : Option String :=
  path.fileName?.map fun name => (divide name).1

def extension? (path : Path) : Option String :=
  path.fileName?.bind fun name => (divide name).2

/-- Whether something is written after the last piece that counts. -/
def hasTrivialEnd (path : Path) : Bool :=
  (dropTrivialEnd path.pieces).length < path.pieces.length

/-- The path with another extension, and without what follows the file name. A file name with a
single dot before its extension has no stem to keep and becomes the parent directory, unless
something follows it. -/
def withExtension (path : Path) (extension : String) : Path :=
  match path.stem? with
  | none => path
  | some stem =>
    let around := (dropTrivialEnd path.pieces).dropLast
    let name :=
      if stem = "." ∧ ¬path.hasTrivialEnd then ".." else stem ++ "." ++ extension
    ofPieces (around ++ [name])

/-- The path of an entry of a directory. -/
def join (path : Path) (name : String) : Path :=
  if name.startsWith "/" || path.text.isEmpty then ⟨name⟩
  else if path.text.endsWith "/" then ⟨path.text ++ name⟩
  else ⟨path.text ++ "/" ++ name⟩

/-- The directory around the last piece that counts; the root and the empty path have none. -/
def parent? (path : Path) : Option Path :=
  let body := dropTrivialEnd path.pieces
  if body = [""] then none
  else
    let around := dropTrivialEnd body.dropLast
    some (if around = [""] then ⟨"/"⟩ else ofPieces around)

/-! ### Display -/

/-- Takes the pieces of a directory off the front of a path's pieces. -/
def dropDirectory : List String → List String → Option (List String)
  | [], pieces => some pieces
  | _ :: _, [] => none
  | name :: names, piece :: pieces =>
    if isTrivial piece then dropDirectory (name :: names) pieces
    else if piece = name then dropDirectory names pieces
    else none

/-- An absolute path relative to an absolute directory that contains it. -/
def relativeTo? (path directory : Path) : Option Path :=
  if path.isAbsolute && directory.isAbsolute then
    let names := directory.pieces.filter fun piece => !isTrivial piece
    (dropDirectory names path.pieces).map fun rest =>
      let rest := (rest.dropWhile isTrivial).reverse
      ofPieces (rest.dropWhile isTrivial).reverse
  else none

/-- The mark of a path that is to be taken as it is. -/
def verbatimMark : List Char := ['\\', '\\', '?', '\\']

/-- The path without the mark that it is to be taken as it is. -/
def withoutMark (path : Path) : Path :=
  let text := path.text.toList
  if verbatimMark.isPrefixOf text then ⟨String.ofList (text.drop verbatimMark.length)⟩
  else path

/-- A path as it is shown to someone who works in a directory. -/
def display (path : Path) (directory : Option Path) : String :=
  let path := path.withoutMark
  match directory with
  | none => path.text
  | some directory => ((path.relativeTo? directory.withoutMark).getD path).text

end Path

end TreeScript
