/-
This file holds a file system as a value. Everything on a disk is found by the
names that lead to it from the root, and a path is followed from there or from
the current directory, one piece at a time, through directories only. There are
no links, so going up leads to the directory whose name comes last.
-/

import TreeScript.Files.Access

namespace TreeScript.Files

/-- The names that lead to an entry from the root. -/
abbrev Location := List String

inductive Entry where
  | directory
  | file (bytes : ByteArray)

structure Disk where
  entries : List (Location × Entry)
  current : Location

namespace Disk

/-- A disk with nothing on it but the current directory. -/
def empty (current : Location) : Disk :=
  ⟨(List.range current.length).map fun count => (current.take (count + 1), .directory), current⟩

/-- What is at a location; the root is always there. -/
def find? (disk : Disk) (location : Location) : Option Entry :=
  if location.isEmpty then some .directory else disk.entries.lookup location

/-- Puts an entry in place of what was at a location. -/
def put (disk : Disk) (location : Location) (entry : Entry) : Disk :=
  { disk with
    entries := (location, entry) :: disk.entries.filter fun (other, _) => other ≠ location }

theorem lookup_filter_of_ne {location other : Location} (different : other ≠ location)
    (entries : List (Location × Entry)) :
    (entries.filter fun (place, _) => place ≠ location).lookup other = entries.lookup other := by
  induction entries with
  | nil => rfl
  | cons head tail hypothesis =>
    obtain ⟨place, entry⟩ := head
    by_cases same : place = location
    · subst same
      simpa [List.lookup_cons, beq_false_of_ne different] using hypothesis
    · by_cases found : other == place <;> simp_all [List.lookup_cons]

/-- What was put at a location other than the root is there. -/
theorem find?_put_self (disk : Disk) {location : Location} (inside : location ≠ [])
    (entry : Entry) : (disk.put location entry).find? location = some entry := by
  simp [find?, put, inside]

/-- Nothing else changes when an entry is put somewhere. -/
theorem find?_put_of_ne (disk : Disk) {location other : Location} (different : other ≠ location)
    (entry : Entry) : (disk.put location entry).find? other = disk.find? other := by
  have kept := lookup_filter_of_ne different disk.entries
  simp only [find?, put, List.lookup_cons, beq_false_of_ne different, kept]

/-! ### Following paths -/

/-- The greatest number of bytes of a name. -/
def nameLimit : Nat := 255

/-- Goes from a location, which must be a directory, along one piece of a path. -/
def enter (disk : Disk) (location : Location) (piece : String) : Except Failure Location :=
  match disk.find? location with
  | none => .error .notFound
  | some (.file _) => .error .notADirectory
  | some .directory =>
    if Path.isTrivial piece then .ok location
    else if piece = ".." then .ok location.dropLast
    else if nameLimit < piece.utf8ByteSize then .error .nameTooLong
    else .ok (location ++ [piece])

/-- The location where pieces of a path lead. -/
def follow (disk : Disk) (isAbsolute : Bool) (pieces : List String) : Except Failure Location :=
  pieces.foldlM disk.enter (if isAbsolute then [] else disk.current)

/-- The location of a path, at which there may be nothing. -/
def locate (disk : Disk) (path : Path) : Except Failure Location := do
  checkPath path
  disk.follow path.isAbsolute path.pieces

/-! ### Operations -/

def readBytes (disk : Disk) (path : Path) : Except Failure ByteArray := do
  match disk.find? (← disk.locate path) with
  | some (.file bytes) => return bytes
  | some .directory => throw .isADirectory
  | none => throw .notFound

def isFile (disk : Disk) (path : Path) : Bool :=
  match disk.locate path with
  | .ok location =>
    match disk.find? location with
    | some (.file _) => true
    | _ => false
  | .error _ => false

def isDirectory (disk : Disk) (path : Path) : Bool :=
  match disk.locate path with
  | .ok location =>
    match disk.find? location with
    | some .directory => true
    | _ => false
  | .error _ => false

def entryNames (disk : Disk) (path : Path) : Except Failure (List String) := do
  let location ← disk.locate path
  match disk.find? location with
  | some .directory =>
    return disk.entries.filterMap fun (other, _) =>
      if other.dropLast = location then other.getLast? else none
  | some (.file _) => throw .notADirectory
  | none => throw .notFound

/-- Makes a directory; slashes after its name count for nothing. -/
def makeDirectory (disk : Disk) (path : Path) : Except Failure Disk := do
  checkPath path
  let pieces := (path.pieces.reverse.dropWhile (·.isEmpty)).reverse
  let location ← disk.follow path.isAbsolute pieces
  match disk.find? location with
  | some _ => throw .alreadyExists
  | none =>
    -- The directory around it must be there.
    let _ ← disk.enter location.dropLast "."
    return disk.put location .directory

def writeText (disk : Disk) (path : Path) (text : String) : Except Failure Disk := do
  let location ← disk.locate path
  match disk.find? location with
  | some .directory => throw .isADirectory
  | _ => return disk.put location (.file text.toUTF8)

/-- A change that leaves the disk as it was when it fails. -/
def attempt (change : Disk → Except Failure Disk) : StateM Disk (Except Failure Unit) := do
  match change (← get) with
  | .ok disk =>
    set disk
    return .ok ()
  | .error failure => return .error failure

instance : FileSystem (StateM Disk) where
  currentDirectory := do return some ⟨"/" ++ "/".intercalate (← get).current⟩
  readBytes path := do return (← get).readBytes path
  isFile path := do return (← get).isFile path
  isDirectory path := do return (← get).isDirectory path
  entryNames path := do return (← get).entryNames path
  makeDirectory path := attempt fun disk => disk.makeDirectory path
  writeText path text := attempt fun disk => disk.writeText path text
  clock := return 0

/-! ### Contents -/

/-- Puts an entry at a path below the current directory, and directories around it where there is
nothing. -/
def install (disk : Disk) (path : Path) (entry : Entry) : Disk :=
  let names := path.pieces.filter fun piece => !Path.isTrivial piece
  let location := disk.current ++ names
  let disk := (List.range names.length).foldl (fun disk count =>
    let around := disk.current ++ names.take count
    if (disk.find? around).isSome then disk else disk.put around .directory) disk
  disk.put location entry

/-- The files below the current directory that have an extension, with their paths from there in
increasing order. -/
def filesWithExtension (disk : Disk) (extension : String) : List (Path × ByteArray) :=
  let found := disk.entries.filterMap fun (location, entry) =>
    match entry with
    | .directory => none
    | .file bytes =>
      let path : Path := .ofPieces (location.drop disk.current.length)
      if disk.current.isPrefixOf location ∧ path.extension? = some extension then
        some (path, bytes)
      else none
  found.mergeSort fun (a, _) (b, _) => !decide (b.text < a.text)

end Disk

end TreeScript.Files
