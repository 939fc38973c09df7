/-
This file says what the program asks of a file system: whether a path is a file
or a directory, what is in it, and to write files and make directories. Whatever
can go wrong is one of a few failures with fixed messages. Text files are files
whose bytes are UTF-8, and a directory can be made together with the directories
around it.
-/

import TreeScript.Path

namespace TreeScript.Files

/-- Why a file system refuses something. -/
inductive Failure where
  | notFound
  | permissionDenied
  | notADirectory
  | isADirectory
  | alreadyExists
  | nameTooLong
  | nulInName
  | notText
  | other (message : String)
deriving DecidableEq, Repr

def Failure.message : Failure → String
  | notFound => "No such file or directory (os error 2)"
  | permissionDenied => "Permission denied (os error 13)"
  | notADirectory => "Not a directory (os error 20)"
  | isADirectory => "Is a directory (os error 21)"
  | alreadyExists => "File exists (os error 17)"
  | nameTooLong => "File name too long (os error 36)"
  | nulInName => "file name contained an unexpected NUL byte"
  | notText => "stream did not contain valid UTF-8"
  | other message => message

/-- The greatest number of bytes of a path. -/
def pathLimit : Nat := 4095

/-- Refuses paths that lead nowhere whatever files there are. -/
def checkPath (path : Path) : Except Failure Unit :=
  if path.text.toList.contains '\x00' then .error .nulInName
  else if path.text.isEmpty then .error .notFound
  else if pathLimit < path.text.utf8ByteSize then .error .nameTooLong
  else .ok ()

/-- A file system that a computation works on. -/
class FileSystem (m : Type → Type) where
  currentDirectory : m (Option Path)
  readBytes : Path → m (Except Failure ByteArray)
  isFile : Path → m Bool
  isDirectory : Path → m Bool
  /-- The names of the entries of a directory, in any order. -/
  entryNames : Path → m (Except Failure (List String))
  makeDirectory : Path → m (Except Failure Unit)
  /-- Writes a text in place of the file that is there. -/
  writeText : Path → String → m (Except Failure Unit)
  /-- A clock that never goes back, in nanoseconds. -/
  clock : m Nat

open FileSystem

variable {m : Type → Type} [Monad m] [FileSystem m]

def textOfBytes (bytes : ByteArray) : Except Failure String :=
  match String.fromUTF8? bytes with
  | some text => .ok text
  | none => .error .notText

def readText (path : Path) : m (Except Failure String) := do
  return (← readBytes path) >>= textOfBytes

/-- Makes a directory, with those around it that are missing, unless it is there. A directory is
tried before the one around it; `levels` bounds how far this goes out. -/
def makeDirectoriesFrom : Nat → Path → m (Except Failure Unit)
  | 0, _ => return .ok ()
  | levels + 1, path =>
    match path.parent? with
    | none => return .ok ()
    | some parent => do
      match ← makeDirectory path with
      | .ok () => return .ok ()
      | .error .notFound =>
        match ← makeDirectoriesFrom levels parent with
        | .error failure => return .error failure
        | .ok () => settle path (← makeDirectory path)
      | .error failure => settle path (.error failure)
where
  /-- A failure to make what is a directory already counts for nothing. -/
  settle (path : Path) (result : Except Failure Unit) : m (Except Failure Unit) := do
    match result with
    | .error .alreadyExists =>
      if ← isDirectory path then return .ok () else return .error .alreadyExists
    | result => return result

def makeDirectories (path : Path) : m (Except Failure Unit) :=
  makeDirectoriesFrom (path.text.length + 1) path

end TreeScript.Files
