/-
This file is the program: it runs the command line on the files of the machine,
prints what the run says, and ends with its exit code.
-/

import TreeScript.Command.Run

namespace TreeScript

open Files

/-- The failure behind the code of a refused request; some requests give the code negated. -/
def failureOfCode (code : UInt32) (message : String) : Failure :=
  let number := code.toNat
  let number := if Nat.pow 2 31 ≤ number then Nat.pow 2 32 - number else number
  if number = 2 then .notFound
  else if number = 13 then .permissionDenied
  else if number = 17 then .alreadyExists
  else if number = 20 then .notADirectory
  else if number = 21 then .isADirectory
  else if number = 36 then .nameTooLong
  else .other message

def failureOfError (error : IO.Error) : Failure :=
  match error with
  | .noFileOrDirectory _ code _ | .alreadyExists _ code _ | .inappropriateType _ code _
  | .invalidArgument _ code _ | .permissionDenied _ code _ =>
    failureOfCode code (toString error)
  | _ => .other (toString error)

/-- Asks the machine for something at a path. -/
def request {α : Type} (path : Path) (action : IO α) : IO (Except Failure α) := do
  match checkPath path with
  | .error failure => return .error failure
  | .ok () =>
    match ← action.toBaseIO with
    | .ok value => return .ok value
    | .error error => return .error (failureOfError error)

/-- Whether something of a type is at a path. -/
def hasType (path : Path) (type : IO.FS.FileType) : IO Bool := do
  let place := (← IO.currentDir) / path.text
  match ← request path place.metadata with
  | .ok metadata => return metadata.type == type
  | .error _ => return false

instance : FileSystem IO where
  currentDirectory := do
    match ← IO.currentDir.toBaseIO with
    | .ok directory => return some ⟨directory.toString⟩
    | .error _ => return none
  readBytes path := request path (IO.FS.readBinFile path.text)
  isFile path := hasType path .file
  isDirectory path := hasType path .dir
  entryNames path := request path do
    let place := (← IO.currentDir) / path.text
    return (← place.readDir).toList.map (·.fileName)
  makeDirectory path := request path (IO.FS.createDir path.text)
  writeText path text := request path (IO.FS.writeFile path.text text)
  clock := IO.monoNanosNow

end TreeScript

def main (arguments : List String) : IO UInt32 := do
  let outcome : TreeScript.Command.Outcome ← TreeScript.Command.run arguments
  IO.eprint outcome.errorOutput
  IO.print outcome.output
  return outcome.exitCode.toUInt32
