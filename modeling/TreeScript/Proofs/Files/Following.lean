/-
This file follows paths on a disk. A path that leads to a file ends in the name of
that file, and what stands before the name leads to the directory around it. For
this the disk has to be well formed: around everything on it there is a directory,
so that going up never leads to a file.
-/

import TreeScript.Files.Disk
import TreeScript.Proofs.Except
import TreeScript.Proofs.Path.Pieces

namespace TreeScript.Files.Disk

open TreeScript.Path

variable {disk : Disk} {location next : Location} {piece name : String}

/-! ### One piece -/

theorem find?_of_enter (led : disk.enter location piece = .ok next) :
    disk.find? location = some .directory := by
  rw [enter] at led
  split at led
  · cases led
  · cases led
  · assumption

/-- In a directory, a piece leads nowhere, up, or to a name. -/
theorem enter_of_directory (there : disk.find? location = some .directory) (piece : String) :
    disk.enter location piece =
      if isTrivial piece then .ok location
      else if piece = ".." then .ok location.dropLast
      else if nameLimit < piece.utf8ByteSize then .error .nameTooLong
      else .ok (location ++ [piece]) := by
  rw [enter, there]

theorem eq_of_enter_isName (isName : IsName name) (led : disk.enter location name = .ok next) :
    next = location ++ [name] := by
  rw [enter_of_directory (find?_of_enter led), isName.counts, if_neg Bool.false_ne_true,
    if_neg isName.notUp] at led
  split at led
  · cases led
  · exact (Except.ok.inj led).symm

theorem eq_of_enter_up (led : disk.enter location ".." = .ok next) : next = location.dropLast := by
  rw [enter_of_directory (find?_of_enter led)] at led
  exact (Except.ok.inj led).symm

/-! ### Whole paths -/

theorem follow_concat (disk : Disk) (isAbsolute : Bool) (around : List String) (name : String) :
    disk.follow isAbsolute (around ++ [name]) =
      disk.follow isAbsolute around >>= fun directory => disk.enter directory name := by
  rw [follow, List.foldlM_append]
  simp only [List.foldlM_cons, List.foldlM_nil, bind_pure]
  rfl

/-- Pieces that count for nothing stay in a directory. -/
theorem follow_append_trivial {isAbsolute : Bool} {pieces ends : List String}
    (led : disk.follow isAbsolute pieces = .ok location)
    (there : disk.find? location = some .directory)
    (trivial : ∀ piece ∈ ends, isTrivial piece = true) :
    disk.follow isAbsolute (pieces ++ ends) = .ok location := by
  induction ends using List.reverseRecOn with
  | nil => rwa [List.append_nil]
  | append_singleton ends piece inductionHypothesis =>
    have earlier := inductionHypothesis fun other member =>
      trivial other (List.mem_append_left _ member)
    rw [← List.append_assoc, follow_concat, earlier]
    change disk.enter location piece = _
    rw [enter_of_directory there, if_pos (trivial piece (by simp))]

/-- A path leads where its last piece leads from where the others lead. -/
theorem exists_of_locate {path : Path} {around : List String}
    (pieces : path.pieces = around ++ [name]) (led : disk.locate path = .ok location) :
    ∃ directory, disk.follow path.isAbsolute around = .ok directory ∧
      disk.enter directory name = .ok location := by
  obtain ⟨-, -, followed⟩ := exists_of_bind_eq_ok led
  rw [pieces, follow_concat] at followed
  exact exists_of_bind_eq_ok followed

/-- A name is found in the directory to which it is added. -/
theorem exists_of_locate_join {path : Path} (noSlash : '/' ∉ name.toList)
    (led : disk.locate (path.join name) = .ok location) :
    ∃ directory, disk.follow path.isAbsolute path.pieces = .ok directory ∧
      disk.enter directory name = .ok location := by
  obtain ⟨around, joined, known⟩ := pieces_join path noSlash
  obtain ⟨directory, followed, entered⟩ := exists_of_locate joined led
  rw [isAbsolute_join path noSlash] at followed
  refine ⟨directory, ?_, entered⟩
  rcases known with ⟨same, -⟩ | more
  · rwa [same]
  · rw [more, follow_concat, followed]
    exact enter_of_directory (find?_of_enter entered) ""

/-! ### Well-formed disks -/

def hasDirectory (disk : Disk) (location : Location) : Bool :=
  match disk.find? location with
  | some .directory => true
  | _ => false

theorem find?_of_hasDirectory (there : disk.hasDirectory location = true) :
    disk.find? location = some .directory := by
  rw [hasDirectory] at there
  split at there
  · assumption
  · cases there

/-- Around everything there is a directory. -/
def WellFormed (disk : Disk) : Prop :=
  ∀ pair ∈ disk.entries, disk.hasDirectory pair.1.dropLast = true

instance (disk : Disk) : Decidable disk.WellFormed :=
  List.decidableBAll _ disk.entries

theorem WellFormed.find?_dropLast (wellFormed : disk.WellFormed) {entry : Entry}
    (there : disk.find? location = some entry) :
    disk.find? location.dropLast = some .directory := by
  rw [find?] at there
  split at there
  next root =>
    rw [List.isEmpty_iff.mp root]
    rfl
  next =>
    obtain ⟨front, back, split, -⟩ := List.lookup_eq_some_iff.mp there
    exact find?_of_hasDirectory (wellFormed (location, entry) (by simp [split]))

/-- A path to a file ends in its name. -/
theorem WellFormed.exists_name (wellFormed : disk.WellFormed) {path : Path} {bytes : ByteArray}
    (led : disk.locate path = .ok location) (file : disk.find? location = some (.file bytes)) :
    ∃ around name directory, path.pieces = around ++ [name] ∧ IsName name ∧
      location = directory ++ [name] ∧ disk.find? directory = some .directory := by
  have apart {other : Location} (there : disk.find? other = some .directory) :
      location ≠ other := by
    rintro rfl
    rw [file] at there
    cases there
  obtain ⟨around, name, pieces⟩ : ∃ around name, path.pieces = around ++ [name] :=
    ⟨_, _, (List.dropLast_concat_getLast (pieces_ne_nil path)).symm⟩
  obtain ⟨directory, -, entered⟩ := exists_of_locate pieces led
  have there := find?_of_enter entered
  have isName : IsName name := by
    constructor
    · cases trivial : isTrivial name with
      | false => rfl
      | true =>
        rw [enter_of_directory there, if_pos trivial] at entered
        exact absurd (Except.ok.inj entered).symm (apart there)
    · rintro rfl
      exact apart (wellFormed.find?_dropLast there) (eq_of_enter_up entered)
  exact ⟨around, name, directory, pieces, isName, eq_of_enter_isName isName entered, there⟩

end TreeScript.Files.Disk
