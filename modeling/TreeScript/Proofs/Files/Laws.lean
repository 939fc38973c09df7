/-
This file says what is relied on of a file system. A path leads to a place, or
nowhere, and at a place there is a file, a directory or nothing. Two paths may
lead to one place. Questions change nothing. A text that is written is then at the
place of its path, never in place of a directory, and nothing is different anywhere
else; a write that fails changes nothing. A directory is only made where there is
nothing, its path then leads to it, and paths that led somewhere still lead there.
When and why something fails is left open.

When a directory is made together with those around it, a new directory is only made
where the path or one of those around it leads, and no other path is tried.

The disk keeps these laws. Only directories decide where a path leads, and writing
never makes or removes one, so places stay where they are while files are written.

A run can be recorded: next to what it does to the file system, it then lists what
it reads and changes. The record does not change what the run does.
-/

import TreeScript.Proofs.Files.Following

namespace TreeScript

/-- A path is another one or lies inside it, as the paths are written. -/
inductive Path.LiesIn (path : Path) : Path → Prop where
  | self : LiesIn path path
  | outward {directory parent : Path} (inside : LiesIn path directory)
      (around : directory.parent? = some parent) : LiesIn path parent

namespace Files

open FileSystem

/-! ### Laws -/

class LawfulFileSystem (σ : Type) [FileSystem (StateM σ)] where
  Place : Type
  /-- Where a path leads; there may be nothing. -/
  place? : σ → Path → Option Place
  entry? : σ → Place → Option Entry
  run_readBytes (path : Path) (state : σ) : ((readBytes path : StateM σ _).run state).2 = state
  run_isDirectory (path : Path) (state : σ) : ((isDirectory path : StateM σ _).run state).2 = state
  run_clock (state : σ) : ((clock : StateM σ _).run state).2 = state
  isDirectory_iff {path : Path} {state : σ} :
    ((isDirectory path : StateM σ _).run state).1 = true ↔
      ∃ place, place? state path = some place ∧ entry? state place = some .directory
  place?_writeText (path : Path) (text : String) (state : σ) :
    place? ((writeText path text : StateM σ _).run state).2 = place? state
  writeText_ok {path : Path} {text : String} {before after : σ}
    (written : (writeText path text : StateM σ _).run before = (.ok (), after)) :
    ∃ place, place? before path = some place ∧ entry? before place ≠ some .directory ∧
      entry? after place = some (.file text.toUTF8) ∧
      ∀ other, other ≠ place → entry? after other = entry? before other
  writeText_error {path : Path} {text : String} {failure : Failure} {before after : σ}
    (refused : (writeText path text : StateM σ _).run before = (.error failure, after)) :
    entry? after = entry? before
  place?_makeDirectory {other : Path} {place : Place} {state : σ} (path : Path)
    (leads : place? state other = some place) :
    place? ((makeDirectory path : StateM σ _).run state).2 other = some place
  makeDirectory_ok {path : Path} {before after : σ}
    (made : (makeDirectory path : StateM σ _).run before = (.ok (), after)) :
    ∃ place, place? after path = some place ∧ entry? before place = none ∧
      entry? after place = some .directory ∧
      ∀ other, other ≠ place → entry? after other = entry? before other
  makeDirectory_error {path : Path} {failure : Failure} {before after : σ}
    (refused : (makeDirectory path : StateM σ _).run before = (.error failure, after)) :
    entry? after = entry? before

open LawfulFileSystem

theorem run_bind_of_run {σ α β : Type} {first : StateM σ α} {next : α → StateM σ β} {result : α}
    {before between : σ} (ran : first.run before = (result, between)) :
    (first >>= next).run before = (next result).run between := by
  show (next (first.run before).1).run (first.run before).2 = _
  rw [ran]

section Laws

variable {σ : Type} [FileSystem (StateM σ)] [LawfulFileSystem σ]

theorem run_readText (path : Path) (state : σ) :
    ((readText path : StateM σ _).run state).2 = state :=
  run_readBytes path state

variable {allowed : Path → Prop}

/-- From one state to another, directories were made where there was nothing, each at the end of an
allowed path, and nothing else happened. -/
structure Grows (allowed : Path → Prop) (before after : σ) : Prop where
  places : ∀ {path place}, place? before path = some place → place? after path = some place
  entries : ∀ place, entry? after place = entry? before place ∨
    entry? before place = none ∧ entry? after place = some .directory ∧
      ∃ path, allowed path ∧ place? after path = some place

theorem Grows.refl (state : σ) : Grows allowed state state :=
  ⟨id, fun _ => .inl rfl⟩

theorem Grows.trans {before between after : σ} (start : Grows allowed before between)
    (rest : Grows allowed between after) : Grows allowed before after := by
  refine ⟨rest.places ∘ start.places, fun place => ?_⟩
  rcases start.entries place with same | ⟨nothing, made, path, isAllowed, leads⟩
  · rw [← same]
    exact rest.entries place
  · refine .inr ⟨nothing, ?_, path, isAllowed, rest.places leads⟩
    rcases rest.entries place with same | ⟨stillNothing, -⟩
    · rw [same, made]
    · rw [made] at stillNothing
      cases stillNothing

/-- What is there stays as it is. -/
theorem Grows.entry?_eq {before after : σ} (grows : Grows allowed before after) {place : Place σ}
    {entry : Entry} (there : entry? before place = some entry) :
    entry? after place = some entry := by
  rcases grows.entries place with same | ⟨nothing, -⟩
  · rw [same, there]
  · rw [there] at nothing
    cases nothing

/-- A run that makes directories at allowed paths and does nothing else. -/
def Growing {α : Type} (allowed : Path → Prop) (act : StateM σ α) : Prop :=
  ∀ before, Grows allowed before (act.run before).2

namespace Growing

variable {α β : Type}

theorem pure (result : α) : Growing allowed (pure result : StateM σ α) :=
  fun before => .refl before

theorem bind {first : StateM σ α} {rest : α → StateM σ β} (start : Growing allowed first)
    (more : ∀ result, Growing allowed (rest result)) : Growing allowed (first >>= rest) :=
  fun before => (start before).trans (more _ _)

theorem isDirectory (path : Path) : Growing allowed (isDirectory path : StateM σ Bool) := by
  intro before
  rw [run_isDirectory]
  exact .refl before

theorem makeDirectory {path : Path} (isAllowed : allowed path) :
    Growing allowed (makeDirectory path : StateM σ (Except Failure Unit)) := by
  intro before
  refine ⟨place?_makeDirectory path, ?_⟩
  cases ran : (FileSystem.makeDirectory path : StateM σ _).run before with
  | mk answer after =>
    cases answer with
    | error failure => exact fun place => .inl (congrFun (makeDirectory_error ran) place)
    | ok =>
      obtain ⟨place, leads, nothing, made, others⟩ := makeDirectory_ok ran
      intro other
      by_cases same : other = place
      · subst same
        exact .inr ⟨nothing, made, path, isAllowed, leads⟩
      · exact .inl (others other same)

theorem settle (path : Path) (answer : Except Failure Unit) :
    Growing allowed (makeDirectoriesFrom.settle path answer : StateM σ (Except Failure Unit)) := by
  unfold makeDirectoriesFrom.settle
  split
  · refine (isDirectory path).bind fun there => ?_
    split
    · exact pure _
    · exact pure _
  · exact pure _

/-- Making directories makes directories only, even where it fails in the end. -/
theorem makeDirectoriesFrom {directory : Path} (levels : Nat) {path : Path}
    (around : directory.LiesIn path) :
    Growing directory.LiesIn
      (makeDirectoriesFrom levels path : StateM σ (Except Failure Unit)) := by
  induction levels generalizing path with
  | zero => exact pure _
  | succ levels inductionHypothesis =>
    rw [Files.makeDirectoriesFrom]
    split
    · exact pure _
    next parent found =>
      refine (makeDirectory around).bind fun answer => ?_
      split
      · exact pure _
      · refine (inductionHypothesis (around.outward found)).bind fun outer => ?_
        split
        · exact pure _
        · exact (makeDirectory around).bind fun again => settle path again
      · exact settle path _

end Growing

/-- A path leads to a directory. -/
def HasDirectory (state : σ) (path : Path) : Prop :=
  ∃ place, place? state path = some place ∧ entry? state place = some .directory

theorem hasDirectory_of_makeDirectory {path : Path} {before after : σ}
    (made : (makeDirectory path : StateM σ _).run before = (.ok (), after)) :
    HasDirectory after path := by
  obtain ⟨place, leads, -, there, -⟩ := makeDirectory_ok made
  exact ⟨place, leads, there⟩

/-- Nothing is settled that was not made, unless it is a directory already. -/
theorem of_run_settle {path : Path} {answer settled : Except Failure Unit} {before after : σ}
    (ran : (makeDirectoriesFrom.settle path answer : StateM σ _).run before = (settled, after)) :
    after = before ∧ (settled = answer ∨ settled = .ok () ∧ HasDirectory before path) := by
  unfold makeDirectoriesFrom.settle at ran
  split at ran
  · have asked : (isDirectory path : StateM σ Bool).run before =
        (((isDirectory path : StateM σ Bool).run before).1, before) :=
      Prod.ext rfl (run_isDirectory path before)
    rw [run_bind_of_run asked] at ran
    split at ran
    next there =>
      cases ran
      exact ⟨rfl, .inr ⟨rfl, isDirectory_iff.mp there⟩⟩
    next =>
      cases ran
      exact ⟨rfl, .inl rfl⟩
  · cases ran
    exact ⟨rfl, .inl rfl⟩

/-- Making a directory with those around it ends with a refusal further out, or with a last try
that counts unless the directory is there already. -/
theorem exists_of_run_makeDirectoriesFrom {directory : Path} {levels : Nat} {path parent : Path}
    {answer : Except Failure Unit} {before after : σ} (around : directory.LiesIn path)
    (found : path.parent? = some parent)
    (ran : (makeDirectoriesFrom (levels + 1) path : StateM σ _).run before = (answer, after)) :
    ∃ state, Grows directory.LiesIn before state ∧
      ((∃ failure, answer = .error failure ∧
          (makeDirectoriesFrom levels parent : StateM σ _).run state = (.error failure, after)) ∨
        ∃ last, (makeDirectory path : StateM σ _).run state = (last, after) ∧
          (answer = last ∨ answer = .ok () ∧ HasDirectory after path)) := by
  rw [makeDirectoriesFrom, found] at ran
  have grows := Growing.makeDirectory around before
  cases tried : (makeDirectory path : StateM σ _).run before with
  | mk first between =>
    simp only [run_bind_of_run tried] at ran
    rw [tried] at grows
    split at ran
    next =>
      cases ran
      exact ⟨before, .refl before, .inr ⟨_, tried, .inl rfl⟩⟩
    next =>
      have growsOn := Growing.makeDirectoriesFrom levels (around.outward found) between
      cases ranOn : (makeDirectoriesFrom levels parent : StateM σ _).run between with
      | mk outer outside =>
        rw [ranOn] at growsOn
        rw [run_bind_of_run ranOn] at ran
        cases outer with
        | error failure =>
          cases ran
          exact ⟨between, grows, .inl ⟨failure, rfl, ranOn⟩⟩
        | ok =>
          obtain ⟨rfl, settled⟩ := of_run_settle ran
          exact ⟨outside, grows.trans growsOn, .inr ⟨_, rfl, settled⟩⟩
    next =>
      obtain ⟨rfl, settled⟩ := of_run_settle ran
      exact ⟨before, .refl before, .inr ⟨_, tried, settled⟩⟩

/-- A directory that was made, or was there, is there in the end. -/
theorem hasDirectory_of_makeDirectories {path : Path} {before after : σ}
    (inside : path.parent? ≠ none)
    (made : (makeDirectories path : StateM σ _).run before = (.ok (), after)) :
    HasDirectory after path := by
  obtain ⟨parent, found⟩ := Option.ne_none_iff_exists'.mp inside
  obtain ⟨state, -, ⟨_, ⟨⟩, -⟩ | ⟨last, tried, rfl | ⟨-, there⟩⟩⟩ :=
    exists_of_run_makeDirectoriesFrom .self found made
  · exact hasDirectory_of_makeDirectory tried
  · exact there

/-- What could not be made is what the file system refused to make. -/
theorem exists_of_makeDirectoriesFrom {directory : Path} {levels : Nat} {path : Path}
    {failure : Failure} {before after : σ} (around : directory.LiesIn path)
    (refused : (makeDirectoriesFrom levels path : StateM σ _).run before =
      (.error failure, after)) :
    ∃ outer state, directory.LiesIn outer ∧ Grows directory.LiesIn before state ∧
      ((makeDirectory outer : StateM σ _).run state).1 = .error failure := by
  induction levels generalizing path before with
  | zero => cases refused
  | succ levels inductionHypothesis =>
    cases found : path.parent? with
    | none =>
      rw [makeDirectoriesFrom, found] at refused
      cases refused
    | some parent =>
      obtain ⟨state, grows, ⟨_, ⟨⟩, further⟩ | ⟨last, tried, rfl | ⟨⟨⟩, -⟩⟩⟩ :=
        exists_of_run_makeDirectoriesFrom around found refused
      · obtain ⟨outer, later, inside, grown, failed⟩ :=
          inductionHypothesis (around.outward found) further
        exact ⟨outer, later, inside, grows.trans grown, failed⟩
      · exact ⟨path, state, around, grows, by rw [tried]⟩

end Laws

/-! ### The disk -/

namespace Disk

variable {disk : Disk} {location : Location} {bytes : ByteArray}

/-- A file in place of no directory changes no step along a path. -/
theorem toOption_enter_put (noDirectory : disk.find? location ≠ some .directory)
    (start : Location) (piece : String) :
    ((disk.put location (.file bytes)).enter start piece).toOption =
      (disk.enter start piece).toOption := by
  have inside : location ≠ [] := by
    rintro rfl
    exact noDirectory rfl
  by_cases same : start = location
  · subst same
    rw [enter, enter, find?_put_self disk inside]
    cases there : disk.find? start with
    | none => rfl
    | some entry =>
      cases entry with
      | directory => exact absurd there noDirectory
      | file => rfl
  · rw [enter, enter, find?_put_of_ne disk same]

/-- So paths lead where they led before. -/
theorem toOption_locate_put (noDirectory : disk.find? location ≠ some .directory) (path : Path) :
    ((disk.put location (.file bytes)).locate path).toOption = (disk.locate path).toOption := by
  have followed (pieces : List String) (start : Location) :
      (pieces.foldlM (disk.put location (.file bytes)).enter start).toOption =
        (pieces.foldlM disk.enter start).toOption := by
    induction pieces generalizing start with
    | nil => rfl
    | cons piece pieces inductionHypothesis =>
      rw [List.foldlM_cons, List.foldlM_cons, toOption_bind, toOption_bind,
        toOption_enter_put noDirectory]
      simp only [inductionHypothesis]
  rw [locate, locate, toOption_bind, toOption_bind]
  simp only [follow, followed]
  rfl

/-- A directory in place of nothing is in the way of no path. -/
theorem follow_put_directory (nothing : disk.find? location = none) {isAbsolute : Bool}
    {pieces : List String} {place : Location} (led : disk.follow isAbsolute pieces = .ok place) :
    (disk.put location .directory).follow isAbsolute pieces = .ok place := by
  have entered {start next : Location} {piece : String} (led : disk.enter start piece = .ok next) :
      (disk.put location .directory).enter start piece = .ok next := by
    have different : start ≠ location := by
      rintro rfl
      rw [enter, nothing] at led
      cases led
    rwa [enter, find?_put_of_ne disk different]
  have followed (pieces : List String) {start : Location}
      (led : pieces.foldlM disk.enter start = .ok place) :
      pieces.foldlM (disk.put location .directory).enter start = .ok place := by
    induction pieces generalizing start with
    | nil => exact led
    | cons piece pieces inductionHypothesis =>
      rw [List.foldlM_cons] at led ⊢
      obtain ⟨next, first, rest⟩ := exists_of_bind_eq_ok led
      rw [entered first]
      exact inductionHypothesis rest
  exact followed pieces led

theorem locate_put_directory (nothing : disk.find? location = none) {path : Path}
    {place : Location} (leads : disk.locate path = .ok place) :
    (disk.put location .directory).locate path = .ok place := by
  obtain ⟨_, checked, led⟩ := exists_of_bind_eq_ok leads
  rw [locate, checked]
  exact follow_put_directory nothing led

/-- A write puts a file where the path leads, but not in place of a directory. -/
theorem exists_of_writeText {path : Path} {text : String} {after : Disk}
    (written : disk.writeText path text = .ok after) :
    ∃ location, disk.locate path = .ok location ∧ disk.find? location ≠ some .directory ∧
      after = disk.put location (.file text.toUTF8) := by
  obtain ⟨location, located, rest⟩ := exists_of_bind_eq_ok written
  refine ⟨location, located, ?_⟩
  split at rest
  · cases rest
  · cases rest
    exact ⟨‹_›, rfl⟩

/-- A directory is made where there was nothing, and its path leads to it. -/
theorem exists_of_makeDirectory {path : Path} {after : Disk}
    (made : disk.makeDirectory path = .ok after) :
    ∃ location, location ≠ [] ∧ disk.find? location = none ∧
      after = disk.put location .directory ∧ after.locate path = .ok location := by
  obtain ⟨_, checked, rest⟩ := exists_of_bind_eq_ok made
  obtain ⟨location, followed, rest⟩ := exists_of_bind_eq_ok rest
  split at rest
  · cases rest
  next nothing =>
    obtain ⟨-, -, rest⟩ := exists_of_bind_eq_ok rest
    cases rest
    have inside : location ≠ [] := by
      rintro rfl
      cases nothing
    refine ⟨location, inside, nothing, rfl, ?_⟩
    -- The empty pieces at the end stay in the new directory.
    have ends : ∀ piece ∈ path.pieces.rtakeWhile (·.isEmpty), Path.isTrivial piece = true :=
      fun piece member => by
        simp [Path.isTrivial, String.isEmpty_iff.mp (List.mem_rtakeWhile_imp member)]
    rw [locate, checked, ← List.rdropWhile_append_rtakeWhile (p := String.isEmpty)
      (l := path.pieces)]
    exact follow_append_trivial (follow_put_directory nothing followed)
      (find?_put_self disk inside _) ends

theorem run_attempt_ok {change : Disk → Except Failure Disk} {before after : Disk}
    (changed : change before = .ok after) : (attempt change).run before = (.ok (), after) := by
  simp only [attempt, StateT.run_bind, StateT.run_get, pure_bind, changed]
  rfl

theorem run_attempt_error {change : Disk → Except Failure Disk} {before : Disk} {failure : Failure}
    (refused : change before = .error failure) :
    (attempt change).run before = (.error failure, before) := by
  simp only [attempt, StateT.run_bind, StateT.run_get, pure_bind, refused]
  rfl

/-- An attempt that succeeds has made its change. -/
theorem eq_ok_of_run_attempt {change : Disk → Except Failure Disk} {before after : Disk}
    (ran : (attempt change).run before = (.ok (), after)) : change before = .ok after := by
  cases changed : change before with
  | error failure =>
    rw [run_attempt_error changed] at ran
    cases ran
  | ok changed' =>
    rw [run_attempt_ok changed] at ran
    cases ran
    rfl

/-- An attempt that fails has changed nothing. -/
theorem eq_of_run_attempt {change : Disk → Except Failure Disk} {before after : Disk}
    {failure : Failure} (ran : (attempt change).run before = (.error failure, after)) :
    after = before := by
  cases changed : change before with
  | error other =>
    rw [run_attempt_error changed] at ran
    cases ran
    rfl
  | ok changed' =>
    rw [run_attempt_ok changed] at ran
    cases ran

instance : LawfulFileSystem Disk where
  Place := Location
  place? disk path := (disk.locate path).toOption
  entry? := find?
  run_readBytes _ _ := rfl
  run_isDirectory _ _ := rfl
  run_clock _ := rfl
  isDirectory_iff {path disk} := by
    change disk.isDirectory path = true ↔ _
    rw [isDirectory]
    cases disk.locate path with
    | error => simp [Except.toOption]
    | ok location =>
      cases there : disk.find? location with
      | none => simp [Except.toOption, there]
      | some entry => cases entry <;> simp [Except.toOption, there]
  place?_writeText path text disk := by
    cases ran : (FileSystem.writeText path text : StateM Disk _).run disk with
    | mk answer after =>
      cases answer with
      | error failure => rw [eq_of_run_attempt ran]
      | ok =>
        obtain ⟨location, -, noDirectory, rfl⟩ := exists_of_writeText (eq_ok_of_run_attempt ran)
        exact funext (toOption_locate_put noDirectory)
  writeText_ok {path text before after} written := by
    obtain ⟨location, located, noDirectory, rfl⟩ :=
      exists_of_writeText (eq_ok_of_run_attempt written)
    have inside : location ≠ [] := by
      rintro rfl
      exact noDirectory rfl
    exact ⟨location, by rw [located]; rfl, noDirectory, find?_put_self before inside _,
      fun other different => find?_put_of_ne before different _⟩
  writeText_error refused := by rw [eq_of_run_attempt refused]
  place?_makeDirectory {other place disk} path leads := by
    cases ran : (FileSystem.makeDirectory path : StateM Disk _).run disk with
    | mk answer after =>
      cases answer with
      | error failure => rwa [eq_of_run_attempt ran]
      | ok =>
        obtain ⟨location, -, nothing, rfl, -⟩ :=
          exists_of_makeDirectory (eq_ok_of_run_attempt ran)
        cases led : disk.locate other with
        | error failure =>
          rw [led] at leads
          cases leads
        | ok found =>
          rw [led] at leads
          rw [locate_put_directory nothing led]
          exact leads
  makeDirectory_ok {path before after} made := by
    obtain ⟨location, inside, nothing, rfl, leads⟩ :=
      exists_of_makeDirectory (eq_ok_of_run_attempt made)
    exact ⟨location, by rw [leads]; rfl, nothing, find?_put_self before inside _,
      fun other different => find?_put_of_ne before different _⟩
  makeDirectory_error refused := by rw [eq_of_run_attempt refused]

end Disk

/-! ### Records -/

/-- Reading or changing a file system. -/
inductive Access where
  | read (path : Path)
  | makeDirectory (path : Path)
  | write (path : Path)
deriving DecidableEq, Repr

/-- Runs that list what they read and change. -/
abbrev Recorded (m : Type → Type) : Type → Type :=
  StateT (List Access) m

section Records

variable {m : Type → Type} [Monad m]

def noting {α : Type} (access : Access) (act : m α) : Recorded m α := fun log => do
  return (← act, log ++ [access])

instance [FileSystem m] : FileSystem (Recorded m) where
  currentDirectory := StateT.lift currentDirectory
  readBytes path := noting (.read path) (readBytes path)
  isFile path := StateT.lift (isFile path)
  isDirectory path := StateT.lift (isDirectory path)
  entryNames path := StateT.lift (entryNames path)
  makeDirectory path := noting (.makeDirectory path) (makeDirectory path)
  writeText path text := noting (.write path) (writeText path text)
  clock := StateT.lift clock

end Records

/-- A recorded run does what the plain run does, and the form of what it lists is known. -/
def Records {σ α : Type} (recorded : Recorded (StateM σ) α) (plain : StateM σ α)
    (form : List Access → Prop) : Prop :=
  ∀ log state, ∃ added, form added ∧
    (recorded.run log).run state = (((plain.run state).1, log ++ added), (plain.run state).2)

namespace Records

variable {σ α β : Type} {recorded : Recorded (StateM σ) α} {plain : StateM σ α}
  {form further : List Access → Prop}

theorem pure (result : α) :
    Records (pure result : Recorded (StateM σ) α) (pure result) (· = []) :=
  fun log _ => ⟨[], rfl, by rw [List.append_nil]; rfl⟩

theorem lift (act : StateM σ α) : Records (StateT.lift act) act (· = []) :=
  fun log _ => ⟨[], rfl, by rw [List.append_nil]; rfl⟩

theorem noting (access : Access) (act : StateM σ α) :
    Records (noting access act) act (· = [access]) :=
  fun _ _ => ⟨[access], rfl, rfl⟩

theorem mono (records : Records recorded plain form)
    (weaker : ∀ added, form added → further added) : Records recorded plain further := by
  intro log state
  obtain ⟨added, formed, ran⟩ := records log state
  exact ⟨added, weaker added formed, ran⟩

/-- What follows a recorded run starts where the plain run ends, with more in the list. -/
theorem run_bind (records : Records recorded plain form) {before between : σ} {result : α}
    (ran : plain.run before = (result, between)) (log : List Access) :
    ∃ added, form added ∧ ∀ {β : Type} (next : α → Recorded (StateM σ) β),
      ((recorded >>= next).run log).run before =
        ((next result).run (log ++ added)).run between := by
  obtain ⟨added, formed, recordedRan⟩ := records log before
  refine ⟨added, formed, fun next => ?_⟩
  show ((next ((recorded.run log).run before).1.1).run
    ((recorded.run log).run before).1.2).run ((recorded.run log).run before).2 = _
  rw [recordedRan, ran]

theorem bind {recordedNext : α → Recorded (StateM σ) β} {plainNext : α → StateM σ β}
    {whole : List Access → Prop} (start : Records recorded plain form)
    (rest : ∀ result, Records (recordedNext result) (plainNext result) further)
    (joined : ∀ added more, form added → further more → whole (added ++ more)) :
    Records (recorded >>= recordedNext) (plain >>= plainNext) whole := by
  intro log state
  obtain ⟨added, formed, ran⟩ := start.run_bind (Prod.ext rfl rfl) log
  obtain ⟨more, furtherFormed, ranOn⟩ :=
    rest (plain.run state).1 (log ++ added) (plain.run state).2
  refine ⟨added ++ more, joined added more formed furtherFormed, (ran _).trans (ranOn.trans ?_)⟩
  rw [List.append_assoc]
  rfl

theorem bindUnlisted {recordedNext : α → Recorded (StateM σ) β} {plainNext : α → StateM σ β}
    (start : Records recorded plain form)
    (rest : ∀ result, Records (recordedNext result) (plainNext result) (· = [])) :
    Records (recorded >>= recordedNext) (plain >>= plainNext) form := by
  refine start.bind rest fun added more formed none => ?_
  rwa [none, List.append_nil]

theorem map (records : Records recorded plain form) (change : α → β) :
    Records (recorded >>= fun result => Pure.pure (change result))
      (plain >>= fun result => Pure.pure (change result)) form :=
  records.bindUnlisted fun result => .pure (change result)

/-- What is listed for each item is listed for all of them in their order. -/
theorem mapM {ι : Type} {recordedStep : ι → Recorded (StateM σ) α} {plainStep : ι → StateM σ α}
    {accesses : ι → List Access}
    (each : ∀ item, Records (recordedStep item) (plainStep item) (· = accesses item))
    (items : List ι) :
    Records (items.mapM recordedStep) (items.mapM plainStep) (· = items.flatMap accesses) := by
  induction items with
  | nil => exact .pure []
  | cons item items inductionHypothesis =>
    rw [List.mapM_cons, List.mapM_cons]
    refine (each item).bind (fun first => inductionHypothesis.map (first :: ·)) ?_
    rintro added more rfl rfl
    rfl

theorem foldlM {ι : Type} {recordedStep : α → ι → Recorded (StateM σ) α}
    {plainStep : α → ι → StateM σ α} {accesses : ι → List Access}
    (each : ∀ result item,
      Records (recordedStep result item) (plainStep result item) (· = accesses item))
    (items : List ι) (first : α) :
    Records (items.foldlM recordedStep first) (items.foldlM plainStep first)
      (· = items.flatMap accesses) := by
  induction items generalizing first with
  | nil => exact .pure first
  | cons item items inductionHypothesis =>
    rw [List.foldlM_cons, List.foldlM_cons]
    refine (each first item).bind inductionHypothesis ?_
    rintro added more rfl rfl
    rfl

end Records

/-- Directories are made at allowed paths, and nothing else is listed. -/
def OnlyDirectories (allowed : Path → Prop) (log : List Access) : Prop :=
  ∀ access ∈ log, ∃ path, allowed path ∧ access = .makeDirectory path

section OnlyDirectories

variable {allowed : Path → Prop}

theorem onlyDirectories_nil : OnlyDirectories allowed [] :=
  fun _ member => absurd member List.not_mem_nil

theorem OnlyDirectories.append {log others : List Access} (early : OnlyDirectories allowed log)
    (late : OnlyDirectories allowed others) : OnlyDirectories allowed (log ++ others) :=
  fun access member => (List.mem_append.mp member).elim (early access) (late access)

namespace Records

variable {σ α β : Type}

theorem unlisted {recorded : Recorded (StateM σ) α} {plain : StateM σ α}
    (records : Records recorded plain (· = [])) :
    Records recorded plain (OnlyDirectories allowed) :=
  records.mono fun _ none => none ▸ onlyDirectories_nil

variable [FileSystem (StateM σ)]

theorem clock : Records (clock : Recorded (StateM σ) Nat) clock (· = []) :=
  lift _

theorem readText (path : Path) :
    Records (readText path : Recorded (StateM σ) _) (readText path) (· = [.read path]) :=
  (noting (.read path) (readBytes path)).map (· >>= textOfBytes)

theorem makeDirectory {path : Path} (isAllowed : allowed path) :
    Records (makeDirectory path : Recorded (StateM σ) _) (makeDirectory path)
      (OnlyDirectories allowed) := by
  refine (noting (.makeDirectory path) (FileSystem.makeDirectory path)).mono ?_
  rintro _ rfl access member
  exact ⟨path, isAllowed, List.mem_singleton.mp member⟩

theorem settle (path : Path) (answer : Except Failure Unit) :
    Records (makeDirectoriesFrom.settle path answer : Recorded (StateM σ) _)
      (makeDirectoriesFrom.settle path answer) (OnlyDirectories allowed) := by
  unfold makeDirectoriesFrom.settle
  split
  · refine (lift (isDirectory path)).unlisted.bind (fun there => ?_) fun _ _ => .append
    split
    · exact (pure _).unlisted
    · exact (pure _).unlisted
  · exact (pure _).unlisted

theorem makeDirectoriesFrom {directory : Path} (levels : Nat) {path : Path}
    (around : directory.LiesIn path) :
    Records (makeDirectoriesFrom levels path : Recorded (StateM σ) _)
      (makeDirectoriesFrom levels path) (OnlyDirectories directory.LiesIn) := by
  induction levels generalizing path with
  | zero => exact (pure _).unlisted
  | succ levels inductionHypothesis =>
    rw [Files.makeDirectoriesFrom, Files.makeDirectoriesFrom]
    split
    · exact (pure _).unlisted
    next parent found =>
      refine (makeDirectory around).bind (fun answer => ?_) fun _ _ => .append
      split
      · exact (pure _).unlisted
      · refine (inductionHypothesis (around.outward found)).bind (fun outer => ?_)
          fun _ _ => .append
        split
        · exact (pure _).unlisted
        · exact (makeDirectory around).bind (fun again => settle path again) fun _ _ => .append
      · exact settle path _

end Records

end OnlyDirectories

end Files

end TreeScript
