/-
This file accounts for a build. Each input has one outcome: it fails, or its script
is written, or its script cannot be written. What a build answers is read off the
outcomes of its inputs in their order. What it does to the file system is done by
the scripts that are written, of which the last one at a place is found there in the
end; nothing else changes, except that the directory for the scripts is made, with
those around it that are missing.

All inputs are read before the first of these changes. So an input is compiled as
it was when the build began, even if the script of another input is written in its
place.
-/

import TreeScript.Build
import TreeScript.Proofs.Files.Laws

namespace TreeScript.Build

open Files FileSystem LawfulFileSystem

/-! ### Outcomes -/

/-- What became of an input. -/
inductive Outcome where
  | failed (diagnostic : Diagnostic)
  | unwritten (compiled : Compiled) (failure : Failure)
  | written (compiled : Compiled)

namespace Outcome

def compilation : Outcome → Except Diagnostic Compiled
  | failed diagnostic => .error diagnostic
  | unwritten compiled _ => .ok compiled
  | written compiled => .ok compiled

/-- The script that was written. -/
def script? : Outcome → Option String
  | written compiled => some compiled.source
  | _ => none

/-- What was noticed while compiling is said whether or not the script was written. -/
def warnings : Outcome → List Warning
  | failed _ => []
  | unwritten compiled _ => compiled.warnings
  | written compiled => compiled.warnings

end Outcome

structure Account where
  input : Path
  outcome : Outcome

namespace Account

/-- The entry of an input: the path of its script, or why there is none. -/
def entry (settings : Settings) (account : Account) : Except Diagnostic Path :=
  match account.outcome with
  | .failed diagnostic => .error diagnostic
  | .unwritten _ failure =>
    .error (fileError (settings.outputPath account.input) "Error writing file" failure)
  | .written _ => .ok (settings.outputPath account.input)

def error? (settings : Settings) (account : Account) : Option Diagnostic :=
  match account.entry settings with
  | .error diagnostic => some diagnostic
  | .ok _ => none

end Account

/-- What a build answers for the accounts of its inputs. -/
def Result.ofAccounts (settings : Settings) (accounts : List Account) : Result where
  written := accounts.filterMap fun account => (account.entry settings).toOption
  messages :=
    { errors := accounts.filterMap (Account.error? settings)
      warnings := accounts.flatMap fun account => account.outcome.warnings }

/-- The answer with one more account. -/
def Account.addTo (settings : Settings) (account : Account) (result : Result) : Result :=
  match account.outcome with
  | .failed diagnostic => result.addError diagnostic
  | .unwritten compiled failure =>
    (result.addError (fileError (settings.outputPath account.input) "Error writing file"
      failure)).addWarnings compiled.warnings
  | .written compiled =>
    (result.addWritten (settings.outputPath account.input)).addWarnings compiled.warnings

theorem Result.ofAccounts_concat (settings : Settings) (accounts : List Account)
    (account : Account) :
    Result.ofAccounts settings (accounts ++ [account]) =
      account.addTo settings (Result.ofAccounts settings accounts) := by
  obtain ⟨input, outcome⟩ := account
  cases outcome <;>
    simp [ofAccounts, Account.addTo, Account.error?, Account.entry, Outcome.warnings,
      Except.toOption, addError, addWarnings, addWritten]

section Runs

variable {σ : Type} [FileSystem (StateM σ)]

/-! ### Records of a build -/

/-- What is listed for the script of an input. -/
def writeAccess (settings : Settings) : Path × Except Diagnostic Compiled → List Access
  | (input, .ok _) => [.write (settings.outputPath input)]
  | (_, .error _) => []

theorem records_compileFile (settings : Settings) (path : Path) :
    Records (compileFile settings path : Recorded (StateM σ) _) (compileFile settings path)
      (· = [.read path]) := by
  refine (Records.readText path).bindUnlisted fun answer => ?_
  cases answer <;> exact .pure _

/-- The paths at which a build may make a directory: that of the directory for scripts, and those
around it. -/
def MayMake (settings : Settings) (path : Path) : Prop :=
  ∃ directory, settings.outDir = some directory ∧ directory.LiesIn path

theorem mayMake_eq {settings : Settings} {directory : Path}
    (named : settings.outDir = some directory) : MayMake settings = directory.LiesIn := by
  funext path
  simp [MayMake, named]

theorem records_prepareDirectory (settings : Settings) :
    Records (prepareDirectory settings : Recorded (StateM σ) _) (prepareDirectory settings)
      (OnlyDirectories (MayMake settings)) := by
  rw [prepareDirectory, prepareDirectory]
  split
  · exact (Records.pure _).unlisted
  next directory named =>
    rw [mayMake_eq named]
    refine (Records.makeDirectoriesFrom _ .self).bindUnlisted fun answer => ?_
    cases answer <;> exact .pure _

theorem records_writeOutput (settings : Settings) (result : Result)
    (pair : Path × Except Diagnostic Compiled) :
    Records (writeOutput settings result pair : Recorded (StateM σ) _)
      (writeOutput settings result pair) (· = writeAccess settings pair) := by
  obtain ⟨input, compilation⟩ := pair
  cases compilation with
  | error diagnostic => exact .pure _
  | ok compiled =>
    refine (Records.noting (.write (settings.outputPath input)) _).bindUnlisted fun answer => ?_
    cases answer <;> exact .pure _

/-! ### Compiling -/

/-- How an input compiles in a state of the file system. -/
def compilationAt (settings : Settings) (state : σ) (input : Path) : Except Diagnostic Compiled :=
  ((compileFile settings input : StateM σ _).run state).1

/-- The inputs with how they compile. -/
def compilationsAt (settings : Settings) (state : σ) (inputs : List Path) :
    List (Path × Except Diagnostic Compiled) :=
  inputs.map fun input => (input, compilationAt settings state input)

variable [LawfulFileSystem σ]

/-- Compiling changes nothing. -/
theorem run_compileFile (settings : Settings) (path : Path) (state : σ) :
    (compileFile settings path : StateM σ _).run state =
      (compilationAt settings state path, state) := by
  refine Prod.ext rfl ?_
  have asked := run_readText path state
  cases read : (readText path : StateM σ _).run state with
  | mk answer after =>
    rw [read] at asked
    obtain rfl : after = state := asked
    rw [compileFile, run_bind_of_run read]
    cases answer <;> rfl

theorem run_mapM_compileFile (settings : Settings) (inputs : List Path) (state : σ) :
    (inputs.mapM fun input => do
        return (input, ← (compileFile settings input : StateM σ _))).run state =
      (compilationsAt settings state inputs, state) := by
  induction inputs with
  | nil => rfl
  | cons input inputs inductionHypothesis =>
    have first : (do return (input, ← (compileFile settings input : StateM σ _)) :
        StateM σ (Path × Except Diagnostic Compiled)).run state =
          ((input, compilationAt settings state input), state) := by
      rw [run_bind_of_run (run_compileFile settings input state)]
      rfl
    rw [List.mapM_cons, run_bind_of_run first, run_bind_of_run inductionHypothesis]
    rfl

/-! ### Writing -/

/-- The script of an input was written at a place. -/
def Account.WritesAt (settings : Settings) (state : σ) (account : Account) (place : Place σ)
    (source : String) : Prop :=
  account.outcome.script? = some source ∧
    place? state (settings.outputPath account.input) = some place

/-- What writing scripts one after the other does. Paths lead where they led before, directories
stay, a place is changed only by a script that is written there, and then it holds the last one of
these. -/
structure Settles (settings : Settings) (accounts : List Account) (before after : σ) : Prop where
  places : place? after = place? before
  directories : ∀ place, entry? before place = some .directory →
    entry? after place = some .directory
  placed : ∀ account ∈ accounts, ∀ source, account.outcome.script? = some source →
    ∃ place, account.WritesAt settings before place source
  untouched : ∀ place, (∀ account ∈ accounts, ∀ source,
      ¬account.WritesAt settings before place source) → entry? after place = entry? before place
  refused : ∀ account ∈ accounts, ∀ compiled failure,
    account.outcome = .unwritten compiled failure → ∃ state, place? state = place? before ∧
      ((writeText (settings.outputPath account.input) compiled.source : StateM σ _).run state).1 =
        .error failure
  last : ∀ earlier account later place source, accounts = earlier ++ account :: later →
    account.WritesAt settings before place source →
    (∀ other ∈ later, ∀ replaced, ¬other.WritesAt settings before place replaced) →
      entry? after place = some (.file source.toUTF8)

theorem eq_of_singleton_eq {α : Type} {item other : α} {earlier later : List α}
    (split : [item] = earlier ++ other :: later) : item = other := by
  have inside : other ∈ [item] := by simp [split]
  exact (List.mem_singleton.mp inside).symm

namespace Settles

variable {settings : Settings} {before between after : σ}

theorem nil (settings : Settings) (state : σ) : Settles settings [] state state where
  places := rfl
  directories _ := id
  placed _ member := by cases member
  untouched _ _ := rfl
  refused _ member := by cases member
  last earlier account later _ _ split := by simp at split

theorem cons {account : Account} {accounts : List Account}
    (first : Settles settings [account] before between)
    (rest : Settles settings accounts between after) :
    Settles settings (account :: accounts) before after := by
  have moved (account : Account) (place : Place σ) (source : String) :
      account.WritesAt settings between place source ↔
        account.WritesAt settings before place source := by
    rw [Account.WritesAt, Account.WritesAt, first.places]
  refine ⟨rest.places.trans first.places,
    fun place there => rest.directories place (first.directories place there), ?_,
    fun place none => ?_, ?_, ?_⟩
  · intro written member source script
    rcases List.mem_cons.mp member with rfl | later
    · exact first.placed written (List.mem_singleton_self written) source script
    · obtain ⟨place, writes⟩ := rest.placed written later source script
      exact ⟨place, (moved written place source).mp writes⟩
  · simp only [List.forall_mem_cons] at none
    rw [rest.untouched place fun other member source =>
      mt (moved other place source).mp (none.2 other member source)]
    exact first.untouched place fun other member source => by
      rw [List.mem_singleton.mp member]
      exact none.1 source
  · intro unwritten member compiled failure outcome
    rcases List.mem_cons.mp member with rfl | later
    · exact first.refused unwritten (List.mem_singleton_self unwritten) compiled failure outcome
    · obtain ⟨state, same, answer⟩ := rest.refused unwritten later compiled failure outcome
      exact ⟨state, same.trans first.places, answer⟩
  · intro earlier written later place source split writes none
    cases earlier with
    | nil =>
      obtain ⟨rfl, rfl⟩ := List.cons.inj split
      rw [rest.untouched place fun other member replaced =>
        mt (moved other place replaced).mp (none other member replaced)]
      exact first.last [] account [] place source rfl writes fun _ member => by cases member
    | cons head earlier =>
      obtain ⟨-, split⟩ := List.cons.inj split
      exact rest.last earlier written later place source split
        ((moved written place source).mpr writes) fun other member replaced =>
          mt (moved other place replaced).mp (none other member replaced)

/-- An input without a script changes nothing. -/
theorem of_unwritten {account : Account} (unwritten : account.outcome.script? = none)
    (refused : ∀ compiled failure, account.outcome = .unwritten compiled failure →
      ((writeText (settings.outputPath account.input) compiled.source : StateM σ _).run before).1 =
        .error failure)
    (places : place? after = place? before) (same : entry? after = entry? before) :
    Settles settings [account] before after := by
  have nowhere (place : Place σ) (source : String) :
      ¬account.WritesAt settings before place source := by
    rintro ⟨written, -⟩
    rw [unwritten] at written
    cases written
  refine ⟨places, fun place there => ?_, ?_, fun place _ => congrFun same place, ?_, ?_⟩
  · rwa [same]
  · intro written member source script
    rw [List.mem_singleton.mp member, unwritten] at script
    cases script
  · intro found member compiled failure outcome
    obtain rfl := List.mem_singleton.mp member
    exact ⟨before, rfl, refused compiled failure outcome⟩
  · intro earlier written later place source split writes
    obtain rfl := eq_of_singleton_eq split
    exact absurd writes (nowhere place source)

/-- A script that is written is found where its path leads. -/
theorem of_written {account : Account} {source : String} {place : Place σ}
    (written : account.outcome.script? = some source)
    (leads : place? before (settings.outputPath account.input) = some place)
    (noDirectory : entry? before place ≠ some .directory)
    (places : place? after = place? before)
    (holds : entry? after place = some (.file source.toUTF8))
    (others : ∀ other, other ≠ place → entry? after other = entry? before other) :
    Settles settings [account] before after := by
  refine ⟨places, fun other there => ?_, ?_, fun other none => ?_, ?_, ?_⟩
  · have different : other ≠ place := by
      rintro rfl
      exact noDirectory there
    rw [others other different, there]
  · intro found member replaced script
    obtain rfl := List.mem_singleton.mp member
    exact ⟨place, script, leads⟩
  · refine others other fun same => ?_
    exact none account (List.mem_singleton_self account) source ⟨written, same ▸ leads⟩
  · intro found member compiled failure outcome
    obtain rfl := List.mem_singleton.mp member
    rw [outcome] at written
    cases written
  · intro earlier found later other replaced split writes
    obtain rfl := eq_of_singleton_eq split
    obtain ⟨otherWritten, otherLeads⟩ := writes
    obtain rfl := Option.some.inj (written.symm.trans otherWritten)
    obtain rfl := Option.some.inj (leads.symm.trans otherLeads)
    exact fun _ => holds

end Settles

/-- Writing the script of one input adds one account. -/
theorem exists_account (settings : Settings) (accounts : List Account) (input : Path)
    (compilation : Except Diagnostic Compiled) (before : σ) :
    ∃ account after, (account.input, account.outcome.compilation) = (input, compilation) ∧
      (writeOutput settings (Result.ofAccounts settings accounts) (input, compilation) :
        StateM σ Result).run before = (Result.ofAccounts settings (accounts ++ [account]), after) ∧
      Settles settings [account] before after := by
  cases compilation with
  | error diagnostic =>
    refine ⟨⟨input, .failed diagnostic⟩, before, rfl, ?_,
      .of_unwritten rfl (by rintro _ _ ⟨⟩) rfl rfl⟩
    rw [Result.ofAccounts_concat]
    rfl
  | ok compiled =>
    have kept := place?_writeText (settings.outputPath input) compiled.source before
    cases ran : (writeText (settings.outputPath input) compiled.source : StateM σ _).run before with
    | mk answer after =>
      rw [ran] at kept
      rw [writeOutput, run_bind_of_run ran]
      cases answer with
      | error failure =>
        have refused : ∀ other otherFailure,
            Outcome.unwritten compiled failure = .unwritten other otherFailure →
            ((writeText (settings.outputPath input) other.source : StateM σ _).run before).1 =
              .error otherFailure := by
          rintro _ _ ⟨⟩
          rw [ran]
        refine ⟨⟨input, .unwritten compiled failure⟩, after, rfl, ?_,
          .of_unwritten rfl refused kept (writeText_error ran)⟩
        rw [Result.ofAccounts_concat]
        rfl
      | ok =>
        obtain ⟨place, leads, noDirectory, holds, others⟩ := writeText_ok ran
        refine ⟨⟨input, .written compiled⟩, after, rfl, ?_,
          .of_written rfl leads noDirectory kept holds others⟩
        rw [Result.ofAccounts_concat]
        rfl

/-- Writing the scripts of all inputs accounts for each of them in its turn. -/
theorem exists_accounts (settings : Settings) (done : List Account)
    (compiled : List (Path × Except Diagnostic Compiled)) (before : σ) :
    ∃ accounts after,
      accounts.map (fun account => (account.input, account.outcome.compilation)) = compiled ∧
      (compiled.foldlM (writeOutput settings) (Result.ofAccounts settings done) :
        StateM σ Result).run before = (Result.ofAccounts settings (done ++ accounts), after) ∧
      Settles settings accounts before after := by
  induction compiled generalizing done before with
  | nil => exact ⟨[], before, rfl, by rw [List.append_nil]; rfl, .nil settings before⟩
  | cons pair compiled inductionHypothesis =>
    obtain ⟨input, compilation⟩ := pair
    obtain ⟨account, between, same, ran, first⟩ :=
      exists_account settings done input compilation before
    obtain ⟨accounts, after, others, ranOn, rest⟩ :=
      inductionHypothesis (done ++ [account]) between
    refine ⟨account :: accounts, after, ?_, ?_, first.cons rest⟩
    · rw [List.map_cons, same, others]
    · rw [List.foldlM_cons, run_bind_of_run ran, ranOn, List.append_assoc]
      rfl

/-! ### The directory for scripts -/

theorem growing_prepareDirectory (settings : Settings) :
    Growing (MayMake settings) (prepareDirectory settings : StateM σ (Except Diagnostic Unit)) := by
  rw [prepareDirectory]
  split
  · exact .pure _
  next directory named =>
    rw [mayMake_eq named]
    refine (Growing.makeDirectoriesFrom _ .self).bind fun answer => ?_
    split
    · exact .pure _
    · exact .pure _

/-- A build that goes on has its directory. -/
theorem hasDirectory_of_prepareDirectory {settings : Settings} {directory : Path} {before ready : σ}
    (named : settings.outDir = some directory) (inside : directory.parent? ≠ none)
    (prepared : (prepareDirectory settings : StateM σ _).run before = (.ok (), ready)) :
    HasDirectory ready directory := by
  rw [prepareDirectory, named] at prepared
  cases ran : (makeDirectories directory : StateM σ _).run before with
  | mk answer after =>
    simp only [run_bind_of_run ran] at prepared
    cases answer with
    | error => cases prepared
    | ok =>
      cases prepared
      exact hasDirectory_of_makeDirectories inside ran

/-- The only error names the directory, and says why it or one around it was refused. -/
theorem exists_of_prepareDirectory {settings : Settings} {diagnostic : Diagnostic}
    {before ready : σ} (refused : (prepareDirectory settings : StateM σ _).run before =
      (.error diagnostic, ready)) :
    ∃ directory failure, settings.outDir = some directory ∧
      diagnostic = fileError directory "Could not create the output directory" failure ∧
      ∃ path state, directory.LiesIn path ∧ Grows directory.LiesIn before state ∧
        ((makeDirectory path : StateM σ _).run state).1 = .error failure := by
  rw [prepareDirectory] at refused
  split at refused
  next => cases refused
  next directory named =>
    cases ran : (makeDirectories directory : StateM σ _).run before with
    | mk answer after =>
      rw [run_bind_of_run ran] at refused
      cases answer with
      | ok => cases refused
      | error failure =>
        cases refused
        exact ⟨directory, failure, named, rfl, exists_of_makeDirectoriesFrom .self ran⟩

/-! ### Builds -/

/-- A build that could not make the directory for its scripts says only that, and writes nothing. -/
structure Refused (settings : Settings) (inputs : List Path) (diagnostic : Diagnostic)
    (before after : σ) (log : List Access) (result : Result) : Prop where
  /-- The error names the directory, and says why it or one around it was refused. -/
  names_directory : ∃ directory failure, settings.outDir = some directory ∧
    diagnostic = fileError directory "Could not create the output directory" failure ∧
    ∃ path state, directory.LiesIn path ∧ Grows directory.LiesIn before state ∧
      ((makeDirectory path : StateM σ _).run state).1 = .error failure
  written_eq : result.written = []
  errors_eq : result.messages.errors = [diagnostic]
  warnings_eq : result.messages.warnings = []
  grows : Grows (MayMake settings) before after
  log_eq : ∃ directories, OnlyDirectories (MayMake settings) directories ∧
    log = inputs.map .read ++ directories

/-- What a build did, by the accounts of its inputs. -/
structure Accounted (settings : Settings) (inputs : List Path) (accounts : List Account)
    (before after : σ) (log : List Access) (result : Result) : Prop where
  /-- Each input has one account, in the order of the inputs. -/
  inputs_eq : accounts.map Account.input = inputs
  /-- It is compiled as it was when the build began. -/
  compilation_eq : ∀ account ∈ accounts,
    account.outcome.compilation = compilationAt settings before account.input
  written_eq : result.written = accounts.filterMap fun account =>
    (account.entry settings).toOption
  errors_eq : result.messages.errors = accounts.filterMap (Account.error? settings)
  warnings_eq : result.messages.warnings =
    accounts.flatMap fun account => account.outcome.warnings
  /-- Paths that led somewhere still lead there, and directories are still directories. -/
  places : ∀ {path place}, place? before path = some place → place? after path = some place
  directories : ∀ place, entry? before place = some .directory →
    entry? after place = some .directory
  /-- What could not be written is what the file system refused to write. -/
  refused : ∀ account ∈ accounts, ∀ compiled failure,
    account.outcome = .unwritten compiled failure → ∃ state, place? state = place? after ∧
      ((writeText (settings.outputPath account.input) compiled.source : StateM σ _).run state).1 =
        .error failure
  /-- Where a script was written, there is the last one that was written there. -/
  holds_last : ∀ path ∈ result.written, ∃ earlier account later place source,
    accounts = earlier ++ account :: later ∧ place? after path = some place ∧
      account.WritesAt settings after place source ∧
      (∀ other ∈ later, ∀ replaced, ¬other.WritesAt settings after place replaced) ∧
      entry? after place = some (.file source.toUTF8)
  /-- The directory for scripts is there, unless it is the root or has no name. -/
  prepared : ∀ directory, settings.outDir = some directory → directory.parent? ≠ none →
    HasDirectory after directory
  /-- Where no input that compiles has its script, nothing changes, except that the directory for
  scripts and those around it are made. -/
  untouched : ∀ place, (∀ input ∈ inputs, (compilationAt settings before input).isOk = true →
      place? after (settings.outputPath input) ≠ some place) →
    entry? after place = entry? before place ∨
      entry? before place = none ∧ entry? after place = some .directory ∧
        ∃ path, MayMake settings path ∧ place? after path = some place
  /-- First all inputs are read, then the directory for scripts and those around it are made, and
  then scripts are written. -/
  log_eq : ∃ directories, OnlyDirectories (MayMake settings) directories ∧
    log = inputs.map .read ++ (directories ++ accounts.flatMap fun account =>
      writeAccess settings (account.input, account.outcome.compilation))

theorem exists_last {α : Type} {items : List α} {property : α → Prop}
    (any : ∃ item ∈ items, property item) :
    ∃ earlier last later, items = earlier ++ last :: later ∧ property last ∧
      ∀ other ∈ later, ¬property other := by
  induction items with
  | nil =>
    obtain ⟨_, member, _⟩ := any
    cases member
  | cons first items inductionHypothesis =>
    by_cases further : ∃ other ∈ items, property other
    · obtain ⟨earlier, last, later, rfl, rest⟩ := inductionHypothesis further
      exact ⟨first :: earlier, last, later, rfl, rest⟩
    · obtain ⟨item, member, holds⟩ := any
      rcases List.mem_cons.mp member with rfl | inside
      · exact ⟨[], item, items, rfl, holds, fun other inside otherHolds =>
          further ⟨other, inside, otherHolds⟩⟩
      · exact absurd ⟨item, inside, holds⟩ further

/-- The plain run of a build and the recorded one, phase by phase. -/
theorem run_buildFiles (inputs : List Path) (settings : Settings) (flags : List Flag)
    {before ready : σ} {made : Except Diagnostic Unit}
    (prepared : (prepareDirectory settings : StateM σ _).run before = (made, ready)) :
    ∃ directories, OnlyDirectories (MayMake settings) directories ∧
      (∀ diagnostic, made = .error diagnostic →
        (buildFiles inputs settings flags : StateM σ Result).run before =
          (({} : Result).addError diagnostic, ready) ∧
        ((buildFiles inputs settings flags : Recorded (StateM σ) Result).run []).run before =
          ((({} : Result).addError diagnostic, inputs.map .read ++ directories), ready)) ∧
      (made = .ok () → ∀ result after,
        ((compilationsAt settings before inputs).foldlM (writeOutput settings) {} :
          StateM σ Result).run ready = (result, after) →
        ∃ output, (buildFiles inputs settings flags : StateM σ Result).run before =
          ({ result with output }, after) ∧
        ((buildFiles inputs settings flags : Recorded (StateM σ) Result).run []).run before =
          (({ result with output }, inputs.map .read ++ (directories ++
            (compilationsAt settings before inputs).flatMap (writeAccess settings))), after)) := by
  have timed (state : σ) : (clock : StateM σ Nat).run state =
      (((clock : StateM σ Nat).run state).1, state) := Prod.ext rfl (run_clock state)
  have compiled := run_mapM_compileFile settings inputs before
  have reading : Records
      (inputs.mapM fun input => do
        return (input, ← (compileFile settings input : Recorded (StateM σ) _)))
      (inputs.mapM fun input => do return (input, ← (compileFile settings input : StateM σ _)))
      (· = inputs.flatMap fun input => [.read input]) :=
    .mapM (fun input => (records_compileFile settings input).map (Prod.mk input)) inputs
  obtain ⟨_, rfl, recordedStart⟩ := Records.clock.run_bind (timed before) []
  obtain ⟨_, listed, recordedReads⟩ := reading.run_bind compiled ([] ++ [])
  rw [← List.map_eq_flatMap] at listed
  subst listed
  obtain ⟨directories, onlyDirectories, recordedDirectories⟩ :=
    (records_prepareDirectory settings).run_bind prepared ([] ++ [] ++ inputs.map .read)
  refine ⟨directories, onlyDirectories, fun diagnostic failed => ?_,
    fun succeeded result after wrote => ?_⟩
  · subst failed
    rw [buildFiles, buildFiles, run_bind_of_run (timed before), run_bind_of_run compiled,
      run_bind_of_run prepared, recordedStart, recordedReads, recordedDirectories]
    exact ⟨rfl, rfl⟩
  · subst succeeded
    obtain ⟨_, rfl, recordedWrites⟩ :=
      (Records.foldlM (records_writeOutput settings) (compilationsAt settings before inputs)
        {}).run_bind wrote ([] ++ [] ++ inputs.map .read ++ directories)
    rw [buildFiles, buildFiles, run_bind_of_run (timed before), run_bind_of_run compiled,
      run_bind_of_run prepared, recordedStart, recordedReads, recordedDirectories]
    dsimp only
    rw [run_bind_of_run wrote, recordedWrites]
    by_cases hidden : Flag.hideTimers ∈ flags
    · rw [if_pos hidden, if_pos hidden, List.append_assoc]
      exact ⟨result.output, rfl, rfl⟩
    · rw [if_neg hidden, if_neg hidden, List.append_assoc]
      obtain ⟨_, rfl, recordedStop⟩ := Records.clock.run_bind (timed after)
        ([] ++ [] ++ inputs.map .read ++ (directories ++
          (compilationsAt settings before inputs).flatMap (writeAccess settings)))
      rw [run_bind_of_run (timed after), recordedStop, List.append_nil]
      exact ⟨_, rfl, rfl⟩

/-- The path of a script that was written has the account of its input. -/
theorem exists_of_mem_written {settings : Settings} {accounts : List Account} {path : Path}
    (written : path ∈ (Result.ofAccounts settings accounts).written) :
    ∃ account ∈ accounts, path = settings.outputPath account.input ∧
      ∃ source, account.outcome.script? = some source := by
  obtain ⟨account, member, entered⟩ := List.mem_filterMap.mp written
  refine ⟨account, member, ?_⟩
  rw [Account.entry] at entered
  cases outcome : account.outcome with
  | failed => rw [outcome] at entered; cases entered
  | unwritten => rw [outcome] at entered; cases entered
  | written compiled =>
    rw [outcome] at entered
    exact ⟨(Option.some.inj entered).symm, compiled.source, rfl⟩

namespace Settles

variable {settings : Settings} {accounts : List Account} {before after : σ}

/-- Among the scripts that were written at one place, the last one stays. -/
theorem exists_last_of_mem_written (settles : Settles settings accounts before after) {path : Path}
    (written : path ∈ (Result.ofAccounts settings accounts).written) :
    ∃ earlier account later place source,
      accounts = earlier ++ account :: later ∧ place? after path = some place ∧
        account.WritesAt settings after place source ∧
        (∀ other ∈ later, ∀ replaced, ¬other.WritesAt settings after place replaced) ∧
        entry? after place = some (.file source.toUTF8) := by
  obtain ⟨first, member, rfl, firstSource, script⟩ := exists_of_mem_written written
  obtain ⟨place, firstWrites⟩ := settles.placed first member firstSource script
  have any : ∃ account ∈ accounts, ∃ source, account.WritesAt settings before place source :=
    ⟨first, member, firstSource, firstWrites⟩
  obtain ⟨earlier, account, later, split, ⟨source, writes⟩, none⟩ := exists_last any
  have holds := settles.last earlier account later place source split writes
    fun other inside replaced otherWrites => none other inside ⟨replaced, otherWrites⟩
  simp only [Account.WritesAt, settles.places] at writes none firstWrites ⊢
  exact ⟨earlier, account, later, place, source, split, firstWrites.2, writes,
    fun other inside replaced otherWrites => none other inside ⟨replaced, otherWrites⟩, holds⟩

end Settles

/-- A script belongs to an input that compiles. -/
theorem Account.isOk_of_script? {account : Account} {source : String}
    (script : account.outcome.script? = some source) : account.outcome.compilation.isOk = true := by
  cases outcome : account.outcome with
  | written => rfl
  | failed => rw [outcome] at script; cases script
  | unwritten => rw [outcome] at script; cases script

theorem Settles.accounted {settings : Settings} {inputs : List Path} {accounts : List Account}
    {before ready after : σ} {directories : List Access} (output : String)
    (prepared : (prepareDirectory settings : StateM σ _).run before = (.ok (), ready))
    (same : accounts.map (fun account => (account.input, account.outcome.compilation)) =
      compilationsAt settings before inputs)
    (onlyDirectories : OnlyDirectories (MayMake settings) directories)
    (settles : Settles settings accounts ready after) :
    Accounted settings inputs accounts before after
      (inputs.map .read ++ (directories ++
        (compilationsAt settings before inputs).flatMap (writeAccess settings)))
      { Result.ofAccounts settings accounts with output } := by
  have inputsEq : accounts.map Account.input = inputs := by
    simpa [compilationsAt, Function.comp_def] using congrArg (List.map Prod.fst) same
  have compilationEq (account : Account) (member : account ∈ accounts) :
      account.outcome.compilation = compilationAt settings before account.input := by
    have listed : (account.input, account.outcome.compilation) ∈
        compilationsAt settings before inputs := same ▸ List.mem_map_of_mem member
    obtain ⟨input, -, pair⟩ := List.mem_map.mp listed
    obtain ⟨rfl, compiled⟩ := Prod.mk.inj pair
    exact compiled.symm
  have grows : Grows (MayMake settings) before ready := by
    have growing := growing_prepareDirectory settings before
    rwa [prepared] at growing
  refine
    { inputs_eq := inputsEq
      compilation_eq := compilationEq
      written_eq := rfl
      errors_eq := rfl
      warnings_eq := rfl
      places := fun leads => settles.places ▸ grows.places leads
      directories := fun place there => settles.directories place (grows.entry?_eq there)
      refused := settles.places ▸ settles.refused
      holds_last := fun path written => settles.exists_last_of_mem_written written
      prepared := fun directory named inside => ?_
      untouched := fun place none => ?_
      log_eq := ⟨directories, onlyDirectories, by rw [← same, List.flatMap_map]⟩ }
  · obtain ⟨place, leads, there⟩ := hasDirectory_of_prepareDirectory named inside prepared
    exact ⟨place, settles.places ▸ leads, settles.directories place there⟩
  · have kept : entry? after place = entry? ready place := by
      refine settles.untouched place fun account member source writes => ?_
      refine none account.input (inputsEq ▸ List.mem_map_of_mem member) ?_ ?_
      · rw [← compilationEq account member]
        exact Account.isOk_of_script? writes.1
      · rw [settles.places]
        exact writes.2
    rw [kept, settles.places]
    exact grows.entries place

theorem exists_refused {inputs : List Path} {settings : Settings} (flags : List Flag) {before : σ}
    {diagnostic : Diagnostic}
    (failed : ((prepareDirectory settings : StateM σ _).run before).1 = .error diagnostic) :
    ∃ result after log,
      (buildFiles inputs settings flags : StateM σ Result).run before = (result, after) ∧
      ((buildFiles inputs settings flags : Recorded (StateM σ) Result).run []).run before =
        ((result, log), after) ∧
      Refused settings inputs diagnostic before after log result := by
  have prepared : (prepareDirectory settings : StateM σ _).run before = (.error diagnostic, _) :=
    Prod.ext failed rfl
  obtain ⟨directories, onlyDirectories, failing, -⟩ := run_buildFiles inputs settings flags prepared
  obtain ⟨ran, recorded⟩ := failing diagnostic rfl
  exact ⟨_, _, _, ran, recorded, exists_of_prepareDirectory prepared, rfl, rfl, rfl,
    growing_prepareDirectory settings before, directories, onlyDirectories, rfl⟩

theorem exists_accounted {inputs : List Path} {settings : Settings} (flags : List Flag) {before : σ}
    (made : ((prepareDirectory settings : StateM σ _).run before).1 = .ok ()) :
    ∃ result after log accounts,
      (buildFiles inputs settings flags : StateM σ Result).run before = (result, after) ∧
      ((buildFiles inputs settings flags : Recorded (StateM σ) Result).run []).run before =
        ((result, log), after) ∧
      Accounted settings inputs accounts before after log result := by
  have prepared : (prepareDirectory settings : StateM σ _).run before = (.ok (), _) :=
    Prod.ext made rfl
  obtain ⟨directories, onlyDirectories, -, succeeding⟩ :=
    run_buildFiles inputs settings flags prepared
  obtain ⟨accounts, after, same, wrote, settles⟩ :=
    exists_accounts settings [] (compilationsAt settings before inputs)
      ((prepareDirectory settings : StateM σ _).run before).2
  obtain ⟨output, ran, recorded⟩ := succeeding rfl _ _ wrote
  exact ⟨_, _, _, accounts, ran, recorded,
    settles.accounted output prepared same onlyDirectories⟩

/-- Every input is accounted for, and nothing else is touched but the directory for scripts and those
around it, which are made where they are missing. -/
theorem buildFiles_accounts (inputs : List Path) (settings : Settings) (flags : List Flag)
    (before : σ) :
    ∃ result after log,
      (buildFiles inputs settings flags : StateM σ Result).run before = (result, after) ∧
      ((buildFiles inputs settings flags : Recorded (StateM σ) Result).run []).run before =
        ((result, log), after) ∧
      (∀ diagnostic, ((prepareDirectory settings : StateM σ _).run before).1 = .error diagnostic →
        Refused settings inputs diagnostic before after log result) ∧
      (((prepareDirectory settings : StateM σ _).run before).1 = .ok () →
        ∃ accounts, Accounted settings inputs accounts before after log result) := by
  cases prepared : ((prepareDirectory settings : StateM σ _).run before).1 with
  | error diagnostic =>
    obtain ⟨result, after, log, ran, recorded, refused⟩ := exists_refused flags prepared
    refine ⟨result, after, log, ran, recorded, ?_, by rintro ⟨⟩⟩
    rintro _ ⟨⟩
    exact refused
  | ok =>
    obtain ⟨result, after, log, accounts, ran, recorded, accounted⟩ :=
      exists_accounted flags prepared
    exact ⟨result, after, log, ran, recorded, by rintro _ ⟨⟩, fun _ => ⟨accounts, accounted⟩⟩

end Runs

/-- Two programs of one name in two directories. -/
def namesakes : Disk :=
  let program := fun (value : String) => Entry.file ("[\"\",[\"Int\"," ++ value ++ "]]").toUTF8
  ((Disk.empty ["work"]).install ⟨"x/a.json"⟩ (program "1")).install ⟨"y/a.json"⟩ (program "2")

/-- Two inputs have one script in a directory that is made for it, the third is missing; then a file
is in the way of the directory. -/
theorem buildFiles_accounts_namesakes :
    let inputs : List Path := [⟨"x/a.json"⟩, ⟨"y/a.json"⟩, ⟨"z.json"⟩]
    let settings : Settings := { outDir := some ⟨"out"⟩, linkage := .require "rt" }
    let blocked : Settings := { outDir := some ⟨"y/a.json"⟩ }
    (((prepareDirectory settings : StateM Disk _).run namesakes).1 = .ok () ∧
      ∃ result after log accounts,
        (buildFiles inputs settings [.hideTimers] : StateM Disk Result).run namesakes =
          (result, after) ∧
        Accounted settings inputs accounts namesakes after log result ∧
        result.written = [⟨"out/a.js"⟩, ⟨"out/a.js"⟩] ∧ result.messages.errors.length = 1 ∧
        namesakes.hasDirectory ["work", "out"] = false ∧
        after.hasDirectory ["work", "out"] = true) ∧
    ∃ diagnostic, ((prepareDirectory blocked : StateM Disk _).run namesakes).1 =
        .error diagnostic ∧
      ∃ result after log,
        (buildFiles inputs blocked [] : StateM Disk Result).run namesakes = (result, after) ∧
        Refused blocked inputs diagnostic namesakes after log result := by
  intro inputs settings blocked
  constructor
  · have made : ((prepareDirectory settings : StateM Disk _).run namesakes).1.isOk = true := by
      decide +kernel
    have answer : let built :=
          (buildFiles inputs settings [.hideTimers] : StateM Disk Result).run namesakes
        built.1.written = [⟨"out/a.js"⟩, ⟨"out/a.js"⟩] ∧ built.1.messages.errors.length = 1 ∧
          namesakes.hasDirectory ["work", "out"] = false ∧
          built.2.hasDirectory ["work", "out"] = true := by
      decide +kernel
    obtain ⟨result, after, log, ran, -, -, accounted⟩ :=
      buildFiles_accounts inputs settings [.hideTimers] namesakes
    rw [ran] at answer
    cases prepared : ((prepareDirectory settings : StateM Disk _).run namesakes).1 with
    | error =>
      rw [prepared] at made
      cases made
    | ok =>
      obtain ⟨accounts, accounted⟩ := accounted prepared
      exact ⟨rfl, result, after, log, accounts, ran, accounted, answer⟩
  · have refused : ((prepareDirectory blocked : StateM Disk _).run namesakes).1.isOk = false := by
      decide +kernel
    obtain ⟨result, after, log, ran, -, refuses, -⟩ :=
      buildFiles_accounts inputs blocked [] namesakes
    cases prepared : ((prepareDirectory blocked : StateM Disk _).run namesakes).1 with
    | ok =>
      rw [prepared] at refused
      cases refused
    | error diagnostic =>
      exact ⟨diagnostic, rfl, result, after, log, ran, refuses diagnostic prepared⟩

end TreeScript.Build
