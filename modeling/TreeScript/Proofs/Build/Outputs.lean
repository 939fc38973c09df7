/-
This file settles whether a build loses a script or an input. The script of a file
is named by the stem of the file and goes to the directory for scripts, or to the
directory of the file if there is no such directory. So two scripts are one file if
their inputs have one stem, and one directory unless a directory for scripts takes
all of them. A file among the inputs is replaced if a script goes where it is. A
build says nothing of either: it reports each script as written.

A file that is replaced is really changed. It held a program, and a script is none.
-/

import TreeScript.Proofs.Build.Accounting
import TreeScript.Proofs.Compilation
import TreeScript.Proofs.Decoding.Truncation
import TreeScript.Proofs.Files.Following

namespace TreeScript

/-! ### Scripts are no programs -/

namespace Decoding

/-- What starts with neither bracket is no program. -/
theorem document_ne_ok {c : Char} {rest : List Char} (notBlank : Json.isBlank c = false)
    (notList : c ≠ '[') (notObject : c ≠ '\x7b') (result : Program) :
    document (c :: rest) ≠ .ok result := by
  intro accepted
  have found : Json.skipBlank (c :: rest) = c :: rest := by simp [Json.skipBlank, notBlank]
  obtain ⟨left, read, -⟩ := exists_of_document_eq_ok accepted
  obtain ⟨fault, refused⟩ :=
    exists_unexpected_eq_error (α := Program × List Char) .program (c :: rest)
  rw [program_of_other found notList notObject, refused] at read
  cases read

end Decoding

/-- Whatever is in front of a program, it starts like a comment or a declaration. -/
theorem Script.Linkage.exists_prologue_eq (linkage : Linkage) :
    ∃ c rest, linkage.prologue.toList = c :: rest ∧ (c = '/' ∨ c = 'c') := by
  cases linkage with
  | inline =>
    obtain ⟨lines, starts⟩ : ∃ lines,
        supportLines = "// Runtime support for compiled programs." :: lines := ⟨_, rfl⟩
    rw [prologue, supportText, starts, List.map_cons, String.join_cons, String.append_assoc,
      String.toList_append]
    exact ⟨'/', _, rfl, .inl rfl⟩
  | require path =>
    rw [prologue, String.append_assoc, String.append_assoc, String.append_assoc,
      String.toList_append]
    exact ⟨'c', _, rfl, .inr rfl⟩

namespace Settings

variable {settings : Settings} {source : String} {compiled : Compiled}

theorem exists_source_eq (succeeded : settings.compile source = .ok compiled) :
    ∃ body, compiled.source = settings.linkage.prologue ++ body := by
  cases parsed : Program.parse source with
  | error refusal => cases succeeded.symm.trans (compile_of_parse_eq_error parsed)
  | ok program =>
    obtain ⟨unfolding, unfolds, rooted, distinct⟩ :=
      (TermTree.reached_optimize program.expression settings.eliminateDead).unfolds
    have emitted := unfolds.emitTree_eq rooted distinct
    rw [compile, parsed] at succeeded
    change (Except.mapError CompileError.missing (Script.emitTree _ _ _) >>= _) = _ at succeeded
    rw [emitted] at succeeded
    cases succeeded
    exact ⟨_, String.append_assoc⟩

/-- A script is no program. -/
theorem parse_compiled_ne_ok (succeeded : settings.compile source = .ok compiled)
    (program : Program) : Program.parse compiled.source ≠ .ok program := by
  intro accepted
  obtain ⟨body, source_eq⟩ := exists_source_eq succeeded
  obtain ⟨c, rest, starts, first⟩ := settings.linkage.exists_prologue_eq
  have decoded := Program.document_of_parse accepted
  rw [source_eq, String.toList_append, starts, List.cons_append] at decoded
  rcases first with rfl | rfl
  · exact Decoding.document_ne_ok (by decide) (by decide) (by decide) program decoded
  · exact Decoding.document_ne_ok (by decide) (by decide) (by decide) program decoded

end Settings

namespace Build

open Files FileSystem LawfulFileSystem

/-! ### Inputs -/

theorem textOfBytes_toUTF8 (text : String) : textOfBytes text.toUTF8 = .ok text := by
  have decoded : String.fromUTF8? text.toUTF8 = some text := dif_pos text.isValidUTF8
  rw [textOfBytes, decoded]

/-- What compiles is the text of a file. -/
theorem exists_of_compilationAt {settings : Settings} {disk : Disk} {input : Path}
    {compiled : Compiled} (succeeded : compilationAt settings disk input = .ok compiled) :
    ∃ location bytes source, disk.locate input = .ok location ∧
      disk.find? location = some (.file bytes) ∧ textOfBytes bytes = .ok source ∧
      ∃ plain, settings.compile source = .ok plain ∧ plain.source = compiled.source := by
  have asked : (readText input : StateM Disk _).run disk =
      (disk.readBytes input >>= textOfBytes, disk) := rfl
  rw [compilationAt, compileFile, run_bind_of_run asked] at succeeded
  cases read : disk.readBytes input >>= textOfBytes with
  | error failure =>
    rw [read] at succeeded
    cases succeeded
  | ok source =>
    rw [read] at succeeded
    obtain ⟨bytes, found, text⟩ := exists_of_bind_eq_ok read
    obtain ⟨location, located, found⟩ := exists_of_bind_eq_ok found
    change compileText settings input source = .ok compiled at succeeded
    refine ⟨location, bytes, source, located, ?_, text, ?_⟩
    · split at found <;> cases found
      assumption
    · rw [compileText] at succeeded
      split at succeeded
      next plain compiles =>
        cases succeeded
        exact ⟨plain, compiles, rfl⟩
      next => cases succeeded

/-! ### Where scripts go -/

/-- The directory for scripts. -/
def target? (settings : Settings) (disk : Disk) : Option Location :=
  settings.outDir.bind fun directory =>
    (disk.follow directory.isAbsolute directory.pieces).toOption

def nameAt (location : Location) : String :=
  location.getLastD ""

/-- Where the script of a file goes. -/
def scriptLocation (settings : Settings) (disk : Disk) (location : Location) : Location :=
  (target? settings disk).getD location.dropLast ++ [Path.scriptName (nameAt location)]

/-- Two files whose scripts have one name in one directory. -/
def Meet (settings : Settings) (location other : Location) : Prop :=
  Path.stem (nameAt location) = Path.stem (nameAt other) ∧
    (settings.outDir.isSome = true ∨ location.dropLast = other.dropLast)

instance (settings : Settings) (location other : Location) :
    Decidable (Meet settings location other) :=
  inferInstanceAs (Decidable (_ ∧ _))

theorem scriptLocation_eq_iff {settings : Settings} {disk : Disk}
    (settled : settings.outDir.isSome = true → (target? settings disk).isSome = true)
    {location other : Location} :
    scriptLocation settings disk location = scriptLocation settings disk other ↔
      Meet settings location other := by
  rw [scriptLocation, scriptLocation, Meet, List.append_singleton_inj, Path.scriptName_inj,
    and_comm]
  refine and_congr_right fun _ => ?_
  cases named : settings.outDir with
  | none => simp [target?, named]
  | some directory =>
    rw [named] at settled
    obtain ⟨target, found⟩ := Option.isSome_iff_exists.mp (settled rfl)
    simp [found]

/-- The path of a script leads to the place for it. A file without a stem is the exception: in place
of its script there is a directory. -/
theorem locate_outputPath {settings : Settings} {disk : Disk} {input : Path}
    {around : List String} {name : String} {directory place : Location}
    (pieces : input.pieces = around ++ [name]) (isName : Path.IsName name)
    (leads : disk.locate input = .ok (directory ++ [name]))
    (written : disk.locate (settings.outputPath input) = .ok place) :
    place = directory.dropLast ∨
      place = scriptLocation settings disk (directory ++ [name]) ∧
        (settings.outDir.isSome = true → (target? settings disk).isSome = true) := by
  have around_leads : disk.follow input.isAbsolute around = .ok directory := by
    obtain ⟨found, followed, entered⟩ := Disk.exists_of_locate pieces leads
    rwa [List.append_cancel_right (Disk.eq_of_enter_isName isName entered)]
  have renamed := Path.pieces_withExtension pieces isName
  have sameStart :
      (input.withExtension Settings.outputExtension).isAbsolute = input.isAbsolute := by
    rw [Path.isAbsolute_of_pieces renamed, Path.isAbsolute_of_pieces pieces]
  have beside {last : String}
      (ends : (input.withExtension Settings.outputExtension).pieces = around ++ [last])
      (same : settings.outputPath input = input.withExtension Settings.outputExtension) :
      disk.enter directory last = .ok place := by
    rw [same] at written
    obtain ⟨found, followed, entered⟩ := Disk.exists_of_locate ends written
    rw [sameStart, around_leads] at followed
    cases followed
    exact entered
  by_cases noStem : Path.stem name = "."
  · rw [if_pos noStem] at renamed
    refine .inl (Disk.eq_of_enter_up (beside renamed ?_))
    rw [Settings.outputPath, Path.fileName?_of_up renamed]
    cases settings.outDir <;> rfl
  · rw [if_neg noStem] at renamed
    right
    have isScript := Path.isName_scriptName name
    have named := Path.fileName?_of_pieces renamed isScript
    cases given : settings.outDir with
    | none =>
      have entered := beside renamed (by rw [Settings.outputPath, given])
      rw [Disk.eq_of_enter_isName isScript entered]
      simp [scriptLocation, target?, given, nameAt]
    | some folder =>
      have joined : settings.outputPath input = folder.join (Path.scriptName name) := by
        rw [Settings.outputPath, given, named]
      have member : Path.scriptName name ∈
          (input.withExtension Settings.outputExtension).pieces := by
        rw [renamed]
        exact List.mem_append_right _ (List.mem_singleton_self _)
      have noSlash := Path.slash_notMem member
      rw [joined] at written
      obtain ⟨target, followed, entered⟩ := Disk.exists_of_locate_join noSlash written
      rw [Disk.eq_of_enter_isName isScript entered]
      simp [scriptLocation, target?, given, nameAt, followed, Except.toOption]

/-! ### Builds without errors -/

/-- Where an input is; only asked of inputs that are somewhere. -/
def inputLocation (disk : Disk) (input : Path) : Location :=
  (disk.locate input).toOption.getD []

/-- What is known of an input whose script was written, by its location: it held a program, and its
script is where it should go. -/
structure Scripted (settings : Settings) (before after : Disk) (input : Path)
    (location : Location) : Prop where
  held : ∃ bytes source program, before.find? location = some (.file bytes) ∧
    textOfBytes bytes = .ok source ∧ Program.parse source = .ok program
  locate_output : after.locate (settings.outputPath input) =
    .ok (scriptLocation settings after location)
  settled : settings.outDir.isSome = true → (target? settings after).isSome = true

namespace Accounted

variable {settings : Settings} {inputs : List Path} {accounts : List Account}
  {before after : Disk} {log : List Access} {result : Result}

theorem exists_written (accounted : Accounted settings inputs accounts before after log result)
    (noErrors : result.messages.errors = []) {account : Account} (member : account ∈ accounts) :
    ∃ compiled, account.outcome = .written compiled := by
  rw [accounted.errors_eq, List.filterMap_eq_nil_iff] at noErrors
  have silent := noErrors account member
  rw [Account.error?, Account.entry] at silent
  cases outcome : account.outcome with
  | failed => rw [outcome] at silent; cases silent
  | unwritten => rw [outcome] at silent; cases silent
  | written compiled => exact ⟨compiled, rfl⟩

theorem written_eq_map (accounted : Accounted settings inputs accounts before after log result)
    (noErrors : result.messages.errors = []) :
    result.written = inputs.map settings.outputPath := by
  rw [accounted.written_eq, ← accounted.inputs_eq, List.map_map, ← List.filterMap_eq_map]
  refine List.filterMap_congr fun account member => ?_
  obtain ⟨compiled, outcome⟩ := accounted.exists_written noErrors member
  rw [Account.entry, outcome]
  rfl

theorem exists_account_of_mem
    (accounted : Accounted settings inputs accounts before after log result) {input : Path}
    (member : input ∈ inputs) : ∃ account ∈ accounts, account.input = input := by
  rw [← accounted.inputs_eq] at member
  exact List.mem_map.mp member

theorem mem_inputs (accounted : Accounted settings inputs accounts before after log result)
    {account : Account} (member : account ∈ accounts) : account.input ∈ inputs :=
  accounted.inputs_eq ▸ List.mem_map_of_mem member

theorem mem_written (accounted : Accounted settings inputs accounts before after log result)
    (noErrors : result.messages.errors = []) {input : Path} (member : input ∈ inputs) :
    settings.outputPath input ∈ result.written := by
  rw [accounted.written_eq_map noErrors]
  exact List.mem_map_of_mem member

theorem scripted (accounted : Accounted settings inputs accounts before after log result)
    (wellFormed : before.WellFormed) (noErrors : result.messages.errors = []) {input : Path}
    (member : input ∈ inputs) :
    Scripted settings before after input (inputLocation before input) := by
  obtain ⟨account, inAccounts, rfl⟩ := accounted.exists_account_of_mem member
  obtain ⟨compiled, outcome⟩ := accounted.exists_written noErrors inAccounts
  have compiles := accounted.compilation_eq account inAccounts
  rw [outcome] at compiles
  obtain ⟨location, bytes, source, located, file, text, plain, succeeded, -⟩ :=
    exists_of_compilationAt compiles.symm
  obtain ⟨program, decoded⟩ := Settings.compile_eq_ok_iff.mp ⟨plain, succeeded⟩
  obtain ⟨-, -, -, place, script, -, led, -, -, written⟩ :=
    accounted.holds_last _ (accounted.mem_written noErrors member)
  have outputLocated := eq_ok_of_toOption led
  have leads : place? before account.input = some location := by
    show (before.locate account.input).toOption = some location
    rw [located]
    rfl
  have stillLocated : after.locate account.input = .ok location :=
    eq_ok_of_toOption (accounted.places leads)
  obtain ⟨around, name, directory, pieces, isName, rfl, there⟩ :=
    wellFormed.exists_name located file
  have same : inputLocation before account.input = directory ++ [name] := by
    rw [inputLocation, located]
    rfl
  rw [same]
  rcases locate_outputPath pieces isName stillLocated outputLocated with up | ⟨rfl, settled⟩
  · have directories := accounted.directories place (up ▸ wellFormed.find?_dropLast there)
    rw [written] at directories
    cases directories
  · exact ⟨⟨bytes, source, program, file, text, decoded⟩, outputLocated, settled⟩

/-- Scripts are as many files as inputs exactly if no two inputs meet. -/
theorem nodup_iff (accounted : Accounted settings inputs accounts before after log result)
    (wellFormed : before.WellFormed) (noErrors : result.messages.errors = []) :
    ((inputs.map (inputLocation before)).map (scriptLocation settings after)).Nodup ↔
      (inputs.map (inputLocation before)).Pairwise fun location other =>
        ¬Meet settings location other := by
  rw [List.Nodup, List.pairwise_map]
  refine List.Pairwise.iff_of_mem fun {location other} member _ => not_congr ?_
  obtain ⟨input, inInputs, -⟩ := List.mem_map.mp member
  exact scriptLocation_eq_iff (accounted.scripted wellFormed noErrors inInputs).settled

/-- Where the script of an input goes, there is a script that goes there. -/
theorem exists_writer (accounted : Accounted settings inputs accounts before after log result)
    (wellFormed : before.WellFormed) (noErrors : result.messages.errors = []) {input : Path}
    (member : input ∈ inputs) :
    ∃ writer ∈ accounts, ∃ compiled, writer.outcome = .written compiled ∧
      scriptLocation settings after (inputLocation before writer.input) =
        scriptLocation settings after (inputLocation before input) ∧
      after.find? (scriptLocation settings after (inputLocation before input)) =
        some (.file compiled.source.toUTF8) := by
  have goes {other : Path} {place : Location} (inInputs : other ∈ inputs)
      (leads : place? after (settings.outputPath other) = some place) :
      scriptLocation settings after (inputLocation before other) = place := by
    have located := (accounted.scripted wellFormed noErrors inInputs).locate_output
    exact Except.ok.inj (located.symm.trans (eq_ok_of_toOption leads))
  obtain ⟨earlier, writer, later, place, source, split, leads, ⟨script, writerLeads⟩, -, holds⟩ :=
    accounted.holds_last _ (accounted.mem_written noErrors member)
  have inAccounts : writer ∈ accounts := by simp [split]
  obtain ⟨compiled, outcome⟩ := accounted.exists_written noErrors inAccounts
  rw [outcome] at script
  cases script
  rw [goes member leads]
  exact ⟨writer, inAccounts, compiled, outcome,
    goes (accounted.mem_inputs inAccounts) writerLeads, holds⟩

/-- Then each of them is the script of its input. -/
theorem holds_own (accounted : Accounted settings inputs accounts before after log result)
    (wellFormed : before.WellFormed) (noErrors : result.messages.errors = [])
    (apart : ((inputs.map (inputLocation before)).map (scriptLocation settings after)).Nodup)
    {input : Path} (member : input ∈ inputs) :
    ∃ compiled, compilationAt settings before input = .ok compiled ∧
      after.find? (scriptLocation settings after (inputLocation before input)) =
        some (.file compiled.source.toUTF8) := by
  obtain ⟨writer, inAccounts, compiled, outcome, goes, holds⟩ :=
    accounted.exists_writer wellFormed noErrors member
  have compiles := accounted.compilation_eq writer inAccounts
  rw [List.map_map] at apart
  rw [outcome, List.inj_on_of_nodup_map apart (accounted.mem_inputs inAccounts) member goes]
    at compiles
  exact ⟨compiled, compiles.symm, holds⟩

/-- An input is as it was exactly if no script goes where it is. -/
theorem find?_eq_iff (accounted : Accounted settings inputs accounts before after log result)
    (wellFormed : before.WellFormed) (noErrors : result.messages.errors = []) {input : Path}
    (member : input ∈ inputs) :
    after.find? (inputLocation before input) = before.find? (inputLocation before input) ↔
      ∀ other ∈ inputs, scriptLocation settings after (inputLocation before other) ≠
        inputLocation before input := by
  obtain ⟨bytes, source, program, file, text, decoded⟩ :=
    (accounted.scripted wellFormed noErrors member).held
  constructor
  · intro unchanged other inInputs goes
    obtain ⟨writer, inAccounts, compiled, outcome, -, holds⟩ :=
      accounted.exists_writer wellFormed noErrors inInputs
    have compiles := accounted.compilation_eq writer inAccounts
    rw [outcome] at compiles
    obtain ⟨_, _, _, -, -, -, plain, succeeded, same⟩ := exists_of_compilationAt compiles.symm
    rw [goes, unchanged, file] at holds
    cases holds
    rw [textOfBytes_toUTF8, ← same] at text
    rw [← Except.ok.inj text] at decoded
    exact Settings.parse_compiled_ne_ok succeeded program decoded
  · intro none
    have kept := accounted.untouched (inputLocation before input) fun other inInputs _ leads => by
      have located := (accounted.scripted wellFormed noErrors inInputs).locate_output
      exact none other inInputs (Except.ok.inj (located.symm.trans (eq_ok_of_toOption leads)))
    rcases kept with same | ⟨nothing, -⟩
    · exact same
    · cases file.symm.trans nothing

end Accounted

/-- What is lost in a build that reports no error, for inputs at known locations. Every script is
written, and it goes where the stem of its input says. There are as many scripts as inputs exactly
if no two inputs meet, and then each is the script of its own input. An input is as it was exactly
if no script goes where it is. -/
theorem buildFiles_keeps_iff {settings : Settings} {inputs : List Path} {flags : List Flag}
    {before after : Disk} {result : Result} {locations : List Location}
    (wellFormed : before.WellFormed)
    (located : inputs.map before.locate = locations.map .ok)
    (ran : (buildFiles inputs settings flags : StateM Disk Result).run before = (result, after))
    (noErrors : result.messages.errors = []) :
    result.written = inputs.map settings.outputPath ∧
    result.written.map after.locate =
      (locations.map (scriptLocation settings after)).map .ok ∧
    ((locations.map (scriptLocation settings after)).Nodup ↔
      locations.Pairwise fun location other => ¬Meet settings location other) ∧
    ((locations.Pairwise fun location other => ¬Meet settings location other) →
      ∀ input ∈ inputs, ∃ compiled place, compilationAt settings before input = .ok compiled ∧
        after.locate (settings.outputPath input) = .ok place ∧
        after.find? place = some (.file compiled.source.toUTF8)) ∧
    ∀ location ∈ locations, after.find? location = before.find? location ↔
      ∀ other ∈ locations, scriptLocation settings after other ≠ location := by
  obtain rfl : inputs.map (inputLocation before) = locations := by
    have each := congrArg (List.map fun led => led.toOption.getD []) located
    rw [List.map_map, List.map_map] at each
    exact each.trans (List.map_id locations)
  cases prepared : ((prepareDirectory settings : StateM Disk _).run before).1 with
  | error diagnostic =>
    obtain ⟨_, _, _, refusedRan, -, refused⟩ := exists_refused flags prepared
    cases ran.symm.trans refusedRan
    rw [refused.errors_eq] at noErrors
    cases noErrors
  | ok =>
    obtain ⟨_, _, _, accounts, accountedRan, -, accounted⟩ := exists_accounted flags prepared
    cases ran.symm.trans accountedRan
    have known {input : Path} (member : input ∈ inputs) :=
      accounted.scripted wellFormed noErrors member
    refine ⟨accounted.written_eq_map noErrors, ?_, accounted.nodup_iff wellFormed noErrors,
      fun apart input member => ?_, fun location member => ?_⟩
    · rw [accounted.written_eq_map noErrors, List.map_map, List.map_map, List.map_map]
      exact List.map_congr_left fun input member => (known member).locate_output
    · obtain ⟨compiled, compiles, holds⟩ := accounted.holds_own wellFormed noErrors
        ((accounted.nodup_iff wellFormed noErrors).mpr apart) member
      exact ⟨compiled, _, compiles, (known member).locate_output, holds⟩
    · obtain ⟨input, inInputs, rfl⟩ := List.mem_map.mp member
      rw [accounted.find?_eq_iff wellFormed noErrors inInputs, List.forall_mem_map]

/-- Three programs, the last one under the name that its own script gets. -/
def misnamed : Disk :=
  namesakes.install ⟨"y/c.js"⟩ (.file "[\"\",[\"Int\",3]]".toUTF8)

theorem buildFiles_keeps_iff_misnamed :
    let inputs : List Path := [⟨"x/a.json"⟩, ⟨"y/a.json"⟩, ⟨"y/c.js"⟩]
    let settings : Settings := { linkage := .require "rt" }
    let ran := (buildFiles inputs settings [.hideTimers] : StateM Disk Result).run misnamed
    misnamed.WellFormed ∧ ran.1.messages.errors = [] ∧
      ran.1.written = [⟨"x/a.js"⟩, ⟨"y/a.js"⟩, ⟨"y/c.js"⟩] ∧
      (∀ input ∈ inputs, ∃ compiled place, compilationAt settings misnamed input = .ok compiled ∧
        ran.2.locate (settings.outputPath input) = .ok place ∧
        ran.2.find? place = some (.file compiled.source.toUTF8)) ∧
      ran.2.find? ["work", "y", "a.json"] = misnamed.find? ["work", "y", "a.json"] ∧
      ran.2.find? ["work", "y", "c.js"] ≠ misnamed.find? ["work", "y", "c.js"] := by
  intro inputs settings ran
  have wellFormed : misnamed.WellFormed := by decide +kernel
  have noErrors : ran.1.messages.errors = [] := by decide +kernel
  have located : inputs.map misnamed.locate =
      [["work", "x", "a.json"], ["work", "y", "a.json"], ["work", "y", "c.js"]].map .ok := by
    decide +kernel
  have runs : (buildFiles inputs settings [.hideTimers] : StateM Disk Result).run misnamed =
      (ran.1, ran.2) := rfl
  obtain ⟨written, -, -, own, unchanged⟩ := buildFiles_keeps_iff wellFormed located runs noErrors
  refine ⟨wellFormed, noErrors, written.trans (by decide +kernel), own (by decide +kernel), ?_, ?_⟩
  · exact (unchanged _ (by simp)).mpr (by decide +kernel)
  · exact mt (unchanged _ (by simp)).mp (by decide +kernel)

/-- Two programs of one name go to one script. Both are reported as written, without an error. -/
theorem buildFiles_loses_namesake :
    let inputs : List Path := [⟨"x/a.json"⟩, ⟨"y/a.json"⟩]
    let settings : Settings := { outDir := some ⟨"out"⟩, linkage := .require "rt" }
    let ran := (buildFiles inputs settings [.hideTimers] : StateM Disk Result).run namesakes
    (inputs.map namesakes.locate).Nodup ∧
      (∀ input ∈ inputs, (compilationAt settings namesakes input).isOk = true) ∧
      ran.1.messages.errors = [] ∧ ran.1.written = [⟨"out/a.js"⟩, ⟨"out/a.js"⟩] ∧
      (ran.2.filesWithExtension Settings.outputExtension).map Prod.fst = [⟨"out/a.js"⟩] := by
  decide +kernel

end Build

end TreeScript
