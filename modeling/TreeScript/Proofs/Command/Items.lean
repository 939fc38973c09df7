/-
This file says which command lines are accepted. After a command, arguments are
items: an option with its value, a flag, or a path. Values and paths do not start
with two dashes, but options and flags do, and so the first argument of an item
tells which item it is. Arguments are items in at most one way.

Two readers look at the arguments. One goes from item to item; an option takes the
next argument with it. The other looks for flags everywhere. They agree because an
option refuses a value with two dashes: where arguments are items, no argument
inside an item is a flag.
-/

import TreeScript.Command.Arguments
import Mathlib.Data.List.Induction
import Mathlib.Tactic.SplitIfs

namespace TreeScript.Command

/-! ### Items -/

/-- A text without two dashes in front, as paths and values are. -/
structure Undashed where
  text : String
  noDashes : isDashed text = false

/-- The options that take a value. -/
inductive OptionName where
  | config | support | outDir
deriving DecidableEq

def OptionName.text : OptionName → String
  | config => configOption
  | support => supportOption
  | outDir => outDirOption

/-- The options with one of them replaced. -/
def OptionName.set : OptionName → Options → String → Options
  | config, options, value => { options with config := some ⟨value⟩ }
  | support, options, value => { options with support := some value }
  | outDir, options, value => { options with outDir := some ⟨value⟩ }

def flagText : Flag → String
  | .keepDeadBindings => "--no-dce"
  | .noMemoization => "--no-memo"
  | .hideWarnings => "--hide-warnings"
  | .hideTimers => "--hide-timers"

inductive Item where
  | option (name : OptionName) (value : Undashed)
  | flag (which : Flag)
  | path (text : Undashed)

namespace Item

/-- The arguments that an item is written as. -/
def arguments : Item → List String
  | option name value => [name.text, value.text]
  | flag which => [flagText which]
  | path word => [word.text]

def path? : Item → Option Path
  | path word => some ⟨word.text⟩
  | _ => none

def flag? : Item → Option Flag
  | flag which => some which
  | _ => none

/-- The value that an item gives to an option. -/
def value? (name : OptionName) : Item → Option String
  | option other value => if other = name then some value.text else none
  | _ => none

end Item

/-- The value that an option is given last. -/
def lastValue (name : OptionName) (items : List Item) : Option String :=
  (items.filterMap (Item.value? name)).getLast?

/-- Every option has the value that it is given last. -/
def Options.ofItems (items : List Item) : Options where
  config := (lastValue .config items).map Path.mk
  support := lastValue .support items
  outDir := (lastValue .outDir items).map Path.mk

/-! ### The first argument of an item -/

theorem isDashed_option (name : OptionName) : isDashed name.text = true := by
  cases name <;> decide

theorem isDashed_flagText (which : Flag) : isDashed (flagText which) = true := by
  cases which <;> decide

theorem option?_text (name : OptionName) : option? name.text = some name.set := by
  cases name <;> rfl

theorem option?_flagText (which : Flag) : option? (flagText which) = none := by
  cases which <;> rfl

theorem flag?_flagText (which : Flag) : flag? (flagText which) = some which := by
  cases which <;> rfl

theorem flag?_option (name : OptionName) : flag? name.text = none := by
  cases name <;> rfl

/-- What is taken for an option is one. -/
theorem exists_of_option? {argument : String} {take : Options → String → Options}
    (found : option? argument = some take) :
    ∃ name : OptionName, argument = name.text ∧ take = name.set := by
  rw [option?] at found
  split_ifs at found with isConfig isSupport isOutDir
  · exact ⟨.config, isConfig, (Option.some.inj found).symm⟩
  · exact ⟨.support, isSupport, (Option.some.inj found).symm⟩
  · exact ⟨.outDir, isOutDir, (Option.some.inj found).symm⟩

/-- What is taken for a flag is one. -/
theorem eq_flagText_of_flag? {argument : String} {which : Flag}
    (found : flag? argument = some which) : argument = flagText which := by
  rw [flag?] at found
  split_ifs at found
  all_goals
    cases found
    assumption

theorem Undashed.option?_eq_none (word : Undashed) : option? word.text = none := by
  cases found : option? word.text with
  | none => rfl
  | some take =>
    obtain ⟨name, same, -⟩ := exists_of_option? found
    have dashed := word.noDashes
    rw [same, isDashed_option] at dashed
    cases dashed

theorem Undashed.flag?_eq_none (word : Undashed) : flag? word.text = none := by
  cases found : flag? word.text with
  | none => rfl
  | some flag =>
    have dashed := word.noDashes
    rw [eq_flagText_of_flag? found, isDashed_flagText] at dashed
    cases dashed

/-! ### Arguments that are items -/

theorem OptionName.text_injective {name other : OptionName} (same : name.text = other.text) :
    name = other := by
  revert same
  cases name <;> cases other <;> decide

theorem flagText_injective {flag other : Flag} (same : flagText flag = flagText other) :
    flag = other := by
  have found := flag?_flagText flag
  rw [same, flag?_flagText] at found
  exact (Option.some.inj found).symm

theorem Undashed.ext {word other : Undashed} (same : word.text = other.text) : word = other := by
  cases word
  cases other
  cases same
  rfl

/-- The first argument tells which item it is, and the item tells how many follow. -/
theorem Item.eq_of_arguments_append {item other : Item} {rest others : List String}
    (same : item.arguments ++ rest = other.arguments ++ others) : item = other ∧ rest = others := by
  have dashed (word : Undashed) {text : String} (isDash : isDashed text = true)
      (same : text = word.text) : False := by
    rw [same, word.noDashes] at isDash
    cases isDash
  have apart (name : OptionName) (flag : Flag) (same : name.text = flagText flag) : False := by
    have found := flag?_option name
    rw [same, flag?_flagText] at found
    cases found
  match item, other with
  | .option name value, .option otherName otherValue =>
    obtain ⟨head, tail⟩ := List.cons.inj same
    obtain ⟨values, rests⟩ := List.cons.inj tail
    exact ⟨by rw [OptionName.text_injective head, Undashed.ext values], rests⟩
  | .option name _, .flag which => exact (apart name which (List.cons.inj same).1).elim
  | .option name _, .path word =>
    exact (dashed word (isDashed_option name) (List.cons.inj same).1).elim
  | .flag which, .option name _ => exact (apart name which (List.cons.inj same).1.symm).elim
  | .flag which, .flag otherWhich =>
    obtain ⟨head, tail⟩ := List.cons.inj same
    exact ⟨by rw [flagText_injective head], tail⟩
  | .flag which, .path word =>
    exact (dashed word (isDashed_flagText which) (List.cons.inj same).1).elim
  | .path word, .option name _ =>
    exact (dashed word (isDashed_option name) (List.cons.inj same).1.symm).elim
  | .path word, .flag which =>
    exact (dashed word (isDashed_flagText which) (List.cons.inj same).1.symm).elim
  | .path word, .path otherWord =>
    obtain ⟨head, tail⟩ := List.cons.inj same
    exact ⟨by rw [Undashed.ext head], tail⟩

theorem Item.arguments_ne_nil (item : Item) : item.arguments ≠ [] := by
  cases item <;> exact List.cons_ne_nil _ _

/-- Arguments are items in at most one way. -/
theorem flatMap_arguments_inj {items others : List Item}
    (same : items.flatMap Item.arguments = others.flatMap Item.arguments) : items = others := by
  induction items generalizing others with
  | nil =>
    cases others with
    | nil => rfl
    | cons other others =>
      have empty := List.append_eq_nil_iff.mp same.symm
      exact absurd empty.1 other.arguments_ne_nil
  | cons item items inductionHypothesis =>
    cases others with
    | nil => exact absurd (List.append_eq_nil_iff.mp same).1 item.arguments_ne_nil
    | cons other others =>
      obtain ⟨rfl, rest⟩ := Item.eq_of_arguments_append same
      rw [inductionHypothesis rest]

/-! ### Both readers -/

/-- The options after an item. -/
def Item.applyTo (options : Options) : Item → Options
  | option name value => name.set options value.text
  | _ => options

/-- Reading takes one item at a time. -/
theorem readItems_arguments (item : Item) (paths : List Path) (options : Options)
    (rest : List String) :
    readItems paths options (item.arguments ++ rest) =
      readItems (item.path?.toList ++ paths) (item.applyTo options) rest := by
  cases item with
  | option name value =>
    simp only [Item.arguments, List.cons_append, List.nil_append, readItems, option?_text,
      value.noDashes]
    rfl
  | flag flag =>
    simp only [Item.arguments, List.cons_append, List.nil_append, readItems, option?_flagText,
      flag?_flagText]
    rfl
  | path path =>
    simp only [Item.arguments, List.cons_append, List.nil_append, readItems,
      path.option?_eq_none, path.flag?_eq_none, path.noDashes]
    rfl

/-- Items are read to their end. -/
theorem readItems_foldl (items : List Item) (paths : List Path) (options : Options) :
    readItems paths options (items.flatMap Item.arguments) =
      .ok (paths.reverse ++ items.filterMap Item.path?, items.foldl Item.applyTo options) := by
  induction items generalizing paths options with
  | nil => simp [readItems]
  | cons item items inductionHypothesis =>
    rw [List.flatMap_cons, readItems_arguments, inductionHypothesis, List.filterMap_cons,
      List.foldl_cons]
    cases item.path? <;> simp

/-- What is read to its end is items. -/
theorem exists_items_of_readItems {arguments : List String} {paths found : List Path}
    {options final : Options} (accepted : readItems paths options arguments = .ok (found, final)) :
    ∃ items : List Item, items.flatMap Item.arguments = arguments := by
  fun_induction readItems paths options arguments with
  | case1 => exact ⟨[], rfl⟩
  | case2 => cases accepted
  | case3 => cases accepted
  | case4 paths options argument take isOption value rest noDashes inductionHypothesis =>
    obtain ⟨items, rfl⟩ := inductionHypothesis accepted
    obtain ⟨name, rfl, -⟩ := exists_of_option? isOption
    exact ⟨.option name ⟨value, Bool.eq_false_iff.mpr noDashes⟩ :: items, rfl⟩
  | case5 paths options argument rest notOption isFlag inductionHypothesis =>
    obtain ⟨items, rfl⟩ := inductionHypothesis accepted
    obtain ⟨flag, found⟩ := Option.isSome_iff_exists.mp isFlag
    obtain rfl := eq_flagText_of_flag? found
    exact ⟨.flag flag :: items, rfl⟩
  | case6 => cases accepted
  | case7 paths options argument rest notOption notFlag noDashes inductionHypothesis =>
    obtain ⟨items, rfl⟩ := inductionHypothesis accepted
    exact ⟨.path ⟨argument, Bool.eq_false_iff.mpr noDashes⟩ :: items, rfl⟩

theorem lastValue_concat (name : OptionName) (items : List Item) (item : Item) :
    lastValue name (items ++ [item]) = (item.value? name).or (lastValue name items) := by
  rw [lastValue, List.filterMap_append]
  cases given : item.value? name with
  | none => rw [List.filterMap_cons_none given, List.filterMap_nil, List.append_nil,
      Option.none_or, lastValue]
  | some value => rw [List.filterMap_cons_some given, List.filterMap_nil, List.getLast?_concat,
      Option.some_or]

/-- One item after the other, each option ends with the value that it is given last. -/
theorem foldl_applyTo (items : List Item) :
    items.foldl Item.applyTo {} = Options.ofItems items := by
  induction items using List.reverseRecOn with
  | nil => rfl
  | append_singleton items item inductionHypothesis =>
    rw [List.foldl_append, inductionHypothesis, List.foldl_cons, List.foldl_nil]
    simp only [Options.ofItems, lastValue_concat]
    cases item with
    | option name value => cases name <;> rfl
    | flag | path => rfl

theorem readItems_flatMap (items : List Item) :
    readItems [] {} (items.flatMap Item.arguments) =
      .ok (items.filterMap Item.path?, Options.ofItems items) := by
  rw [readItems_foldl, foldl_applyTo]
  rfl

/-- Arguments are read exactly if they are items. -/
theorem readItems_cases (arguments : List String) :
    (∃ items : List Item, items.flatMap Item.arguments = arguments) ∨
      ∃ error, readItems [] {} arguments = .error error := by
  cases read : readItems [] {} arguments with
  | error error => exact .inr ⟨error, rfl⟩
  | ok found => exact .inl (exists_items_of_readItems read)

/-- Where arguments are items, looking for flags everywhere finds those that are items. -/
theorem flags_flatMap (items : List Item) :
    flags (items.flatMap Item.arguments) = items.filterMap Item.flag? := by
  induction items with
  | nil => rfl
  | cons item items inductionHypothesis =>
    rw [flags] at inductionHypothesis ⊢
    rw [List.flatMap_cons, List.filterMap_append, inductionHypothesis]
    cases item with
    | option name value =>
      simp [Item.arguments, Item.flag?, flag?_option, value.flag?_eq_none, List.filterMap_cons]
    | flag which => simp [Item.arguments, Item.flag?, flag?_flagText]
    | path word => simp [Item.arguments, Item.flag?, word.flag?_eq_none, List.filterMap_cons]

/-! ### Requests -/

/-- How a request is written. A compilation is items with one path, a build is items with at least
one path behind the name of the command; a compilation must not look like another command. -/
inductive Spells : List String → Request → List Item → Prop where
  | compile {items : List Item} {path : Path}
      (ordinary : ∀ first ∈ (items.flatMap Item.arguments).head?,
        first ≠ buildName ∧ isHelp first = false)
      (one : items.filterMap Item.path? = [path]) :
      Spells (items.flatMap Item.arguments) (.compile path) items
  | build {items : List Item} (any : items.filterMap Item.path? ≠ []) :
      Spells (buildName :: items.flatMap Item.arguments) (.build (items.filterMap Item.path?)) items

/-- The arguments without the name of the command. -/
def operands : List String → List String
  | [] => []
  | first :: rest => if first = buildName then rest else first :: rest

theorem Spells.operands_eq {arguments : List String} {request : Request} {items : List Item}
    (spells : Spells arguments request items) :
    operands arguments = items.flatMap Item.arguments := by
  cases spells with
  | compile ordinary one =>
    cases written : items.flatMap Item.arguments with
    | nil => rfl
    | cons first rest =>
      rw [written] at ordinary
      rw [operands, if_neg (ordinary first rfl).1]
  | build any => rw [operands, if_pos rfl]

/-- The name of a command is not a flag. -/
theorem Spells.flags_eq {arguments : List String} {request : Request} {items : List Item}
    (spells : Spells arguments request items) :
    flags arguments = items.filterMap Item.flag? := by
  cases spells with
  | compile ordinary one => exact flags_flatMap items
  | build any => exact flags_flatMap items

theorem readBuild_flatMap (items : List Item) :
    readBuild (items.flatMap Item.arguments) =
      if (items.filterMap Item.path?).isEmpty then .error .nothingToBuild
      else .ok (.build (items.filterMap Item.path?), Options.ofItems items) := by
  rw [readBuild, readItems_flatMap]
  rfl

theorem readCompile_flatMap {items : List Item} {request : Request} {options : Options} :
    readCompile (items.flatMap Item.arguments) = .ok (request, options) ↔
      ∃ path, items.filterMap Item.path? = [path] ∧ .compile path = request ∧
        Options.ofItems items = options := by
  rw [readCompile, readItems_flatMap]
  match items.filterMap Item.path? with
  | [] =>
    refine iff_of_false ?_ ?_
    · rintro ⟨⟩
    · rintro ⟨_, ⟨⟩, _⟩
  | [path] =>
    constructor
    · rintro ⟨⟩
      exact ⟨path, rfl, rfl, rfl⟩
    · rintro ⟨_, ⟨⟩, rfl, rfl⟩
      rfl
  | first :: second :: others =>
    refine iff_of_false ?_ ?_
    · rintro ⟨⟩
    · rintro ⟨_, ⟨⟩, _⟩

/-- A request that is written as it should be is accepted. -/
theorem Spells.readRequest_eq {arguments : List String} {request : Request} {items : List Item}
    (spells : Spells arguments request items) :
    readRequest arguments = .ok (request, Options.ofItems items) := by
  cases spells with
  | compile ordinary one =>
    have accepted := readCompile_flatMap.mpr ⟨_, one, rfl, rfl⟩
    cases written : items.flatMap Item.arguments with
    | nil =>
      rw [written] at accepted
      cases accepted
    | cons first rest =>
      rw [written] at ordinary accepted
      obtain ⟨notBuild, notHelp⟩ := ordinary first rfl
      rw [readRequest, notHelp, if_neg Bool.false_ne_true, if_neg notBuild]
      exact accepted
  | build any =>
    have notHelp : isHelp buildName = false := by decide
    rw [readRequest, notHelp, if_neg Bool.false_ne_true, if_pos rfl, readBuild_flatMap,
      if_neg fun empty => any (List.isEmpty_iff.mp empty)]

/-- What is accepted asks for help or is written as it should be. -/
theorem spells_of_readRequest {arguments : List String} {request : Request} {options : Options}
    (accepted : readRequest arguments = .ok (request, options)) :
    (request = .help ∧ options = {} ∧ ∃ first ∈ arguments.head?, isHelp first = true) ∨
      ∃ items, Spells arguments request items := by
  cases arguments with
  | nil => cases accepted
  | cons first rest =>
    rw [readRequest] at accepted
    split_ifs at accepted with help build
    · cases accepted
      exact .inl ⟨rfl, rfl, first, rfl, help⟩
    · subst build
      rcases readItems_cases rest with ⟨items, rfl⟩ | ⟨error, refused⟩
      · rw [readBuild_flatMap] at accepted
        split_ifs at accepted with empty
        cases accepted
        exact .inr ⟨items, .build fun none => empty (List.isEmpty_iff.mpr none)⟩
      · rw [readBuild, refused] at accepted
        cases accepted
    · rcases readItems_cases (first :: rest) with ⟨items, written⟩ | ⟨error, refused⟩
      · rw [← written, readCompile_flatMap] at accepted
        obtain ⟨path, one, rfl, rfl⟩ := accepted
        refine .inr ⟨items, written ▸ .compile (fun other isFirst => ?_) one⟩
        rw [written] at isFirst
        cases isFirst
        exact ⟨build, Bool.eq_false_iff.mpr help⟩
      · rw [readCompile, refused] at accepted
        cases accepted

/-- A command line that is accepted as a compilation or a build is written in exactly one way as
items, behind the name of the command. The paths are the items that are paths, each option has the
value that it is given last, and the flags that are found in the whole command line, with a
program's name in front that is not a flag, are the items that are flags, all in their order. Every
command line that is written so is accepted, and every other one is refused or asks for help. -/
theorem readRequest_reads_items (arguments : List String) :
    (∀ request options, readRequest arguments = .ok (request, options) → request ≠ .help →
      ∃ items, Spells arguments request items ∧
        (∀ others, others.flatMap Item.arguments = operands arguments ↔ others = items) ∧
        options = Options.ofItems items ∧
        ∀ program, flag? program = none →
          flags (program :: arguments) = items.filterMap Item.flag?) ∧
    (∀ request items, Spells arguments request items →
      readRequest arguments = .ok (request, Options.ofItems items)) ∧
    ((∀ request items, ¬Spells arguments request items) →
      (∃ error, readRequest arguments = .error error) ∨
        readRequest arguments = .ok (.help, {}) ∧
          ∃ first ∈ arguments.head?, isHelp first = true) := by
  refine ⟨fun request options accepted notHelp => ?_, fun request items => Spells.readRequest_eq,
    fun unspelled => ?_⟩
  · obtain ⟨items, spells⟩ :=
      (spells_of_readRequest accepted).resolve_left fun help => notHelp help.1
    refine ⟨items, spells, fun others => ?_, ?_, fun program noFlag => ?_⟩
    · rw [spells.operands_eq]
      exact ⟨flatMap_arguments_inj, fun same => same ▸ rfl⟩
    · exact (Prod.mk.inj (Except.ok.inj (accepted.symm.trans spells.readRequest_eq))).2
    · rw [flags, List.filterMap_cons_none noFlag]
      exact spells.flags_eq
  · cases read : readRequest arguments with
    | error error => exact .inl ⟨error, rfl⟩
    | ok found =>
      obtain ⟨request, options⟩ := found
      rcases spells_of_readRequest read with ⟨rfl, rfl, help⟩ | ⟨items, spells⟩
      · exact .inr ⟨rfl, help⟩
      · exact absurd spells (unspelled request items)

/-- Options that are given twice, and values and paths that are names of commands. -/
def mixedItems : List Item :=
  [.option .support ⟨"help", rfl⟩, .path ⟨"a.json", rfl⟩, .flag .keepDeadBindings,
    .option .support ⟨"-h", rfl⟩, .path ⟨"build", rfl⟩, .flag .hideTimers]

theorem readRequest_reads_items_mixedItems :
    readRequest ["build", "--runtime", "help", "a.json", "--no-dce", "--runtime", "-h", "build",
        "--hide-timers"] =
      .ok (.build [⟨"a.json"⟩, ⟨"build"⟩], { support := some "-h" }) ∧
    flags ["rinhajs", "build", "--runtime", "help", "a.json", "--no-dce", "--runtime", "-h",
      "build", "--hide-timers"] = [.keepDeadBindings, .hideTimers] := by
  have spells : Spells (buildName :: mixedItems.flatMap Item.arguments)
    (.build (mixedItems.filterMap Item.path?)) mixedItems := .build (List.cons_ne_nil _ _)
  obtain ⟨splits, accepts, -⟩ :=
    readRequest_reads_items (buildName :: mixedItems.flatMap Item.arguments)
  have accepted := accepts _ _ spells
  obtain ⟨items, -, unique, -, found⟩ := splits _ _ accepted (by rintro ⟨⟩)
  obtain rfl := (unique mixedItems).mp spells.operands_eq.symm
  exact ⟨accepted, found "rinhajs" rfl⟩

end TreeScript.Command
