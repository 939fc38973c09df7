/-
This file says where scripts are written. A path leads through its components: the
root or the current directory, if it starts there, then a directory up or a name for
each piece that counts. Slashes that repeat or end a path add nothing to them, and
neither do dots behind the first piece.

The script of a file stands in the directory for scripts, or beside the file, under
one more name. That name has the stem of the file and the extension of scripts, so
whatever the path of the input is like, no script leaves its directory.
-/

import TreeScript.Proofs.Path.Pieces

namespace TreeScript

namespace Path

/-! ### Components -/

inductive Component where
  | root
  | current
  | up
  | name (text : String)
deriving DecidableEq, Repr

/-- The component that a piece stands for, wherever it is. -/
def component? (piece : String) : Option Component :=
  if piece = "" ∨ piece = "." then none
  else if piece = ".." then some .up
  else some (.name piece)

/-- Where a path starts, by its first piece. -/
def lead (first : Option String) : List Component :=
  if first = some "" then [.root] else if first = some "." then [.current] else []

/-- The components of pieces, the first of which is empty only in front of a slash. -/
def listing (pieces : List String) : List Component :=
  lead pieces.head? ++ pieces.filterMap component?

/-- The components of a path. The empty path has none. -/
def components (path : Path) : List Component :=
  if path.text = "" then [] else listing path.pieces

theorem isTrivial_iff {piece : String} : isTrivial piece = true ↔ piece = "" ∨ piece = "." := by
  simp [isTrivial]

theorem IsName.not_trivial {name : String} (isName : IsName name) : ¬(name = "" ∨ name = ".") := by
  rw [← isTrivial_iff, isName.counts]
  exact Bool.false_ne_true

theorem component?_of_isName {name : String} (isName : IsName name) :
    component? name = some (.name name) := by
  rw [component?, if_neg isName.not_trivial, if_neg isName.notUp]

theorem lead_of_isName {name : String} (isName : IsName name) : lead (some name) = [] := by
  have counts := isName.not_trivial
  rw [not_or] at counts
  simp [lead, counts]

/-- Pieces that count for nothing stand for nothing. -/
theorem listing_dropTrivialEnd (pieces : List String) :
    listing (dropTrivialEnd pieces) = listing pieces := by
  have sameStart : (dropTrivialEnd pieces).head? = pieces.head? := by cases pieces <;> rfl
  obtain ⟨ends, whole, trivial⟩ := exists_dropTrivialEnd_append pieces
  have nothing : ends.filterMap component? = [] :=
    List.filterMap_eq_nil_iff.mpr fun piece member =>
      if_pos (isTrivial_iff.mp (trivial piece member))
  rw [listing, listing, sameStart, ← whole, List.filterMap_append, nothing, List.append_nil, whole]

example : components ⟨"/a/../.b//./c.d/."⟩ = [.root, .name "a", .up, .name ".b", .name "c.d"] := by
  decide

theorem listing_concat (around : List String) {name : String} (isName : IsName name) :
    listing (around ++ [name]) = listing around ++ [.name name] := by
  have sameStart : lead (around ++ [name]).head? = lead around.head? := by
    cases around with
    | nil => exact lead_of_isName isName
    | cons => rfl
  have last : [name].filterMap component? = [.name name] := by
    rw [List.filterMap_cons_some (component?_of_isName isName), List.filterMap_nil]
  rw [listing, listing, sameStart, List.filterMap_append, last, List.append_assoc]

theorem components_of_pieces {path : Path} {around : List String} (pieces : path.pieces = around)
    (some : around ≠ [""]) : path.components = listing around := by
  rw [components, if_neg, pieces]
  intro empty
  obtain ⟨text⟩ := path
  subst empty
  exact some pieces.symm

theorem concat_ne_empty (around : List String) {name : String} (isName : IsName name) :
    around ++ [name] ≠ [""] := by
  intro same
  have last := congrArg List.getLast? same
  rw [List.getLast?_concat] at last
  exact isName.not_trivial (.inl (Option.some.inj last))

/-! ### Names in directories -/

/-- A file stands in the parent of its path. -/
theorem exists_parent {path : Path} {around : List String} {name : String} (isName : IsName name)
    (body : dropTrivialEnd path.pieces = around ++ [name]) :
    ∃ directory, path.parent? = some directory ∧ directory.components = listing around := by
  have noSlash (piece : String) (member : piece ∈ dropTrivialEnd around) : '/' ∉ piece.toList := by
    have inBody : piece ∈ dropTrivialEnd path.pieces :=
      body ▸ List.mem_append_left _ (mem_of_mem_dropTrivialEnd member)
    exact slash_notMem (mem_of_mem_dropTrivialEnd inBody)
  rw [parent?, body, if_neg (concat_ne_empty around isName), List.dropLast_concat,
    ← listing_dropTrivialEnd around]
  refine ⟨_, rfl, ?_⟩
  split
  next root =>
    rw [root]
    decide
  next notRoot =>
    cases around with
    | nil => rfl
    | cons => exact components_of_pieces (pieces_ofPieces (List.cons_ne_nil _ _) noSlash) notRoot

/-- A name is added behind the components of a directory. -/
theorem exists_join (path : Path) {name : String} (noSlash : '/' ∉ name.toList) :
    ∃ around, (path.join name).pieces = around ++ [name] ∧ path.components = listing around := by
  obtain ⟨around, joined, ⟨same, some⟩ | more⟩ := pieces_join path noSlash
  · exact ⟨around, joined, by rw [components, if_neg some, same]⟩
  · refine ⟨around, joined, ?_⟩
    cases around with
    | nil =>
      -- Only the empty path has a single empty piece.
      rw [← ofPieces_pieces path, more]
      rfl
    | cons first rest =>
      rw [components_of_pieces more (by simp), listing, listing, List.filterMap_append]
      exact congrArg _ (List.append_nil _)

/-! ### Stems -/

theorem stem_ne_empty {name : String} (isName : IsName name) : stem name ≠ "" := by
  have notEmpty : name ≠ "" := fun empty => isName.not_trivial (.inl empty)
  rw [stem, divide]
  split
  · exact notEmpty
  next rest _ =>
    split
    · exact notEmpty
    next some => simpa using some

/-- A name is divided where an extension was added to it. -/
theorem divide_append {stem extension : String} (notEmpty : stem ≠ "")
    (noDot : '.' ∉ extension.toList) :
    divide (stem ++ "." ++ extension) = (stem, some extension) := by
  have back : (stem ++ "." ++ extension).toList.reverse =
      extension.toList.reverse ++ '.' :: stem.toList.reverse := by simp
  have letters : ∀ c ∈ extension.toList.reverse, decide (c ≠ '.') = true := by
    intro c member
    rw [List.mem_reverse] at member
    exact decide_eq_true fun dot => noDot (dot ▸ member)
  have rest : stem.toList.reverse.isEmpty = false := by simpa using notEmpty
  rw [divide, back, List.takeWhile_append_of_pos letters, List.dropWhile_append_of_pos letters]
  simp [rest]

theorem divide_scriptName {name : String} (isName : IsName name) :
    divide (scriptName name) = (stem name, some Settings.outputExtension) :=
  divide_append (stem_ne_empty isName) (by decide)

end Path

namespace Settings

open TreeScript.Path

/-- The script of a file is one more name in the directory for scripts, or in the directory of the
file if there is no such directory. -/
theorem exists_outputPath (settings : Settings) {input : Path} {around : List String}
    {name : String} (isName : IsName name) (body : dropTrivialEnd input.pieces = around ++ [name])
    (notDot : stem name ≠ ".") :
    ∃ directory before, settings.outDir.or input.parent? = some directory ∧
      directory.components = listing before ∧
      (settings.outputPath input).pieces = before ++ [scriptName name] := by
  have renamed := pieces_withExtension_of_body body isName
  rw [if_neg fun dotted => notDot dotted.1] at renamed
  cases given : settings.outDir with
  | none =>
    obtain ⟨directory, parent, inside⟩ := exists_parent isName body
    refine ⟨directory, around, parent, inside, ?_⟩
    rw [outputPath, given]
    exact renamed
  | some directory =>
    have last : scriptName name ∈ around ++ [scriptName name] := by simp
    obtain ⟨before, joined, inside⟩ := exists_join directory (slash_notMem (renamed ▸ last))
    refine ⟨directory, before, rfl, inside, ?_⟩
    rw [outputPath, given, fileName?_of_pieces renamed (isName_scriptName name)]
    exact joined

/-- No script leaves its directory: it has one component more than the directory for scripts, or
than the directory of its input if there is no such directory. That component is the stem of the
input with the extension of scripts. -/
theorem outputPath_inside (settings : Settings) {input : Path} {stem : String}
    (named : input.stem? = some stem) (notDot : stem ≠ ".") :
    (∃ directory, settings.outDir.or input.parent? = some directory ∧
        (settings.outputPath input).components =
          directory.components ++ [.name (stem ++ ".js")]) ∧
      (settings.outputPath input).stem? = some stem ∧
      (settings.outputPath input).extension? = some "js" := by
  obtain ⟨name, isFile, rfl⟩ := Option.map_eq_some_iff.mp named
  obtain ⟨isName, around, body⟩ := fileName?_eq_some_iff.mp isFile
  have isScript := isName_scriptName name
  obtain ⟨directory, before, chosen, inside, pieces⟩ :=
    settings.exists_outputPath isName body notDot
  have scriptFile := fileName?_of_pieces pieces isScript
  refine ⟨⟨directory, chosen, ?_⟩, ?_, ?_⟩
  · rw [components_of_pieces pieces (concat_ne_empty before isScript),
      listing_concat before isScript, inside, scriptName, String.append_assoc]
    rfl
  · rw [stem?, scriptFile, Option.map_some, divide_scriptName isName]
    rfl
  · rw [extension?, scriptFile, Option.bind_some, divide_scriptName isName]
    rfl

/-- A hidden file with two dots more, behind needless slashes and dots. -/
theorem outputPath_inside_hiddenFile :
    Path.stem? ⟨".//x/..//.cache.v2.json//."⟩ = some ".cache.v2" ∧ ".cache.v2" ≠ "." ∧
      (outputPath { outDir := some ⟨"/out/."⟩ } ⟨".//x/..//.cache.v2.json//."⟩).components =
        [.root, .name "out", .name ".cache.v2.js"] ∧
      (outputPath {} ⟨".//x/..//.cache.v2.json//."⟩).components =
        [.current, .name "x", .up, .name ".cache.v2.js"] := by
  have named : Path.stem? ⟨".//x/..//.cache.v2.json//."⟩ = some ".cache.v2" := by decide
  have notDot : ".cache.v2" ≠ "." := by decide
  obtain ⟨⟨directory, chosen, inside⟩, -, -⟩ :=
    outputPath_inside { outDir := some ⟨"/out/."⟩ } named notDot
  obtain ⟨⟨parent, beside, next⟩, -, -⟩ := outputPath_inside {} named notDot
  refine ⟨named, notDot, ?_, ?_⟩
  · cases chosen
    rw [inside]
    decide
  · have found : Path.parent? ⟨".//x/..//.cache.v2.json//."⟩ = some ⟨".//x/.."⟩ := by decide
    rw [next, Option.some.inj (beside.symm.trans found)]
    decide

end Settings

end TreeScript
