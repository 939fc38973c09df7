/-
This file relates what is done to the text of a path to its pieces. A path and its
pieces determine each other, as long as no piece holds a slash, so a path is best
known by its pieces: whether it starts at the root, what another extension does to
the last piece that counts, and what it means to add a name to a directory.
-/

import TreeScript.Settings.Basic
import Mathlib.Data.List.DropRight

namespace TreeScript.Path

/-! ### Texts and pieces -/

theorem split_ne_nil (chars : List Char) : split chars ≠ [] := by
  cases chars with
  | nil => rintro ⟨⟩
  | cons c chars =>
    rw [split]
    split
    · rintro ⟨⟩
    · split <;> rintro ⟨⟩

theorem split_eq_splitOn (chars : List Char) : split chars = chars.splitOn '/' := by
  induction chars with
  | nil => rfl
  | cons c chars inductionHypothesis =>
    have some := split_ne_nil chars
    rw [split, List.splitOn_cons_eq_if_modifyHead, ← inductionHypothesis]
    cases pieces : split chars with
    | nil => exact absurd pieces some
    | cons => simp

theorem pieces_eq (path : Path) :
    path.pieces = (path.text.toList.splitOn '/').map String.ofList := by
  rw [pieces, split_eq_splitOn]

theorem pieces_ne_nil (path : Path) : path.pieces ≠ [] := by
  rw [pieces, Ne, List.map_eq_nil_iff]
  exact split_ne_nil _

/-- A path is known by its pieces. -/
theorem ofPieces_pieces (path : Path) : ofPieces path.pieces = path := by
  have text : ("/".intercalate path.pieces).toList = path.text.toList := by
    rw [String.toList_intercalate, pieces_eq, List.map_map]
    have id : (String.toList ∘ String.ofList) = id := funext fun _ => String.toList_ofList
    rw [id, List.map_id]
    exact List.intercalate_splitOn '/'
  rw [ofPieces, String.toList_injective text]

theorem pieces_ofPieces {pieces : List String} (some : pieces ≠ [])
    (noSlash : ∀ piece ∈ pieces, '/' ∉ piece.toList) : (ofPieces pieces).pieces = pieces := by
  rw [pieces_eq, ofPieces, String.toList_intercalate]
  have apart : ∀ chars ∈ pieces.map String.toList, '/' ∉ chars := by simpa using noSlash
  have split := List.splitOn_intercalate '/' apart (by simpa using some)
  rw [show "/".toList = ['/'] from rfl, split, List.map_map]
  have id : (String.ofList ∘ String.toList) = id := funext fun _ => String.ofList_toList
  rw [id, List.map_id]

theorem slash_notMem {path : Path} {piece : String} (member : piece ∈ path.pieces) :
    '/' ∉ piece.toList := by
  have apart (chars : List Char) : ∀ piece ∈ split chars, '/' ∉ piece := by
    induction chars with
    | nil => simp [split]
    | cons c chars inductionHypothesis =>
      rw [split]
      by_cases slash : c = '/'
      · simpa [slash] using inductionHypothesis
      · cases pieces : split chars with
        | nil => simp [slash, Ne.symm slash]
        | cons => simp_all [Ne.symm slash]
  obtain ⟨chars, inside, rfl⟩ := List.mem_map.mp member
  rw [String.toList_ofList]
  exact apart _ chars inside

/-- A path starts at the root if something follows an empty first piece. -/
theorem isAbsolute_eq (path : Path) :
    path.isAbsolute = (path.pieces.dropLast.head? == some "") := by
  have iff : path.isAbsolute = true ↔ ['/'] <+: path.text.toList := String.startsWith_string_iff
  rw [Bool.eq_iff_iff, iff, pieces]
  cases path.text.toList with
  | nil => simp [split]
  | cons c chars =>
    have some := split_ne_nil chars
    rw [split]
    cases found : split chars with
    | nil => exact absurd found some
    | cons piece pieces =>
      by_cases slash : c = '/'
      · simp [slash]
      · cases pieces <;> simp [slash, Ne.symm slash]

theorem isAbsolute_of_pieces {path : Path} {around : List String} {name : String}
    (pieces : path.pieces = around ++ [name]) : path.isAbsolute = (around.head? == some "") := by
  rw [isAbsolute_eq, pieces, List.dropLast_concat]

/-! ### Names -/

/-- A piece that names something inside a directory. -/
structure IsName (piece : String) : Prop where
  counts : isTrivial piece = false
  notUp : piece ≠ ".."

theorem dropTrivialEnd_concat (around : List String) {name : String}
    (counts : isTrivial name = false) : dropTrivialEnd (around ++ [name]) = around ++ [name] := by
  cases around with
  | nil => rfl
  | cons first around => simp [dropTrivialEnd, counts]

theorem exists_dropTrivialEnd_append (pieces : List String) :
    ∃ ends, dropTrivialEnd pieces ++ ends = pieces ∧ ∀ piece ∈ ends, isTrivial piece = true := by
  cases pieces with
  | nil => exact ⟨[], rfl, List.forall_mem_nil _⟩
  | cons first rest =>
    exact ⟨rest.rtakeWhile isTrivial,
      congrArg (first :: ·) (List.rdropWhile_append_rtakeWhile (p := isTrivial)),
      fun piece member => List.mem_rtakeWhile_imp member⟩

theorem mem_of_mem_dropTrivialEnd {piece : String} {pieces : List String}
    (member : piece ∈ dropTrivialEnd pieces) : piece ∈ pieces := by
  obtain ⟨ends, whole, -⟩ := exists_dropTrivialEnd_append pieces
  rw [← whole]
  exact List.mem_append_left _ member

/-- The file name is the last piece that counts. -/
theorem fileName?_eq_some_iff {path : Path} {name : String} :
    path.fileName? = some name ↔
      IsName name ∧ ∃ around, dropTrivialEnd path.pieces = around ++ [name] := by
  rw [fileName?, ← List.getLast?_eq_some_iff]
  cases (dropTrivialEnd path.pieces).getLast? with
  | none => simp
  | some last =>
    simp only [Option.ite_none_left_eq_some, Option.some.injEq, Bool.not_eq_true,
      Bool.or_eq_false_iff, decide_eq_false_iff_not]
    constructor
    · rintro ⟨⟨counts, notUp⟩, rfl⟩
      exact ⟨⟨counts, notUp⟩, rfl⟩
    · rintro ⟨isName, rfl⟩
      exact ⟨⟨isName.counts, isName.notUp⟩, rfl⟩

theorem fileName?_of_pieces {path : Path} {around : List String} {name : String}
    (pieces : path.pieces = around ++ [name]) (isName : IsName name) :
    path.fileName? = some name :=
  fileName?_eq_some_iff.mpr ⟨isName, around, by
    rw [pieces, dropTrivialEnd_concat around isName.counts]⟩

/-- Going up is no name. -/
theorem fileName?_of_up {path : Path} {around : List String}
    (pieces : path.pieces = around ++ [".."]) : path.fileName? = none := by
  rw [fileName?, pieces, dropTrivialEnd_concat around rfl, List.getLast?_concat]
  rfl

/-- What remains of a name without its extension. -/
def stem (name : String) : String :=
  (divide name).1

theorem mem_of_mem_stem {name : String} {c : Char} (member : c ∈ (stem name).toList) :
    c ∈ name.toList := by
  rw [stem, divide] at member
  split at member
  · exact member
  next found =>
    split at member
    · exact member
    · rw [String.toList_ofList, List.mem_reverse] at member
      have inBack : c ∈ name.toList.reverse.dropWhile (· ≠ '.') := by
        rw [found]
        exact List.mem_cons_of_mem _ member
      exact List.mem_reverse.mp ((List.dropWhile_suffix _).subset inBack)

/-- The name of the script of a file. -/
def scriptName (name : String) : String :=
  stem name ++ "." ++ Settings.outputExtension

theorem isName_scriptName (name : String) : IsName (scriptName name) := by
  have last : (scriptName name).toList.getLast? = some 's' := by
    rw [scriptName, String.toList_append, List.getLast?_append]
    rfl
  have apart {piece : String} (other : piece.toList.getLast? ≠ some 's') :
      scriptName name ≠ piece := by
    rintro rfl
    exact other last
  refine ⟨?_, apart (by decide)⟩
  rw [isTrivial, decide_eq_false (apart (by decide)), decide_eq_false (apart (by decide))]
  rfl

theorem slash_notMem_scriptName {name : String} (noSlash : '/' ∉ name.toList) :
    '/' ∉ (scriptName name).toList := by
  have extension : '/' ∉ ("." ++ Settings.outputExtension).toList := by decide
  rw [scriptName, String.append_assoc, String.toList_append, List.mem_append]
  exact not_or_intro (mt mem_of_mem_stem noSlash) extension

theorem scriptName_inj {name other : String} :
    scriptName name = scriptName other ↔ stem name = stem other := by
  rw [scriptName, scriptName, String.append_assoc, String.append_assoc, String.append_left_inj]

/-- Another extension changes the name at the end and drops what follows it. -/
theorem pieces_withExtension_of_body {path : Path} {around : List String} {name : String}
    (body : dropTrivialEnd path.pieces = around ++ [name]) (isName : IsName name) :
    (path.withExtension Settings.outputExtension).pieces = around ++
      [if stem name = "." ∧ ¬path.hasTrivialEnd then ".." else scriptName name] := by
  have noSlash (piece : String) (member : piece ∈ around ++ [name]) : '/' ∉ piece.toList := by
    rw [← body] at member
    exact slash_notMem (mem_of_mem_dropTrivialEnd member)
  have stemmed : path.stem? = some (stem name) := by
    rw [stem?, fileName?_eq_some_iff.mpr ⟨isName, around, body⟩]
    rfl
  have renamed : path.withExtension Settings.outputExtension = ofPieces (around ++
      [if stem name = "." ∧ ¬path.hasTrivialEnd then ".." else scriptName name]) := by
    rw [withExtension, stemmed, body, List.dropLast_concat]
    rfl
  rw [renamed]
  refine pieces_ofPieces (by simp) fun piece member => ?_
  rcases List.mem_append.mp member with before | last
  · exact noSlash piece (List.mem_append_left _ before)
  · rw [List.mem_singleton.mp last]
    split
    · decide
    · exact slash_notMem_scriptName (noSlash name (by simp))

theorem pieces_withExtension {path : Path} {around : List String} {name : String}
    (pieces : path.pieces = around ++ [name]) (isName : IsName name) :
    (path.withExtension Settings.outputExtension).pieces =
      around ++ [if stem name = "." then ".." else scriptName name] := by
  have body : dropTrivialEnd path.pieces = around ++ [name] := by
    rw [pieces, dropTrivialEnd_concat around isName.counts]
  have tight : path.hasTrivialEnd = false := by
    rw [hasTrivialEnd, body, pieces]
    exact decide_eq_false (Nat.lt_irrefl _)
  rw [pieces_withExtension_of_body body isName]
  simp [tight]

/-! ### Names in directories -/

theorem pieces_append_slash (text rest : String) :
    pieces ⟨text ++ "/" ++ rest⟩ = pieces ⟨text⟩ ++ pieces ⟨rest⟩ := by
  have chars : (text ++ "/" ++ rest).toList = text.toList ++ '/' :: rest.toList := by simp
  rw [pieces_eq, pieces_eq, pieces_eq, chars, List.splitOn_append_cons_self, List.map_append]

theorem pieces_of_noSlash {name : String} (noSlash : '/' ∉ name.toList) :
    pieces ⟨name⟩ = [name] := by
  have single : (⟨name⟩ : Path) = ofPieces [name] := by rw [ofPieces, String.intercalate_singleton]
  rw [single]
  exact pieces_ofPieces (List.cons_ne_nil _ _) fun piece member => by
    rwa [List.mem_singleton.mp member]

/-- A name is added as one more piece; it takes the place of an empty piece at the end. -/
theorem pieces_join (path : Path) {name : String} (noSlash : '/' ∉ name.toList) :
    ∃ around, (path.join name).pieces = around ++ [name] ∧
      (path.pieces = around ∧ path.text ≠ "" ∨ path.pieces = around ++ [""]) := by
  have relative : name.startsWith "/" = false := by
    rw [Bool.eq_false_iff]
    intro leading
    exact noSlash ((String.startsWith_string_iff.mp leading).subset (List.mem_singleton_self '/'))
  obtain ⟨text⟩ := path
  by_cases empty : text = ""
  · subst empty
    have joined : join ⟨""⟩ name = ⟨name⟩ := by simp [join]
    exact ⟨[], joined ▸ pieces_of_noSlash noSlash, .inr rfl⟩
  have joined : join ⟨text⟩ name =
      if text.endsWith "/" then ⟨text ++ name⟩ else ⟨text ++ "/" ++ name⟩ := by
    simp [join, relative, empty]
  rw [joined]
  split
  next trailing =>
    have suffix : ['/'] <:+ text.toList := by
      rw [String.endsWith_eq_endsWith_toSlice, String.Slice.endsWith_string_iff] at trailing
      simpa using trailing
    obtain ⟨front, split⟩ := suffix
    have text_eq : text = String.ofList front ++ "/" ++ "" := by
      apply String.toList_injective
      simp [← split]
    have whole : text ++ name = String.ofList front ++ "/" ++ name := by
      rw [text_eq, String.append_empty]
    refine ⟨pieces ⟨String.ofList front⟩, ?_, .inr ?_⟩
    · rw [whole, pieces_append_slash, pieces_of_noSlash noSlash]
    · rw [text_eq, pieces_append_slash]
      rfl
  next =>
    refine ⟨pieces ⟨text⟩, ?_, .inl ⟨rfl, empty⟩⟩
    rw [pieces_append_slash, pieces_of_noSlash noSlash]

theorem isAbsolute_join (path : Path) {name : String} (noSlash : '/' ∉ name.toList) :
    (path.join name).isAbsolute = path.isAbsolute := by
  obtain ⟨around, joined, ⟨same, some⟩ | more⟩ := pieces_join path noSlash
  · rw [isAbsolute_of_pieces joined, isAbsolute_eq, same]
    match around with
    | [] => rfl
    | first :: second :: rest => rfl
    | [only] =>
      have text : only = path.text := by
        rw [← ofPieces_pieces path, same, ofPieces, String.intercalate_singleton]
      simp [text, some]
  · rw [isAbsolute_of_pieces joined, isAbsolute_of_pieces more]

end TreeScript.Path
