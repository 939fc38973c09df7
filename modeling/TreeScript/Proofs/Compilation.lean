/-
This file shows that compilation fails only on sources that cannot be decoded.
Emission has an error for every link that leads out of the arena, but no such
link exists: whatever was eliminated and wherever the root was moved meanwhile,
every id of the arena unfolds, so the only id that can be missing is a root that
was put there from outside. Compilation never does that. It decodes, lays the
program out, eliminates at most once and emits, and decoding is the only one of
these steps with an error of its own.
-/

import TreeScript.Compiler
import TreeScript.Proofs.Script.Translation

namespace TreeScript

open Script

/-! ### Emission -/

namespace TermTree

variable {term : Term} {tree : TermTree}

theorem Reached.exists_emitTree_eq_ok (reached : Reached term tree) (purity : PurityTable)
    (options : Options) : ∃ script, emitTree tree purity options = .ok script := by
  obtain ⟨unfolding, unfolds, rooted, distinct⟩ := reached.unfolds
  exact ⟨_, unfolds.emitTree_eq rooted distinct purity options⟩

/-- A root outside the arena is the first thing that emission misses. -/
theorem emitTree_of_size_le_root (outside : tree.size ≤ tree.root) (purity : PurityTable)
    (options : Options) : emitTree tree purity options = .error ⟨tree.root, .emission⟩ := by
  have missing : tree.get? tree.root = none := Array.getElem?_eq_none outside
  have failed (context : Context) (same : context.tree = tree) :
      context.emit (tree.size + 1) .statement tree.root {} = .error ⟨tree.root, .emission⟩ := by
    rw [Context.emit, Context.node, same, missing]
    rfl
  show (Context.emit _ _ _ _ {} >>= _) = _
  rw [failed _ rfl]
  rfl

theorem Rerooted.emitTree_eq_error_iff (rerooted : Rerooted term tree) (purity : PurityTable)
    (options : Options) :
    (∃ missing, emitTree tree purity options = .error missing) ↔ tree.size ≤ tree.root := by
  constructor
  · rintro ⟨missing, failed⟩
    by_contra inRange
    obtain ⟨script, emitted⟩ := Reached.exists_emitTree_eq_ok
      (rerooted.reached (Nat.lt_of_not_le inRange)) purity options
    cases failed.symm.trans emitted
  · exact fun outside => ⟨_, emitTree_of_size_le_root outside purity options⟩

theorem reached_optimize (term : Term) (eliminateDead : Bool) :
    Reached term ((ofTerm term).optimize eliminateDead).tree := by
  cases eliminateDead with
  | false => exact .laidOut
  | true => exact .eliminated .laidOut

end TermTree

/-! ### Compilation -/

theorem Decoding.Error.category_ne_compiler (error : Decoding.Error) :
    error.diagnostic.category ≠ .compiler := by
  rw [Decoding.Error.diagnostic]
  split <;> rintro ⟨⟩

namespace Settings

variable {settings : Settings} {source : String}

theorem compile_of_parse_eq_error {error : Decoding.Error}
    (refused : Program.parse source = .error error) :
    settings.compile source = .error (.decoding error) := by
  rw [compile, refused]
  rfl

theorem exists_compile_eq_ok {program : Program} (decoded : Program.parse source = .ok program) :
    ∃ compiled, settings.compile source = .ok compiled := by
  let optimized := (TermTree.ofTerm program.expression).optimize settings.eliminateDead
  obtain ⟨script, emitted⟩ :=
    (TermTree.reached_optimize program.expression settings.eliminateDead).exists_emitTree_eq_ok
      optimized.purity settings.scriptOptions
  refine ⟨⟨script.source, optimized.warnings, script.memoizedCalls⟩, ?_⟩
  rw [compile, decoded]
  show (Except.mapError CompileError.missing (emitTree _ _ _) >>= _) = _
  rw [emitted]
  rfl

theorem compile_eq_error_iff {error : CompileError} :
    settings.compile source = .error error ↔
      ∃ refusal, Program.parse source = .error refusal ∧ error = .decoding refusal := by
  constructor
  · intro failed
    cases parsed : Program.parse source with
    | error refusal =>
      rw [compile_of_parse_eq_error parsed] at failed
      cases failed
      exact ⟨refusal, rfl, rfl⟩
    | ok program =>
      obtain ⟨compiled, succeeded⟩ := exists_compile_eq_ok parsed
      cases failed.symm.trans succeeded
  · rintro ⟨refusal, refused, rfl⟩
    exact compile_of_parse_eq_error refused

theorem compile_eq_ok_iff :
    (∃ compiled, settings.compile source = .ok compiled) ↔
      ∃ program, Program.parse source = .ok program := by
  constructor
  · rintro ⟨compiled, succeeded⟩
    cases parsed : Program.parse source with
    | error refusal => cases succeeded.symm.trans (compile_of_parse_eq_error parsed)
    | ok program => exact ⟨program, rfl⟩
  · rintro ⟨program, decoded⟩
    exact exists_compile_eq_ok decoded

/-- A source compiles exactly if it can be decoded, and what is reported of one that does not is
the decoding error and never an internal one. The reason lies in emission: in a tree that was
eliminated and rerooted in any order, it misses a term only if the root is outside the arena. -/
theorem compile_fails_iff_undecoded :
    (∀ (settings : Settings) (source : String),
      ((∃ compiled, settings.compile source = .ok compiled) ↔
        ∃ program, Program.parse source = .ok program) ∧
      (∀ error, settings.compile source = .error error ↔
        ∃ refusal, Program.parse source = .error refusal ∧ error = .decoding refusal) ∧
      ∀ error, settings.compile source = .error error →
        error.diagnostic.category ≠ .compiler) ∧
    ∀ (term : Term) (tree : TermTree), TermTree.Rerooted term tree →
      ∀ (purity : PurityTable) (options : Options),
        (∃ missing, emitTree tree purity options = .error missing) ↔ tree.size ≤ tree.root := by
  refine ⟨fun settings source => ⟨compile_eq_ok_iff, fun error => compile_eq_error_iff, ?_⟩,
    fun term tree rerooted => rerooted.emitTree_eq_error_iff⟩
  intro error failed
  obtain ⟨refusal, -, rfl⟩ := compile_eq_error_iff.mp failed
  exact refusal.category_ne_compiler

/-- A binding that elimination takes out. -/
def spareBinding : Term :=
  .letIn "spare" (.int 1) (.int 2)

theorem compile_fails_iff_undecoded_spareBinding :
    (∃ missing, emitTree { (TermTree.ofTerm spareBinding).eliminate.1 with root := 3 } {} {} =
      .error missing) ∧
    ¬ ∃ missing, emitTree { (TermTree.ofTerm spareBinding).eliminate.1 with root := 1 } {} {} =
      .error missing := by
  have eliminated : TermTree.Rerooted spareBinding (TermTree.ofTerm spareBinding).eliminate.1 :=
    .eliminated .laidOut (by decide)
  have misses := compile_fails_iff_undecoded.2 spareBinding
  exact ⟨(misses _ (eliminated.rooted 3) {} {}).mpr (by decide),
    fun missed => absurd ((misses _ (eliminated.rooted 1) {} {}).mp missed) (by decide)⟩

end Settings

end TreeScript
