import Recheck.Proofs.Lint.Imports
import Recheck.Proofs.Session.Freshness
import Recheck.Proofs.Session.Marks

/-!
# What a mark is worth

A marked file passed in some cycle with the unit that it has now. A rule that sees the file alone finds nothing in it
since, but its imports may have come to stand for other files when files were made or deleted elsewhere, and no
notification about those takes the mark away (`mark_outlives_target`). That is the only way for a mark to be wrong
(`marked_passed`).
-/

set_option autoImplicit false

namespace Recheck

namespace World

open Lint (failuresIn)

/-- **A marked file passed as it is, and fails now at most by its imports.** After any history and a cycle, each file
of the program with a mark was linted without a failure by this cycle or an earlier one, with the unit that it has
now, and nothing has hit its record since. In the program of this cycle it fails by the rule about imports only, and
exactly if that is run and an import brings in what an earlier one does; not if all stand for the files that they
stood for when the file passed. -/
theorem marked_passed (project : Project) (config : LintConfig) (files : Files) (events : List Event)
    {path : Path} {unit : SourceUnit} (hm : (path, unit) ∈
      ((start project (some config) files).after events).program.files.entries)
    (hmark : ((start project (some config) files).after (events ++ [.cycle])).session.store.isLinted path = true) :
    let w := (start project (some config) files).after events
    ∃ passed, (start project (some config) files).Since (events ++ [.cycle])
        (fun v => v.program = passed ∧ unit ∈ v.due ∧ failuresIn config passed unit = [])
        (fun v event => event.hits v path = false) ∧
      (∀ f ∈ failuresIn config w.program unit, f.rule = Lint.Rule.noDuplicateImports.name) ∧
      (failuresIn config w.program unit = [] ↔
        config.allow.contains Lint.Rule.noDuplicateImports.name = true ∨ Lint.ImportsApart w.program unit) ∧
      ((∀ d ∈ Lint.topLevelImports unit,
        w.program.target? unit.path d.source.value = passed.target? unit.path d.source.value) →
          failuresIn config w.program unit = []) := by
  intro w
  have hstart := Sound.start project (some config) files
  have hs : w.Sound := hstart.after events
  rw [isLinted_iff_cleanSince] at hmark
  obtain ⟨before, later, hsplit, ⟨passing, hdue, hpath, hclean⟩, hquiet⟩ := hmark
  have hmissed := fun mid e rest hmid => (hquiet mid e rest hmid).2
  -- What passed is still in the store, and so it is the unit of the program.
  have hpassing : (((start project (some config) files).after before).program).unit? path = some passing :=
    (closed_program (hstart.after before)).unit?_iff.mpr ⟨(Session.due_sublist ..).mem hdue, hpath⟩
  have hheld : ((start project (some config) files).after (events ++ [.cycle])).session.store.unit? path =
      some passing :=
    unit?_of_since hstart ⟨before, later, hsplit, hpassing, hmissed⟩
  have hunit : w.program.unit? path = some unit := Dict.get?_of_mem (closed_program hs).distinct hm BEq.rfl
  rw [after_append_singleton, unit?_cycle hs, hunit, Option.some_or, Option.some.injEq] at hheld
  subst hheld
  exact ⟨_, ⟨before, later, hsplit, ⟨rfl, hdue, hclean⟩, hmissed⟩, Lint.failuresIn_of_passed hclean⟩

/-- A file imports a file and the index file of a directory by the same name. The first one is deleted. -/
def targetDeleted : List Event :=
  [.write ⟨"/a.ts"⟩ "import './d';import './d/index'", .write ⟨"/d.ts"⟩ "export \x7b\x7d",
    .write ⟨"/d/index.ts"⟩ "export \x7b\x7d", .cycle, .delete ⟨"/d.ts"⟩, .invalidated [] [⟨"/d.ts"⟩]]

/-- A new session that lints one file. -/
def linting : World := start (.ofRoots ⟨"/p.json"⟩ [⟨"/a.ts"⟩] .standard) (some .standard) .empty

set_option maxRecDepth 100000 in
theorem isLinted_targetDeleted :
    ((linting.after targetDeleted).step .cycle).session.store.isLinted ⟨"/a.ts"⟩ = true := by decide +kernel

set_option maxRecDepth 100000 in
theorem marked_passed_targetDeleted :
    ∃ unit, (⟨"/a.ts"⟩, unit) ∈ (linting.after targetDeleted).program.files.entries ∧
      ∃ passed, linting.Since (targetDeleted ++ [.cycle])
        (fun v => v.program = passed ∧ unit ∈ v.due ∧ failuresIn .standard passed unit = [])
        fun v event => event.hits v ⟨"/a.ts"⟩ = false := by
  have hkeys : (linting.after targetDeleted).program.files.keys = [⟨"/a.ts"⟩, ⟨"/d/index.ts"⟩] := by decide +kernel
  have hmark : (linting.after (targetDeleted ++ [.cycle])).session.store.isLinted ⟨"/a.ts"⟩ = true := by
    rw [after_append_singleton]
    exact isLinted_targetDeleted
  have hkey : (⟨"/a.ts"⟩ : Path) ∈ (linting.after targetDeleted).program.files.keys := by simp [hkeys]
  obtain ⟨⟨path, unit⟩, hm, hpath⟩ := List.mem_map.mp hkey
  obtain rfl : path = ⟨"/a.ts"⟩ := hpath
  have hpassed := marked_passed (.ofRoots ⟨"/p.json"⟩ [⟨"/a.ts"⟩] .standard) .standard .empty targetDeleted hm hmark
  exact ⟨unit, hm, hpassed.imp fun _ h => h.1⟩

set_option maxRecDepth 100000 in
/-- The deletion is reported. Both imports stand for the index file now, and the mark is still there. -/
theorem mark_outlives_target :
    linting.WellReported (targetDeleted ++ [.cycle]) ∧
      ((linting.after targetDeleted).step .cycle).session.store.isLinted ⟨"/a.ts"⟩ = true ∧
      (Lint.failuresOf .standard (linting.after targetDeleted).program ⟨"/a.ts"⟩).map (·.rule) =
        ["no-duplicate-imports"] := by
  exact ⟨by decide +kernel, isLinted_targetDeleted, by decide +kernel⟩

end World

end Recheck
