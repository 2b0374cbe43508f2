import Recheck.Proofs.Session.Scope

/-!
# When every file is checked

A file with global impact can matter to files that do not refer to it. The session decides on the flags that
the store has after the build, and asks for them at the seeds only. So a file with global impact makes a
cycle check everything when it is a seed and still has that impact (`escalates_at_seeds`). One that a change
only reaches does not, nor does one that is gone, nor one that lost its impact by the change
(`escalation_fails`).
-/

set_option autoImplicit false

namespace Recheck

namespace World

variable {w : World}

/-- The checked files that have global impact. -/
def checkedGlobals (w : World) : List Path :=
  ((w.program.units.filter fun u => u.hasGlobalImpact).map (·.path)).filter w.result.checkedFiles.contains

/-- The files with global impact in the last program, and what became of them. -/
def formerGlobals (w : World) : List (SourceUnit × Option SourceUnit) :=
  match w.session.program? with
  | none => []
  | some old => (old.units.filter (·.hasGlobalImpact)).map fun u => (u, w.program.unit? u.path)

/-- The files with global impact that left the program. -/
def lostGlobals (w : World) : List Path :=
  (w.formerGlobals.filter fun (_, after) => after.isNone).map (·.1.path)

/-- The files that had global impact and have another text now. -/
def editedGlobals (w : World) : List Path :=
  (w.formerGlobals.filter fun (before, after) => after.any (·.text ≠ before.text)).map (·.1.path)

theorem hasGlobalImpact_noted (h : w.Sound) {unit : SourceUnit} (hu : unit ∈ w.program.units) :
    w.noted.hasGlobalImpact unit.path = unit.hasGlobalImpact :=
  Session.hasGlobalImpact_noteDependencies (closed_program h) hu BEq.rfl
    (contains_built_of_contains ((closed_program h).contains_iff.mpr ⟨unit, hu, BEq.rfl⟩))

theorem fullCheck_of_seed (h : w.Sound) {unit : SourceUnit} (hu : unit ∈ w.program.units)
    (hglobal : unit.hasGlobalImpact = true) (hseed : w.seeds.contains unit.path = true) :
    w.result.fullCheck = true := by
  obtain ⟨q, hq, hp⟩ := List.contains_iff_exists_mem_beq.mp hseed
  refine (fullCheck_result h).mpr ⟨q, hq, ?_⟩
  rw [← Store.hasGlobalImpact_congr _ hp, hasGlobalImpact_noted h hu, hglobal]

/-- A file whose unit is not the one of the last program was parsed. -/
theorem contains_parsed_of_ne (h : w.Sound) {old : Program} (hold : w.session.program? = some old)
    {path : Path} {before unit : SourceUnit} (hbefore : old.unit? path = some before)
    (hunit : w.program.unit? path = some unit) (hne : unit ≠ before) : w.parsed.contains path = true := by
  obtain ⟨k, hm, hk⟩ := Dict.exists_mem_of_get? hunit
  obtain ⟨hfound, hanswer⟩ := (Session.mem_files_build (Files.finite_toHost w.files)).mp hm
  rcases Session.answer_eq_some_iff.mp hanswer with hu | ⟨hu, text, ht, _⟩
  -- A unit that was in the store is the one of the last program.
  · obtain ⟨key, hkey, program, hprogram, hsame⟩ := h.session.current.of_unit? hu
    rw [hold] at hprogram
    cases hprogram
    have hkept : old.unit? key = some before := (old.files.get?_congr (BEq.trans hkey hk)).trans hbefore
    exact absurd (hsame before hkept).symm hne
  · refine List.contains_iff_exists_mem_beq.mpr ⟨k, ?_, BEq.symm hk⟩
    rw [mem_parsed]
    unfold Session.parsed
    rw [List.mem_filter, hu, ht]
    exact ⟨hfound, rfl⟩

/-- **A seed that is flagged makes the cycle check everything, and nothing else does.** A file of the program is
flagged for what it is now, so a seed with global impact is enough, and a file with global impact whose text
changed is enough unless it lost the impact. -/
theorem escalates_at_seeds (project : Project) (lint? : Option LintConfig) (files : Files)
    (events : List Event) :
    let w := (World.start project lint? files).after events
    (w.result.fullCheck = true ↔ ∃ p ∈ w.seeds, w.noted.hasGlobalImpact p = true) ∧
      (∀ unit ∈ w.program.units, unit.hasGlobalImpact = true → w.seeds.contains unit.path = true →
        w.result.fullCheck = true) ∧
      ∀ old, w.session.program? = some old → ∀ path before unit,
        old.unit? path = some before → before.hasGlobalImpact = true →
        w.program.unit? path = some unit → unit.text ≠ before.text → unit.hasGlobalImpact = true →
        w.result.fullCheck = true := by
  intro w
  have h := sound_after project lint? files events
  refine ⟨fullCheck_result h, fun unit hu => fullCheck_of_seed h hu, ?_⟩
  intro old hold path before unit hbefore _ hunit htext hglobal
  have hparsed : w.parsed.contains path = true :=
    contains_parsed_of_ne h hold hbefore hunit fun he => htext (congrArg SourceUnit.text he)
  obtain ⟨hmem, hpath⟩ := (closed_program h).unit?_iff.mp hunit
  refine fullCheck_of_seed h hmem hglobal ?_
  rw [List.contains_congr hpath]
  unfold seeds
  simp [List.contains_append, hparsed]

/-! ## What does not escalate -/

/-- The file with global impact stays as it is, and one that it refers to changes. -/
def changedBelow : World :=
  (World.start (.ofRoots ⟨"/p.json"⟩ [⟨"/a.ts"⟩, ⟨"/b.ts"⟩, ⟨"/g.ts"⟩] .standard) none .empty).after
    [.write ⟨"/a.ts"⟩ "export \x7b\x7d", .write ⟨"/b.ts"⟩ "export \x7b\x7d",
      .write ⟨"/g.ts"⟩ "import './a';declare global \x7b\x7d", .cycle,
      .write ⟨"/a.ts"⟩ "export \x7b\x7d;", .invalidated [⟨"/a.ts"⟩] []]

/-- The file with global impact is removed. -/
def removed : World :=
  (World.start (.ofRoots ⟨"/p.json"⟩ [⟨"/g.ts"⟩, ⟨"/m.ts"⟩] .standard) none .empty).after
    [.write ⟨"/g.ts"⟩ "var g", .write ⟨"/m.ts"⟩ "export \x7b\x7d", .cycle, .delete ⟨"/g.ts"⟩,
      .invalidated [] [⟨"/g.ts"⟩]]

/-- The file with global impact becomes a module. -/
def becameModule : World :=
  (World.start (.ofRoots ⟨"/p.json"⟩ [⟨"/g.ts"⟩, ⟨"/m.ts"⟩] .standard) none .empty).after
    [.write ⟨"/g.ts"⟩ "var g", .write ⟨"/m.ts"⟩ "export \x7b\x7d", .cycle,
      .write ⟨"/g.ts"⟩ "export \x7b\x7d", .invalidated [⟨"/g.ts"⟩] []]

set_option maxRecDepth 100000 in
/-- A checked file with global impact, one that left the program, and one with another text: neither makes a
cycle check everything in all histories. -/
theorem escalation_fails :
    (changedBelow.checkedGlobals = [⟨"/g.ts"⟩] ∧ changedBelow.result.fullCheck = false) ∧
      (removed.lostGlobals = [⟨"/g.ts"⟩] ∧ removed.result.fullCheck = false) ∧
      becameModule.editedGlobals = [⟨"/g.ts"⟩] ∧ becameModule.result.fullCheck = false := by
  refine ⟨?_, ?_, ?_⟩ <;> decide +kernel

end World

end Recheck
