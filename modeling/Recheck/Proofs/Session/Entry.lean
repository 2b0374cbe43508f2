import Recheck.Proofs.Session.Since

/-!
# Files that enter the program

A file that was not in the last program may be new, and it may come back: a file that leaves the program keeps its
record and its unit. A file without a unit is parsed when it enters, and what is parsed is checked. A unit that is
still there was checked when it was parsed, and nothing has hit it since (`checkedSince_of_unit?`). So an entering
file is either checked by this cycle, or was checked by an earlier one as it is now (`enters_checked`), and the
second case does occur (`entry_fails`).
-/

set_option autoImplicit false

namespace Recheck

namespace World

variable {w : World} {p : Path} {unit : SourceUnit}

/-- Some cycle checked a file with this unit, and no notification has hit its record since. -/
def CheckedSince (w : World) (events : List Event) (path : Path) (unit : SourceUnit) : Prop :=
  w.Since events (fun v => v.program.unit? path = some unit ∧ unit.path ∈ v.result.checkedFiles)
    fun v event => event.hits v path = false

/-- A cycle leaves the units that were there, and those that it parsed and checked. -/
theorem unit?_cycle_cases (h : w.Sound) (hu : (w.step .cycle).session.store.unit? p = some unit) :
    w.session.store.unit? p = some unit ∨
      w.program.unit? p = some unit ∧ unit.path ∈ w.result.checkedFiles := by
  rw [unit?_cycle h, Option.or_eq_some_iff] at hu
  rcases hu with hu | ⟨-, hheld⟩
  · cases hheld : w.session.store.unit? p with
    | some held => exact Or.inl (congrArg some (eq_of_unit?_program hu hheld).symm)
    | none =>
      obtain ⟨k, hm, hk⟩ := Dict.exists_mem_of_get? hu
      exact Or.inr ⟨hu, mem_checkedFiles_of_unread h hm ((Store.unit?_congr _ hk).trans hheld)⟩
  · exact Or.inl hheld

/-- **Every unit in the store was checked, and nothing has hit it since.** -/
theorem checkedSince_of_unit? (project : Project) (lint? : Option LintConfig) (files : Files) {events : List Event}
    (hu : ((start project lint? files).after events).session.store.unit? p = some unit) :
    (start project lint? files).CheckedSince events p unit := by
  induction events using List.reverseRecOn with
  | nil => exact nomatch hu
  | append_singleton events event ih =>
    have hs : ((start project lint? files).after events).Sound := sound_after project lint? files events
    rw [after_append_singleton] at hu
    refine since_append_singleton.mpr ?_
    by_cases hcycle : event = .cycle
    · subst hcycle
      rcases unit?_cycle_cases hs hu with hheld | hchecked
      · exact Or.inr ⟨ih hheld, Event.hits_cycle ..⟩
      · exact Or.inl ⟨rfl, hchecked⟩
    · rw [unit?_step hcycle] at hu
      split at hu
      · exact nomatch hu
      · rename_i hmissed
        exact Or.inr ⟨ih hu, Bool.eq_false_iff.mpr hmissed⟩

/-- **A file enters the program checked, or comes back as it was checked before.** Every file of the next program is
checked by the cycle, unless an earlier cycle checked it with the unit that it has now and no notification has hit
its record since; and such a file is checked again when all are, or when it leads to a seed. -/
theorem enters_checked (project : Project) (lint? : Option LintConfig) (files : Files) (events : List Event) :
    let w := (start project lint? files).after events
    ∀ path unit, (path, unit) ∈ w.program.files.entries →
      (unit.path ∈ w.result.checkedFiles ∨ (start project lint? files).CheckedSince events path unit) ∧
        (w.result.fullCheck = true ∨ (∃ p ∈ w.seeds, Leads w.program.Imports unit.path p) →
          unit.path ∈ w.result.checkedFiles) := by
  intro w path unit hm
  have hs : w.Sound := sound_after project lint? files events
  refine ⟨?_, (mem_checkedFiles_result hs (List.mem_map_of_mem (f := (·.2)) hm)).mpr⟩
  cases hu : w.session.store.unit? path with
  | none => exact Or.inl (mem_checkedFiles_of_unread hs hm hu)
  | some held =>
    obtain rfl := eq_of_unit?_program (Dict.get?_of_mem (closed_program hs).distinct hm BEq.rfl) hu
    exact Or.inr (checkedSince_of_unit? project lint? files hu)

/-- A file imports another one, does so no longer, and then again. -/
def leaveAndReturn : List Event :=
  [.write ⟨"/a.ts"⟩ "import './x'", .write ⟨"/x.ts"⟩ "export \x7b\x7d", .cycle,
    .write ⟨"/a.ts"⟩ "export \x7b\x7d", .invalidated [⟨"/a.ts"⟩] [], .cycle,
    .write ⟨"/a.ts"⟩ "import './x'", .invalidated [⟨"/a.ts"⟩] []]

def comesBack : World := (World.start (.ofRoots ⟨"/p.json"⟩ [⟨"/a.ts"⟩] .standard) none .empty).after leaveAndReturn

set_option maxRecDepth 100000 in
theorem keys_comesBack : comesBack.program.files.keys = [⟨"/a.ts"⟩, ⟨"/x.ts"⟩] := by decide +kernel

set_option maxRecDepth 100000 in
theorem checkedFiles_comesBack : comesBack.result.checkedFiles = [⟨"/a.ts"⟩] := by decide +kernel

theorem enters_checked_comesBack : ∃ unit, (⟨"/x.ts"⟩, unit) ∈ comesBack.program.files.entries ∧
    (World.start (.ofRoots ⟨"/p.json"⟩ [⟨"/a.ts"⟩] .standard) none .empty).CheckedSince leaveAndReturn
      ⟨"/x.ts"⟩ unit := by
  have hkey : (⟨"/x.ts"⟩ : Path) ∈ comesBack.program.files.keys := by simp [keys_comesBack]
  obtain ⟨⟨path, unit⟩, hm, rfl⟩ := List.mem_map.mp hkey
  refine ⟨unit, hm, ((enters_checked _ none .empty leaveAndReturn _ unit hm).1).resolve_left fun hin => ?_⟩
  have hs : comesBack.Sound := sound_after _ none .empty leaveAndReturn
  have hpath : (unit.path == (⟨"/x.ts"⟩ : Path)) = true := (closed_program hs).path_beq _ hm
  have hin : unit.path ∈ comesBack.result.checkedFiles := hin
  rw [checkedFiles_comesBack, List.mem_singleton] at hin
  rw [hin] at hpath
  exact absurd hpath (by decide +kernel)

set_option maxRecDepth 100000 in
/-- The other one was not in the last program, is in the next one, and is not checked. -/
theorem entry_fails :
    comesBack.session.program?.map (·.files.keys) = some [⟨"/a.ts"⟩] ∧
      comesBack.program.files.keys = [⟨"/a.ts"⟩, ⟨"/x.ts"⟩] ∧ comesBack.result.checkedFiles = [⟨"/a.ts"⟩] :=
  ⟨by decide +kernel, keys_comesBack, checkedFiles_comesBack⟩

end World

end Recheck
