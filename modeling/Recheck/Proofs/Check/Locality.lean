import Recheck.Proofs.Check.PairedPrograms
import Recheck.Proofs.Session.Closure
import Recheck.Program.Disk

/-!
# Locality of checking

The diagnostics of a file depend on the files it leads to, and on those that affect others with all that they lead to. A file
that is neither can be taken out of the program, and the diagnostics remain (`Program.locality`). That a file has no global
impact is not enough for that: a module that is declared by its name, without `declare`, is found from everywhere as well
(`Program.locality_fails`).
-/

set_option autoImplicit false

namespace Recheck

open Check

namespace Program

variable {p q : Program} {file path other : Path}

/-- A program, and the same without one of its files. -/
structure Without (file : Path) (p q : Program) : Prop where
  options : p.options = q.options
  units : q.units = p.units.filter fun unit => !(unit.path == file)
  tables : ∀ path specifier, (path == file) = false → p.target? path specifier = q.target? path specifier

/-- What is read from the same texts is the same. -/
theorem eq_of_map_source_eq {units others : List SourceUnit} (hunits : ∀ unit ∈ units, unit.Read)
    (hothers : ∀ unit ∈ others, unit.Read)
    (h : units.map (·.source) = others.map (·.source)) : units = others := by
  have hread {units : List SourceUnit} (hunits : ∀ unit ∈ units, unit.Read) :
      (units.map (·.source)).map (fun source => .ofText source.path source.text) = units := by
    rw [List.map_map]
    exact (List.map_congr_left fun unit hunit => (hunits unit hunit).symm).trans (List.map_id' units)
  rw [← hread hunits, h, hread hothers]

/-- Programs that are read from texts differ in a file if their texts and tables do. -/
theorem WellRead.without (hp : p.WellRead) (hq : q.WellRead) (hoptions : p.options = q.options)
    (hsources : q.units.map (·.source) = (p.units.map (·.source)).filter fun source => !(source.path == file))
    (htables : p.resolutions.erase file = q.resolutions.erase file) : p.Without file q where
  options := hoptions
  units := eq_of_map_source_eq (fun _ => hq.read_of_mem) (fun _ hunit => hp.read_of_mem (List.mem_filter.mp hunit).1)
    (hsources.trans List.filter_map)
  tables path specifier hne := by
    have h := congrArg (·.get? path) htables
    simp only [Dict.get?_erase, BEq.symm_false hne, Bool.false_eq_true, if_false] at h
    simp only [target?, h]

theorem imports_of_target? {specifier : String} (h : p.target? path specifier = some other) : p.Imports path other := by
  obtain ⟨table, htable, h⟩ := Option.bind_eq_some_iff.mp h
  obtain ⟨target, htarget, rfl⟩ := Option.bind_eq_some_iff.mp h
  obtain ⟨key, hmem, -⟩ := Dict.exists_mem_of_get? htarget
  refine ⟨table, htable, List.contains_iff_exists_mem_beq.mpr ⟨other, ?_, BEq.rfl⟩⟩
  exact List.reduceOption_mem_iff.mpr (List.mem_map_of_mem (f := (·.2)) hmem)

theorem leads_congr (h : (path == other) = true) : Leads p.Imports path file ↔ Leads p.Imports other file :=
  ⟨Leads.congr_left Imports.congr_left (BEq.symm h), Leads.congr_left Imports.congr_left h⟩

/-! ## The core of a program -/

theorem WellRead.unit?_eq_some_iff (h : p.WellRead) {unit : SourceUnit} :
    p.unit? path = some unit ↔ unit ∈ p.units ∧ (unit.path == path) = true := by
  refine ⟨h.mem_of_unit?, fun ⟨hmem, hpath⟩ => ?_⟩
  obtain ⟨⟨key, _⟩, hentry, rfl⟩ := List.mem_map.mp hmem
  exact (Dict.get?_eq_some_iff h.distinct).mpr ⟨key, hentry, BEq.trans (h.read key _ hentry).1 hpath⟩

/-- The files of a program that belong to the core. -/
def restrict (p : Program) (core : Path → Prop) [DecidablePred core] : Program :=
  { p with files := p.files.filter fun unit => core unit.path }

theorem units_restrict (p : Program) (core : Path → Prop) [DecidablePred core] :
    (p.restrict core).units = p.units.filter fun unit => core unit.path := by
  unfold restrict units Dict.values Dict.filter
  rw [List.filter_map]
  rfl

theorem WellRead.restrict (h : p.WellRead) (core : Path → Prop) [DecidablePred core] : (p.restrict core).WellRead :=
  ⟨h.distinct.filter _, fun key unit hmem => h.read key unit (List.mem_filter.mp hmem).1⟩

theorem semanticDiagnostics_eq_check (p : Program) (path : Path) : p.semanticDiagnostics path =
    match p.unit? path with
    | none => []
    | some unit =>
      if unit.isTypeDefinition && p.options.skipLibCheck then unit.syntaxDiagnostics
      else TypeChecker.diagnostics unit (TypeChecker.findings p (TypeChecker.ofProgram p).known unit).1 := by
  have hprogram : (TypeChecker.ofProgram p).program = p := rfl
  unfold semanticDiagnostics TypeChecker.semanticDiagnostics
  rw [hprogram]
  cases p.unit? path with
  | none => rfl
  | some unit =>
    dsimp only
    split <;> rfl

/-- A file of the core has the same diagnostics in a program as in its core. -/
theorem semanticDiagnostics_of_hasCore {core : Path → Prop} [DecidablePred core] (h : HasCore core p q)
    (hp : p.WellRead) (hq : q.WellRead) (hpath : core path) : p.semanticDiagnostics path = q.semanticDiagnostics path := by
  classical
  have hunit : p.unit? path = q.unit? path := by
    refine Option.ext fun unit => ?_
    rw [hp.unit?_eq_some_iff, hq.unit?_eq_some_iff, h.units, List.mem_filter, decide_eq_true_iff]
    exact ⟨fun ⟨hmem, heq⟩ => ⟨⟨hmem, (h.congr heq).mpr hpath⟩, heq⟩, fun ⟨⟨hmem, _⟩, heq⟩ => ⟨hmem, heq⟩⟩
  have hbeside : (Pairing.ofCore core p).Beside p q (.start (TypeChecker.ofProgram p).known)
      (.start (TypeChecker.ofProgram q).known) :=
    ⟨(TypeChecker.idle_ofProgram hp).steady, (TypeChecker.idle_ofProgram hq).steady, h.ready, fun _ => rfl, .nil, rfl⟩
  rw [semanticDiagnostics_eq_check, semanticDiagnostics_eq_check, ← hunit, ← h.share.options]
  cases hfound : p.unit? path with
  | none => rfl
  | some unit =>
    obtain ⟨hmem, heq⟩ := hp.mem_of_unit? hfound
    obtain ⟨hmem', -⟩ := hq.mem_of_unit? (hunit ▸ hfound)
    dsimp only
    rw [Pairing.findings_eq hp hq hbeside hmem hmem' ((h.congr heq).mpr hpath)]

/-- What a file has for diagnostics does not depend on a file that it does not lead to, as long as no file that affects others
leads to that one, itself included. -/
theorem locality (hp : p.WellRead) (hq : q.WellRead) (h : p.Without file q)
    (hapart : ∀ unit ∈ p.units, unit.affectsOthers = true → ¬Leads p.Imports unit.path file) (hpath : ¬Leads p.Imports path file) :
    p.semanticDiagnostics path = q.semanticDiagnostics path := by
  classical
  have hother {path : Path} (hfar : ¬Leads p.Imports path file) : (path == file) = false :=
    Bool.eq_false_iff.mpr fun heq => hfar (.here heq)
  have hcongr {path other : Path} (heq : (path == other) = true) : ¬Leads p.Imports path file ↔ ¬Leads p.Imports other file :=
    not_congr (leads_congr heq)
  have hquiet (unit : SourceUnit) (hmem : unit ∈ p.units) (hnear : ¬¬Leads p.Imports unit.path file) : unit.affectsOthers = false :=
    Bool.eq_false_iff.mpr fun haffects => hnear (hapart unit hmem haffects)
  have hunits : q.units.filter (fun unit => decide ¬Leads p.Imports unit.path file) =
      p.units.filter fun unit => decide ¬Leads p.Imports unit.path file := by
    rw [h.units, List.filter_filter]
    refine List.filter_congr fun unit _ => ?_
    by_cases hfar : ¬Leads p.Imports unit.path file
    · simp [hfar, hother hfar]
    · simp [hfar]
  have hleft : HasCore (fun path => ¬Leads p.Imports path file) p (p.restrict fun path => ¬Leads p.Imports path file) :=
    ⟨⟨rfl, fun _ _ _ => rfl, fun _ _ _ hfar htarget hlast => hfar (.step (imports_of_target? htarget) hlast)⟩,
      hcongr, units_restrict .., hquiet⟩
  have hright : HasCore (fun path => ¬Leads p.Imports path file) q (p.restrict fun path => ¬Leads p.Imports path file) := by
    refine ⟨⟨h.options.symm, fun path specifier hfar => (h.tables path specifier (hother hfar)).symm, ?_⟩, hcongr, ?_, ?_⟩
    · intro path specifier target hfar htarget hlast
      rw [← h.tables path specifier (hother hfar)] at htarget
      exact hfar (.step (imports_of_target? htarget) hlast)
    · rw [units_restrict, hunits]
    · intro unit hmem
      rw [h.units] at hmem
      exact hquiet unit (List.mem_filter.mp hmem).1
  have hrestricted := hp.restrict fun path => ¬Leads p.Imports path file
  rw [semanticDiagnostics_of_hasCore hleft hp hrestricted hpath, semanticDiagnostics_of_hasCore hright hq hrestricted hpath]

/-- Paths that lead to each other only lead to no other path. -/
theorem not_leads_of_closed {paths : List Path}
    (hclosed : (paths.all fun path => (((p.resolutions.get? path).map (·.values.reduceOption)).getD []).all paths.contains) = true)
    (hfile : paths.contains file = false) (hpath : paths.contains path = true) : ¬Leads p.Imports path file := by
  have hspelled {a b : Path} (heq : (a == b) = true) (hb : paths.contains b = false) : paths.contains a = false := by
    rwa [List.contains_congr heq]
  have hoff {a b : Path} (himports : p.Imports a b) (hb : paths.contains b = false) : paths.contains a = false := by
    obtain ⟨table, htable, htarget⟩ := himports
    obtain ⟨target, hmem, heq⟩ := List.contains_iff_exists_mem_beq.mp htarget
    refine Bool.eq_false_iff.mpr fun ha => ?_
    obtain ⟨importer, himporter, hsame⟩ := List.contains_iff_exists_mem_beq.mp ha
    have hall := List.all_eq_true.mp hclosed importer himporter
    rw [← Dict.get?_congr _ hsame, htable] at hall
    exact absurd (List.all_eq_true.mp hall target hmem) (Bool.eq_false_iff.mp (hspelled (BEq.symm heq) hb))
  exact fun h => absurd hpath (Bool.eq_false_iff.mp (h.mem_of_closed hspelled hoff hfile))

/-- A file and one that it imports, beside a script and a module that only affects those that import it. -/
def apart (roots : List Path) : Program :=
  .ofHost roots .standard (Files.toHost (.ofList [
    (⟨"/a.ts"⟩, "export const x = 1"), (⟨"/f.ts"⟩, "import \x7bx\x7d from './a';export let s: string = x"),
    (⟨"/g.ts"⟩, "import \x7bx\x7d from './a';export namespace N \x7bexport const y = x\x7d"), (⟨"/w.ts"⟩, "let w = 2")]))

set_option maxRecDepth 100000 in
theorem locality_apart :
    let p := apart [⟨"/f.ts"⟩, ⟨"/g.ts"⟩, ⟨"/w.ts"⟩]
    let q := apart [⟨"/f.ts"⟩, ⟨"/w.ts"⟩]
    (p.WellRead ∧ q.WellRead ∧ p.Without ⟨"/g.ts"⟩ q ∧
      (∀ unit ∈ p.units, unit.affectsOthers = true → ¬Leads p.Imports unit.path ⟨"/g.ts"⟩) ∧ ¬Leads p.Imports ⟨"/f.ts"⟩ ⟨"/g.ts"⟩) ∧
    p.semanticDiagnostics ⟨"/f.ts"⟩ = q.semanticDiagnostics ⟨"/f.ts"⟩ ∧ (p.semanticDiagnostics ⟨"/f.ts"⟩).map (·.code) = [2322] := by
  intro p q
  have hp : p.WellRead := wellRead_ofHost _ _ _
  have hq : q.WellRead := wellRead_ofHost _ _ _
  have hwithout : p.Without ⟨"/g.ts"⟩ q := hp.without hq (by decide +kernel) (by decide +kernel) (by decide +kernel)
  let near : List Path := [⟨"/f.ts"⟩, ⟨"/a.ts"⟩, ⟨"/w.ts"⟩]
  have hnear {path : Path} : near.contains path = true → ¬Leads p.Imports path ⟨"/g.ts"⟩ :=
    not_leads_of_closed (by decide +kernel) (by decide +kernel)
  have haffect : (p.units.all fun unit => !unit.affectsOthers || near.contains unit.path) = true := by decide +kernel
  have hapart (unit : SourceUnit) (hmem : unit ∈ p.units) (haffects : unit.affectsOthers = true) :
      ¬Leads p.Imports unit.path ⟨"/g.ts"⟩ :=
    hnear ((Bool.or_eq_true_iff.mp (List.all_eq_true.mp haffect unit hmem)).resolve_left (by simp [haffects]))
  have hpath : ¬Leads p.Imports ⟨"/f.ts"⟩ ⟨"/g.ts"⟩ := hnear (by decide +kernel)
  exact ⟨⟨hp, hq, hwithout, hapart, hpath⟩, locality hp hq hwithout hapart hpath, by decide +kernel⟩

/-- A file that imports a module by a name, beside a module that declares that name without `declare`. -/
def naming (roots : List Path) : Program :=
  .ofHost roots .standard (Files.toHost (.ofList [
    (⟨"/f.ts"⟩, "import \x7bx\x7d from 'm';export let s: string = x"),
    (⟨"/g.ts"⟩, "export \x7b\x7d;module 'm' \x7bexport const x: number\x7d")]))

set_option maxRecDepth 100000 in
/-- A file without global impact can show in one that does not lead to it. -/
theorem locality_fails :
    let p := naming [⟨"/f.ts"⟩, ⟨"/g.ts"⟩]
    let q := naming [⟨"/f.ts"⟩]
    p.WellRead ∧ q.WellRead ∧ p.Without ⟨"/g.ts"⟩ q ∧
      (∀ unit ∈ p.units, unit.hasGlobalImpact = true → ¬Leads p.Imports unit.path ⟨"/g.ts"⟩) ∧
      (∀ unit, p.unit? ⟨"/g.ts"⟩ = some unit → unit.hasGlobalImpact = false) ∧ ¬Leads p.Imports ⟨"/f.ts"⟩ ⟨"/g.ts"⟩ ∧
      (p.semanticDiagnostics ⟨"/f.ts"⟩).map (·.code) = [2322] ∧ (q.semanticDiagnostics ⟨"/f.ts"⟩).map (·.code) = [2307] := by
  intro p q
  have hp : p.WellRead := wellRead_ofHost _ _ _
  have hq : q.WellRead := wellRead_ofHost _ _ _
  have hsilent : (p.units.all fun unit => !unit.hasGlobalImpact) = true := by decide +kernel
  have hlocal (unit : SourceUnit) (hmem : unit ∈ p.units) : unit.hasGlobalImpact = false :=
    (Bool.not_eq_true' _).mp (List.all_eq_true.mp hsilent unit hmem)
  refine ⟨hp, hq, hp.without hq (by decide +kernel) (by decide +kernel) (by decide +kernel), fun unit hmem himpact => ?_,
    fun unit hunit => hlocal unit (hp.mem_of_unit? hunit).1, ?_, by decide +kernel, by decide +kernel⟩
  · exact absurd himpact (Bool.eq_false_iff.mp (hlocal unit hmem))
  · exact @not_leads_of_closed p _ _ [⟨"/f.ts"⟩] (by decide +kernel) (by decide +kernel) (by decide +kernel)

end Program

end Recheck
