import Recheck.Proofs.Session.Stages

/-!
# What holds between cycles

`Session.Sound` is the invariant of a session: its store is in order (`Store.Sound`), nothing counts as
recently added, and a unit in the store that belongs to a file of the last program is the unit of that
program. A new session has it (`Sound.ofProject`), a notification keeps it (`Sound.notify`), and a cycle on
any host whose files can be read keeps it too (`Sound.run`).
-/

set_option autoImplicit false

/-!
## Which file a diagnostic is about

A cycle returns the diagnostics of all checked files in one list. Every diagnostic names the file that it was
found in, so the list can be taken apart again: `CycleResult.ofFile` is what it says about one file. The files
that a session checks again because they failed are the checked files that the list names (`failed_run`).
-/

namespace Recheck

theorem SourceUnit.Read.file_of_mem {unit : SourceUnit} (h : unit.Read) {d : Diagnostic}
    (hd : d ∈ unit.syntaxDiagnostics) : d.file = some unit.path := by
  rw [h] at hd
  obtain ⟨r, _, rfl⟩ := List.mem_map.mp hd
  rfl

namespace TypeChecker

variable {c : TypeChecker} {path : Path} {unit : SourceUnit} {d : Diagnostic}

theorem file_of_mem_semanticDiagnostics (hu : c.program.unit? path = some unit) (h : unit.Read)
    (hd : d ∈ (c.semanticDiagnostics path).1) : d.file = some unit.path := by
  unfold semanticDiagnostics at hd
  simp only [hu] at hd
  split at hd
  · exact h.file_of_mem hd
  · rcases List.mem_append.mp hd with hd | hd
    · exact h.file_of_mem hd
    · obtain ⟨r, _, rfl⟩ := List.mem_map.mp hd
      rfl

theorem diagnosticsOf_cons (c : TypeChecker) (path : Path) (rest : List Path) :
    c.diagnosticsOf (path :: rest) = (path, (c.semanticDiagnostics path).1) ::
      (c.semanticDiagnostics path).2.diagnosticsOf rest := rfl

theorem map_fst_diagnosticsOf (c : TypeChecker) (paths : List Path) :
    (c.diagnosticsOf paths).map (·.1) = paths := by
  induction paths generalizing c with
  | nil => rfl
  | cons p paths ih => rw [diagnosticsOf_cons, List.map_cons, ih]

/-- Asked for files by the paths that their units have, a checker attributes what it finds. -/
theorem file_of_mem_diagnosticsOf {paths : List Path}
    (h : ∀ p ∈ paths, ∃ unit, c.program.unit? p = some unit ∧ unit.path = p ∧ unit.Read) :
    ∀ e ∈ c.diagnosticsOf paths, ∀ d ∈ e.2, d.file = some e.1 := by
  induction paths generalizing c with
  | nil => exact fun e he => nomatch he
  | cons p paths ih =>
    intro e he d hd
    rw [diagnosticsOf_cons] at he
    rcases List.mem_cons.mp he with rfl | he
    · obtain ⟨unit, hu, rfl, hread⟩ := h p List.mem_cons_self
      exact file_of_mem_semanticDiagnostics hu hread hd
    · refine ih (fun q hq => ?_) e he d hd
      rw [program_semanticDiagnostics]
      exact h q (List.mem_cons_of_mem _ hq)

end TypeChecker

namespace CycleResult

/-- What a result says about one file. -/
def ofFile (r : CycleResult) (path : Path) : List Diagnostic := r.diagnostics.filter (·.file = some path)

/-- The checked files that have a diagnostic. -/
def failing (r : CycleResult) : List Path := r.checkedFiles.filter fun p => !(r.ofFile p).isEmpty

end CycleResult

namespace Session

variable {s : Session} {host : Host}

theorem flatMap_filter_file {es : List (Path × List Diagnostic)} (hes : (es.map (·.1)).Nodup)
    (hfile : ∀ e ∈ es, ∀ d ∈ e.2, d.file = some e.1) :
    ∀ e ∈ es, (es.flatMap (·.2)).filter (·.file = some e.1) = e.2 := by
  induction es with
  | nil => exact fun e he => nomatch he
  | cons e' es ih =>
    rw [List.map_cons, List.nodup_cons] at hes
    have hown : ∀ e ∈ e' :: es, e.2.filter (·.file = some e.1) = e.2 := fun e he =>
      List.filter_eq_self.mpr fun d hd => by simp [hfile e he d hd]
    have hother : ∀ a ∈ e' :: es, ∀ b, a.1 ≠ b → a.2.filter (·.file = some b) = [] := fun a ha b hab =>
      List.filter_eq_nil_iff.mpr fun d hd => by simp [hfile a ha d hd, hab]
    intro e he
    rw [List.flatMap_cons, List.filter_append]
    rcases List.mem_cons.mp he with rfl | hrest
    · have hnil : (es.flatMap (·.2)).filter (·.file = some e.1) = [] := by
        rw [List.filter_flatMap, List.flatMap_eq_nil_iff]
        intro a ha
        exact hother a (List.mem_cons_of_mem _ ha) _ fun h => hes.1 (h ▸ List.mem_map_of_mem ha)
      rw [hnil, hown e List.mem_cons_self, List.append_nil]
    · rw [ih hes.2 (fun a ha => hfile a (List.mem_cons_of_mem _ ha)) e hrest,
        hother e' List.mem_cons_self e.1 fun h => hes.1 (h ▸ List.mem_map_of_mem hrest), List.nil_append]

/-- The checked paths are the paths of units of the program. -/
theorem unit?_of_mem_checked (hp : (s.nextProgram host).Closed)
    (hread : ∀ u ∈ (s.nextProgram host).units, u.Read) :
    ∀ p ∈ (s.selected host).map (·.path),
      ∃ unit, (s.nextProgram host).unit? p = some unit ∧ unit.path = p ∧ unit.Read := by
  intro p hpm
  obtain ⟨u, hu, rfl⟩ := List.mem_map.mp hpm
  have hunit := (selectUnits_sublist ..).mem hu
  exact ⟨u, hp.unit?_iff.mpr ⟨hunit, BEq.rfl⟩, rfl, hread u hunit⟩

theorem nodup_checked (hp : (s.nextProgram host).Closed) : ((s.selected host).map (·.path)).Nodup :=
  (hp.apart_paths.sublist ((selectUnits_sublist ..).map _)).nodup

theorem checkedFiles_eq_map : (s.run host).1.checkedFiles = (s.findings host).map (·.1) := by
  rw [checkedFiles_run, findings, TypeChecker.map_fst_diagnosticsOf]

/-! ## Taking a result apart -/

section Parts

variable (hp : (s.nextProgram host).Closed) (hread : ∀ u ∈ (s.nextProgram host).units, u.Read)
  (hglobal : ∀ d ∈ (s.nextProgram host).globalDiagnostics, d.file = none)

include hp hread hglobal

/-- What a result says about a checked file is what was found in it. -/
theorem ofFile_run : ∀ e ∈ s.findings host, (s.run host).1.ofFile e.1 = e.2 := by
  intro e he
  have hpaths : ((s.findings host).map (·.1)).Nodup := by
    unfold findings
    rw [TypeChecker.map_fst_diagnosticsOf]
    exact nodup_checked hp
  have hfile := TypeChecker.file_of_mem_diagnosticsOf (c := TypeChecker.ofProgram (s.nextProgram host))
    (unit?_of_mem_checked hp hread)
  unfold CycleResult.ofFile
  rw [diagnostics_run, List.filter_append, flatMap_filter_file hpaths hfile e he,
    List.filter_eq_nil_iff.mpr fun d hd => by simp [hglobal d hd], List.nil_append]

/-- A result says nothing about a file that was not checked. -/
theorem ofFile_of_not_mem {path : Path} (hpath : path ∉ (s.run host).1.checkedFiles) :
    (s.run host).1.ofFile path = [] := by
  refine List.filter_eq_nil_iff.mpr fun d hd => ?_
  rw [diagnostics_run, List.mem_append, List.mem_flatMap] at hd
  rcases hd with hd | ⟨e, he, hd⟩
  · simp [hglobal d hd]
  · have hchecked : e.1 ∈ (s.run host).1.checkedFiles := by
      rw [checkedFiles_eq_map]
      exact List.mem_map_of_mem (f := (·.1)) he
    have hfile := TypeChecker.file_of_mem_diagnosticsOf (unit?_of_mem_checked hp hread) e he d hd
    simp only [hfile, Option.some.injEq, decide_eq_true_eq]
    exact fun hc => hpath (hc ▸ hchecked)

/-- A result is what it says about the program, and then what it says about each checked file. -/
theorem diagnostics_run_eq : (s.run host).1.diagnostics = (s.nextProgram host).globalDiagnostics ++
    (s.run host).1.checkedFiles.flatMap (s.run host).1.ofFile := by
  have hown : (s.findings host).flatMap (·.2) =
      (s.findings host).flatMap fun e => (s.run host).1.ofFile e.1 :=
    List.flatMap_congr fun e he => (ofFile_run hp hread hglobal e he).symm
  rw [diagnostics_run, hown, checkedFiles_eq_map, List.flatMap_map]

/-- The files that failed are the checked ones that the result names. -/
theorem failed_run_eq : (s.run host).2.failed = (s.run host).1.failing := by
  unfold CycleResult.failing
  rw [failed_run, checkedFiles_eq_map, List.filter_map]
  refine congrArg _ (List.filter_congr fun e he => ?_)
  rw [Function.comp_apply, ofFile_run hp hread hglobal e he]

end Parts

end Session

end Recheck

namespace Recheck

/-- Records are told apart, none refers to itself, and units are what their texts read as. -/
structure Store.Sound (s : Store) : Prop where
  distinct : s.records.Distinct
  selfFree : s.SelfFree
  units : s.Units fun k u => (u.path == k) = true ∧ u.Read

namespace Store.Sound

variable {s : Store}

theorem empty : Store.empty.Sound where
  distinct := Dict.distinct_empty
  selfFree := fun _ he => nomatch he
  units := fun _ he => nomatch he

theorem notice (h : s.Sound) (notice : Session.Notice) (path : Path) : (notice.apply s path).Sound where
  distinct := distinct_notice h.distinct notice path
  selfFree := h.selfFree.notice notice path
  units := (h.units.notice notice path).mono fun _ _ h => h.1

theorem build {project : Project} {host : Host} {old : Option Program} (hhost : host.Finite) (h : s.Sound) :
    (Session.build project host s old).2.Sound where
  distinct := Session.distinct_build hhost h.distinct
  selfFree := Session.selfFree_build hhost h.selfFree
  units := Session.units_build hhost h.units fun path text _ _ hk =>
    ⟨BEq.symm hk, SourceUnit.read_ofText path text⟩

theorem noteDependencies (h : s.Sound) (program : Program) : (Session.noteDependencies program s).Sound where
  distinct := Session.distinct_noteDependencies h.distinct
  selfFree := Session.selfFree_noteDependencies h.selfFree
  units := Session.units_noteDependencies h.units

theorem markLinted (h : s.Sound) (path : Path) : (s.markLinted path).Sound where
  distinct := distinct_update h.distinct path _
  selfFree := h.selfFree.update (fun _ _ _ h => h) fun _ _ _ h => h
  units := Units.markLinted h.units path

theorem cleanup (h : s.Sound) : s.cleanup.Sound where
  distinct := distinct_cleanup h.distinct
  selfFree := h.selfFree.cleanup
  units := h.units.cleanup

end Store.Sound

namespace Session

/-- What holds of a session between two cycles. -/
structure Sound (s : Session) : Prop where
  store : s.store.Sound
  recentlyAdded : s.store.recentlyAdded = []
  current : s.store.Units fun k u => ∃ p, s.program? = some p ∧ ∀ old, p.unit? k = some old → old = u

variable {s : Session} {host : Host}

theorem Sound.ofProject (project : Project) (lint? : Option LintConfig) : (ofProject project lint?).Sound where
  store := Store.Sound.empty
  recentlyAdded := rfl
  current := fun _ he => nomatch he

theorem Sound.notify (h : s.Sound) (notice : Notice) (paths : List Path) : (s.notify notice paths).Sound := by
  induction paths generalizing s with
  | nil => exact h
  | cons p paths ih =>
    have hone : Sound { s with store := notice.apply s.store p.normalize } :=
      ⟨h.store.notice notice _, Store.recentlyAdded_notice h.recentlyAdded notice _,
        (h.current.notice notice _).mono fun _ _ h => h.1⟩
    exact ih hone

/-- The next program lacks nothing. -/
theorem Sound.closed (h : s.Sound) (hhost : host.Finite) (hread : host.Readable) :
    (s.nextProgram host).Closed :=
  closed_build hhost hread (h.store.units.mono fun _ _ h => h.1)

theorem unit?_noted_of_mem (hhost : host.Finite) {path other : Path} {unit : SourceUnit}
    (hm : (path, unit) ∈ (s.nextProgram host).files.entries) (hp : (path == other) = true) :
    (s.noted host).unit? other = some unit :=
  (unit?_noteDependencies other).trans (unit?_build_of_mem hhost hm hp)

theorem Sound.noted (h : s.Sound) (hhost : host.Finite) : (s.noted host).Sound :=
  (h.store.build hhost).noteDependencies _

theorem Sound.read_of_mem (h : s.Sound) (hhost : host.Finite) :
    ∀ u ∈ (s.nextProgram host).units, u.Read := by
  intro u hu
  obtain ⟨⟨k, _⟩, hm, rfl⟩ := List.mem_map.mp hu
  obtain ⟨_, _, _, hread⟩ := (h.noted hhost).units.of_unit? (unit?_noted_of_mem hhost hm BEq.rfl)
  exact hread

theorem Sound.linted (h : s.Sound) (hhost : host.Finite) : (s.linted host).Sound :=
  linted_induction (h.noted hhost) fun _ path hs => hs.markLinted path

theorem unit?_linted (path : Path) : (s.linted host).unit? path = (s.noted host).unit? path :=
  linted_induction (motive := fun store => store.unit? path = (s.noted host).unit? path) rfl
    fun store p h => (store.unit?_markLinted p path).trans h

/-- A cycle leaves the units in the store that it noted. -/
theorem Sound.unit?_run (h : s.Sound) (hhost : host.Finite) (path : Path) :
    (s.run host).2.store.unit? path = (s.noted host).unit? path := by
  rw [store_run, Store.unit?_cleanup (h.linted hhost).distinct, unit?_linted]

theorem Sound.run (h : s.Sound) (hhost : host.Finite) : (s.run host).2.Sound where
  store := by rw [store_run]; exact (h.linted hhost).cleanup
  recentlyAdded := by rw [store_run]; rfl
  current := by
    rintro ⟨k, r⟩ hm u hu
    refine ⟨s.nextProgram host, program?_run, fun old hold => ?_⟩
    obtain ⟨key, hkm, hk⟩ := Dict.exists_mem_of_get? hold
    -- The store and the program hold units for `k`, and both are the one that was noted.
    have hheld : (s.run host).2.store.unit? k = some u := by
      have hstore : (s.run host).2.store.records.Distinct := by
        rw [store_run]; exact (h.linted hhost).cleanup.distinct
      have hr : (s.run host).2.store.record? k = some r := Dict.get?_of_mem hstore hm BEq.rfl
      unfold Store.unit?
      rw [hr]
      exact hu
    rw [h.unit?_run hhost, unit?_noted_of_mem hhost hkm hk] at hheld
    exact Option.some.inj hheld

theorem Sound.ofFile_of_not_mem (h : s.Sound) (hhost : host.Finite) (hread : host.Readable) {path : Path}
    (hpath : path ∉ (s.run host).1.checkedFiles) : (s.run host).1.ofFile path = [] :=
  Session.ofFile_of_not_mem (h.closed hhost hread) (h.read_of_mem hhost)
    (fun _ => file_of_mem_globalDiagnostics hhost) hpath

theorem Sound.diagnostics_run (h : s.Sound) (hhost : host.Finite) (hread : host.Readable) :
    (s.run host).1.diagnostics = (s.nextProgram host).globalDiagnostics ++
      (s.run host).1.checkedFiles.flatMap (s.run host).1.ofFile :=
  diagnostics_run_eq (h.closed hhost hread) (h.read_of_mem hhost) fun _ =>
    file_of_mem_globalDiagnostics hhost

theorem Sound.failed_run (h : s.Sound) (hhost : host.Finite) (hread : host.Readable) :
    (s.run host).2.failed = (s.run host).1.failing :=
  failed_run_eq (h.closed hhost hread) (h.read_of_mem hhost) fun _ => file_of_mem_globalDiagnostics hhost

end Session

end Recheck
