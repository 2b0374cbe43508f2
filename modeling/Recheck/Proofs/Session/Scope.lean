import Recheck.Proofs.Session.History

/-!
# What a cycle checks

A change spreads from the seeds of a cycle (`World.seeds`): what the session has no unit for, what is parsed,
what lost a file that it referred to, and what failed. The session keeps four lists of its own for them, and
`contains_seed` says that these hold the same paths. So a cycle checks all files when a seed is flagged, and
otherwise the files that lead to a seed along the new program.
-/

set_option autoImplicit false

namespace Recheck

/-- Lists with the same paths have a member with a property at once, if spellings share the property. -/
theorem exists_mem_congr {xs ys : List Path} {P : Path → Prop} (h : ∀ p, xs.contains p = ys.contains p)
    (hP : ∀ {a b : Path}, (a == b) = true → P a → P b) : (∃ p ∈ xs, P p) ↔ ∃ p ∈ ys, P p := by
  have himp : ∀ {xs ys : List Path}, (∀ p, xs.contains p = ys.contains p) →
      (∃ p ∈ xs, P p) → ∃ p ∈ ys, P p := by
    rintro xs ys h ⟨p, hp, hpp⟩
    have hys : ys.contains p = true := by
      rw [← h]; exact List.contains_iff_exists_mem_beq.mpr ⟨p, hp, BEq.rfl⟩
    obtain ⟨q, hq, hpq⟩ := List.contains_iff_exists_mem_beq.mp hys
    exact ⟨q, hq, hP hpq hpp⟩
  exact ⟨himp h, himp fun p => (h p).symm⟩

/-- A session's seed is put together from what it has to read, what it parsed, what it noted when records were
removed, and what failed. -/
theorem Session.contains_seed_eq {s : Session} {host : Host} (hhost : host.Finite) (p : Path) :
    (s.seed host).contains p = (s.store.needingReload.contains p || (s.built host).recentlyAdded.contains p ||
      s.store.removedDependents.contains p || s.failed.contains p) := by
  have hrecent : (s.noted host).recent = (s.built host).recent := recent_noteDependencies
  have horphaned : (s.built host).removedDependents = s.store.removedDependents := removedDependents_build hhost
  unfold seed
  rw [hrecent, Path.contains_sortDistinct]
  unfold Store.recent
  simp only [List.contains_append, Path.contains_sortDistinct, horphaned, Bool.or_assoc]

theorem Session.contains_built_of_contains {s : Session} {host : Host} (hhost : host.Finite) {p : Path}
    (hp : (s.nextProgram host).files.contains p = true) : (s.built host).contains p = true := by
  obtain ⟨u, hu⟩ := Option.isSome_iff_exists.mp hp
  obtain ⟨k, hm, hk⟩ := Dict.exists_mem_of_get? hu
  have hunit : (s.built host).unit? p = some u := unit?_build_of_mem hhost hm hk
  obtain ⟨r, hr, _⟩ := Option.bind_eq_some_iff.mp hunit
  exact Option.isSome_iff_exists.mpr ⟨r, hr⟩

namespace World

variable {w : World} {p : Path}

/-- The paths that the next cycle discovers. -/
def discovered (w : World) : List Path :=
  Session.discovered (w.session.project.rescan w.files.toHost) w.files.toHost w.session.store
    w.session.program?

theorem mem_reads : p ∈ w.reads ↔ p ∈ w.discovered ∧ w.session.store.unit? p = none := by
  have hhost := Files.finite_toHost w.files
  unfold reads buildTraced
  rw [Session.buildTraced_snd hhost, Session.mem_recordAll (Session.oneSpelling_discovered hhost _ _ _)]
  exact or_iff_right List.not_mem_nil

theorem mem_parsed : p ∈ w.parsed ↔
    p ∈ Session.parsed w.files.toHost w.session.store w.discovered := by
  unfold parsed Session.parsed
  rw [List.mem_filter, mem_reads, List.mem_filter, Bool.and_eq_true, Option.isNone_iff_eq_none, and_assoc]
  exact Iff.rfl

theorem contains_parsed (h : w.Sound) (p : Path) :
    (w.session.built w.files.toHost).recentlyAdded.contains p = w.parsed.contains p := by
  unfold Session.built
  rw [Session.contains_recentlyAdded_build (Files.finite_toHost w.files) h.session.recentlyAdded,
    Bool.eq_iff_iff, List.contains_iff_exists_mem_beq, List.contains_iff_exists_mem_beq]
  exact exists_congr fun q => and_congr_left fun _ => mem_parsed.symm

/-- The session's seed is what changes spread from. -/
theorem contains_seed (h : w.Sound) (p : Path) :
    (w.session.seed w.files.toHost).contains p = w.seeds.contains p := by
  have hunread : w.session.store.needingReload.contains p = w.unread.contains p :=
    Path.contains_sortDistinct ..
  rw [Session.contains_seed_eq (Files.finite_toHost w.files), hunread, contains_parsed h, h.orphaned, h.failed,
    seeds]
  simp only [List.contains_append, Bool.or_assoc]

theorem closed_program (h : w.Sound) : w.program.Closed :=
  h.session.closed (Files.finite_toHost w.files) (Files.readable_toHost w.files)

theorem contains_built_of_contains (hp : w.program.files.contains p = true) :
    (w.session.built w.files.toHost).contains p = true :=
  Session.contains_built_of_contains (Files.finite_toHost w.files) hp

theorem fullCheck_result (h : w.Sound) :
    w.result.fullCheck = true ↔ ∃ p ∈ w.seeds, w.noted.hasGlobalImpact p = true := by
  unfold result
  rw [Session.fullCheck_run, Session.needsFullCheck, List.any_eq_true]
  refine exists_mem_congr (contains_seed h) fun hab ha => ?_
  rwa [← Store.hasGlobalImpact_congr _ hab]

theorem mem_checkedFiles_result (h : w.Sound) {unit : SourceUnit} (hu : unit ∈ w.program.units) :
    unit.path ∈ w.result.checkedFiles ↔
      w.result.fullCheck = true ∨ ∃ p ∈ w.seeds, Leads w.program.Imports unit.path p := by
  have hp := closed_program h
  -- Units are told apart by their paths, so a checked path is that of a selected unit.
  have hchecked : unit.path ∈ w.result.checkedFiles ↔ unit ∈ w.session.selected w.files.toHost := by
    unfold result
    rw [Session.checkedFiles_run, List.mem_map]
    refine ⟨fun ⟨v, hv, hvu⟩ => ?_, fun hsel => ⟨unit, hsel, rfl⟩⟩
    have hmem := (Session.selectUnits_sublist ..).mem hv
    have hsame := (hp.unit?_iff.mpr ⟨hmem, BEq.rfl⟩).symm.trans
      (hp.unit?_iff.mpr ⟨hu, by rw [hvu]; exact BEq.rfl⟩)
    rwa [← Option.some.inj hsame]
  have hdistinct : (w.session.built w.files.toHost).records.Distinct :=
    Session.distinct_build (Files.finite_toHost w.files) h.session.store.distinct
  have hfull : w.result.fullCheck = Session.needsFullCheck w.noted (w.session.seed w.files.toHost) :=
    Session.fullCheck_run
  rw [hchecked, hfull]
  refine (Session.mem_selectUnits_iff hp hdistinct fun _ => contains_built_of_contains).trans ((and_iff_right hu).trans (or_congr_right ?_))
  exact exists_mem_congr (contains_seed h) fun hab hl => hl.congr_right hab

/-- A file that the session had no unit for was parsed, so it is checked. -/
theorem mem_checkedFiles_of_unread (h : w.Sound) {path : Path} {unit : SourceUnit}
    (hm : (path, unit) ∈ w.program.files.entries) (hu : w.session.store.unit? path = none) :
    unit.path ∈ w.result.checkedFiles := by
  have hpath : (unit.path == path) = true := (closed_program h).path_beq (path, unit) hm
  obtain ⟨hfound, hanswer⟩ := (Session.mem_files_build (Files.finite_toHost w.files)).mp hm
  have hparsed : path ∈ w.parsed := by
    rw [mem_parsed]
    refine List.mem_filter.mpr ⟨hfound, ?_⟩
    rcases Session.answer_eq_some_iff.mp hanswer with hheld | ⟨-, text, ht, -⟩
    · exact nomatch hheld.symm.trans hu
    · rw [hu, ht]
      rfl
  refine (mem_checkedFiles_result h (List.mem_map_of_mem (f := (·.2)) hm)).mpr
    (Or.inr ⟨path, ?_, .here hpath⟩)
  unfold seeds
  simp [hparsed]

/-- **A cycle checks exactly what a change can have touched.** Whatever happened before, all files are checked
if and only if a seed is flagged once the dependencies are noted; otherwise those are checked, in the order of
the program and once each, that lead to a seed. -/
theorem checks_exactly_scope (project : Project) (lint? : Option LintConfig) (files : Files)
    (events : List Event) :
    let w := (World.start project lint? files).after events
    ((w.step .cycle).session.program? = some w.program ∧ w.buildTraced.1.1 = w.program) ∧
      (w.result.fullCheck = true ↔ ∃ p ∈ w.seeds, w.noted.hasGlobalImpact p = true) ∧
      (w.result.checkedFiles.Sublist (w.program.units.map (·.path)) ∧ Apart w.result.checkedFiles) ∧
      ∀ unit ∈ w.program.units, unit.path ∈ w.result.checkedFiles ↔
        w.result.fullCheck = true ∨ ∃ p ∈ w.seeds, Leads w.program.Imports unit.path p := by
  intro w
  have h := sound_after project lint? files events
  have hsub : w.result.checkedFiles.Sublist (w.program.units.map (·.path)) :=
    (Session.selectUnits_sublist ..).map _
  refine ⟨⟨rfl, congrArg Prod.fst ?_⟩, fullCheck_result h, ⟨hsub, (closed_program h).apart_paths.sublist hsub⟩,
    fun _ hu => mem_checkedFiles_result h hu⟩
  exact Session.buildTraced_fst (Files.finite_toHost w.files)

end World

end Recheck
