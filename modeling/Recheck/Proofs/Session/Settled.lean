import Recheck.Proofs.Session.Scope

/-!
# What the store says between cycles

A record without a unit says nothing of its file, whether it was built apart (`FileRecord.Blank`); that holds
after every notification. A cycle leaves no such record: each file of the program has a record that says what
the program says of it (`FileRecord.Says`), and only records with a unit survive the cycle's end.

Dependencies are noted for files of the program, and files of the program are marked as linted. These have a
unit as soon as the program is built, so neither touches a blank record.
-/

set_option autoImplicit false

namespace Recheck

/-- A record without a unit says nothing of its file. -/
def FileRecord.Blank (r : FileRecord) : Prop :=
  r.unit? = none → r.dependencies = [] ∧ r.globalImpact = false ∧ r.linted = false

theorem FileRecord.blank_idle (built : Bool) : (FileRecord.idle built).Blank := fun _ => ⟨rfl, rfl, rfl⟩

theorem FileRecord.blank_of_unit {r : FileRecord} {unit : SourceUnit} (h : r.unit? = some unit) : r.Blank :=
  fun hnone => by rw [hnone] at h; exact nomatch h

/-- A record says of a file what the program says of it. -/
structure FileRecord.Says (r : FileRecord) (program : Program) (unit : SourceUnit) : Prop where
  holds : r.unit? = some unit
  dependencies : r.dependencies = program.dependencies unit
  globalImpact : r.globalImpact = unit.hasGlobalImpact

/-- What a program lists as the dependencies of a file, it lists once. -/
theorem Program.apart_dependencies (program : Program) (unit : SourceUnit) :
    Apart (program.dependencies unit) := by
  unfold dependencies
  cases program.resolutions.get? unit.path with
  | none => exact List.Pairwise.nil
  | some table => exact apart_distinct _

namespace Session

variable {s : Session} {host : Host}

/-- All records without a unit are blank. -/
def Tidy (s : Session) : Prop := s.store.All fun _ r => r.Blank

theorem Tidy.notify (h : s.Tidy) (notice : Notice) (paths : List Path) : (s.notify notice paths).Tidy := by
  induction paths generalizing s with
  | nil => exact h
  | cons p paths ih =>
    have hone : (notice.apply s.store p.normalize).All fun _ r => r.Blank :=
      (Store.All.notice h (fun _ => FileRecord.blank_idle) notice p.normalize).mono fun _ _ h => h.1
    exact ih (s := { s with store := notice.apply s.store p.normalize }) hone

/-- Once the program is built, its files have their units, and what has none is still blank. -/
theorem Tidy.built (h : s.Tidy) (hs : s.Sound) (hhost : host.Finite) (hread : host.Readable) :
    (s.built host).All fun k r => r.Blank ∧
      ∀ unit ∈ (s.nextProgram host).units, (unit.path == k) = true → r.unit? = some unit := by
  have hblank : (s.built host).All fun _ r => r.Blank := by
    unfold Session.built
    rw [build_eq hhost]
    refine acquireAll_induction h fun store path _ text _ hstore => ?_
    exact Store.All.put hstore (FileRecord.blank_idle false) (fun _ _ _ _ => FileRecord.blank_of_unit rfl)
      fun _ _ _ h => h
  rintro ⟨k, r⟩ hm
  refine ⟨hblank _ hm, fun unit hu hk => ?_⟩
  obtain ⟨⟨path, u⟩, hfile, rfl⟩ := List.mem_map.mp hu
  have hpath : (path == k) = true :=
    BEq.trans (BEq.symm ((hs.closed hhost hread).path_beq (path, u) hfile)) hk
  have hheld : (s.built host).unit? k = some u := unit?_build_of_mem hhost hfile hpath
  have hr : (s.built host).record? k = some r :=
    Dict.get?_of_mem (hs.store.build hhost).distinct hm BEq.rfl
  unfold Store.unit? at hheld
  rw [hr] at hheld
  exact hheld

/-- Once the dependencies are noted, the records of the program's files say what the program says. -/
theorem Tidy.noted (h : s.Tidy) (hs : s.Sound) (hhost : host.Finite) (hread : host.Readable) :
    (s.noted host).All fun k r => r.Blank ∧
      ∀ unit ∈ (s.nextProgram host).units, (unit.path == k) = true → r.Says (s.nextProgram host) unit := by
  have hp := hs.closed hhost hread
  have hunits : (s.noted host).All fun k r => r.Blank ∧
      ∀ unit ∈ (s.nextProgram host).units, (unit.path == k) = true → r.unit? = some unit := by
    refine noteDependencies_induction (h.built hs hhost hread) fun store unit hu hstore =>
      Store.All.update hstore (fun k r hk hr => ?_) fun _ _ _ h => h
    exact ⟨FileRecord.blank_of_unit (hr.2 unit hu (BEq.symm hk)), hr.2⟩
  rintro ⟨k, r⟩ hm
  refine ⟨(hunits _ hm).1, fun unit hu hk => ?_⟩
  have hr : (s.noted host).record? k = some r := Dict.get?_of_mem (hs.noted hhost).distinct hm BEq.rfl
  have hnoted : (s.noted host).record? k = _ := record?_noteDependencies hp hu hk (s.built host)
  rw [hr] at hnoted
  obtain ⟨before, -, rfl⟩ := Option.map_eq_some_iff.mp hnoted.symm
  exact ⟨(hunits _ hm).2 unit hu hk, distinct_of_apart (Program.apart_dependencies _ unit), rfl⟩

/-- Linting marks files of the program, and nothing else is changed before the cycle ends. -/
theorem Tidy.linted (h : s.Tidy) (hs : s.Sound) (hhost : host.Finite) (hread : host.Readable) :
    (s.linted host).All fun k r => r.Blank ∧
      ∀ unit ∈ (s.nextProgram host).units, (unit.path == k) = true → r.Says (s.nextProgram host) unit := by
  refine linted_induction_units (h.noted hs hhost hread) fun store unit hu hstore =>
    Store.All.update hstore (fun k r hk hr => ?_) fun _ _ _ h => h
  exact ⟨FileRecord.blank_of_unit (hr.2 unit hu (BEq.symm hk)).holds,
    fun v hv hvk => ⟨(hr.2 v hv hvk).holds, (hr.2 v hv hvk).dependencies, (hr.2 v hv hvk).globalImpact⟩⟩

/-- The end of a cycle forgets what has no unit. -/
theorem Tidy.run (h : s.Tidy) (hs : s.Sound) (hhost : host.Finite) (hread : host.Readable) :
    (s.run host).2.store.All fun k r => (r.Blank ∧ r.unit?.isSome = true) ∧
      ∀ unit ∈ (s.nextProgram host).units, (unit.path == k) = true → r.Says (s.nextProgram host) unit := by
  rw [store_run]
  intro e he
  obtain ⟨hm, hunit⟩ := List.mem_filter.mp he
  have hr := h.linted hs hhost hread e hm
  exact ⟨⟨hr.1, hunit⟩, hr.2⟩

/-- Each file of a program has a record after the cycle. -/
theorem Sound.exists_says (hs : s.Sound) (h : s.Tidy) (hhost : host.Finite) (hread : host.Readable) {path : Path}
    {unit : SourceUnit} (hm : (path, unit) ∈ (s.nextProgram host).files.entries) :
    ∃ r, (s.run host).2.store.record? path = some r ∧ r.Says (s.nextProgram host) unit := by
  have hunit : (s.run host).2.store.unit? path = some unit :=
    (hs.unit?_run hhost path).trans (unit?_noted_of_mem hhost hm BEq.rfl)
  obtain ⟨r, hr, -⟩ := Option.bind_eq_some_iff.mp hunit
  obtain ⟨k, hk, -, hsays⟩ := (h.run hs hhost hread).of_record? hr
  have hpath : (unit.path == path) = true := (hs.closed hhost hread).path_beq (path, unit) hm
  exact ⟨r, hr, hsays unit (List.mem_map_of_mem (f := (·.2)) hm) (BEq.trans hpath (BEq.symm hk))⟩

end Session

/-- A file that the host does not build is worth watching once it has a record. -/
theorem Store.contains_related {store : Store} {path : Path} {r : FileRecord} (hr : store.record? path = some r)
    (hbuilt : r.built = false) : store.related.contains path = true := by
  obtain ⟨key, hm, hk⟩ := Dict.exists_mem_of_get? hr
  unfold related
  rw [Path.contains_sortDistinct, List.contains_iff_exists_mem_beq]
  refine ⟨key, List.mem_flatMap.mpr ⟨(key, r), hm, ?_⟩, BEq.symm hk⟩
  simp [watched, hbuilt]

namespace World

variable {w : World}

theorem tidy_start (project : Project) (lint? : Option LintConfig) (files : Files) :
    (start project lint? files).session.Tidy := fun _ he => nomatch he

theorem tidy_step (h : w.session.Tidy) (hs : w.Sound) (event : Event) : (w.step event).session.Tidy := by
  cases event with
  | write path text => exact h
  | delete path => exact h
  | built files => exact h.notify .built files
  | invalidated changed removed => exact (h.notify .changed changed).notify .removed removed
  | cycle =>
    exact (h.run hs.session (Files.finite_toHost w.files) (Files.readable_toHost w.files)).mono
      fun _ _ hr => hr.1.1

theorem tidy_after (h : w.session.Tidy) (hs : w.Sound) (events : List Event) :
    (w.after events).session.Tidy := by
  induction events generalizing w with
  | nil => exact h
  | cons event events ih => exact ih (tidy_step h hs event) (hs.step event)

theorem resolutions_of_mem (w : World) {path : Path} {unit : SourceUnit}
    (hm : (path, unit) ∈ w.program.files.entries) : ∃ table, w.program.resolutions.get? path = some table :=
  ⟨_, Session.resolutions_build_of_mem (Files.finite_toHost w.files) hm⟩

/-- **The store is settled between cycles.** After any history, what has no unit is blank; and a cycle then
leaves units only and no news, a record for each file of its program that says what the program says, the
files that had diagnostics as its failures, and each file that the host does not build among those to watch. -/
theorem settled_after (project : Project) (lint? : Option LintConfig) (files : Files) (events : List Event) :
    let w := (World.start project lint? files).after events
    let v := w.step .cycle
    (∀ e ∈ w.session.store.records.entries, e.2.unit? = none →
      e.2.dependencies = [] ∧ e.2.globalImpact = false ∧ e.2.linted = false) ∧
    (∀ e ∈ v.session.store.records.entries, ∃ unit, e.2.unit? = some unit) ∧
    (v.session.store.recentlyAdded = [] ∧ v.session.store.removedDependents = []) ∧
    v.session.program? = some w.program ∧
    (∀ path unit, (path, unit) ∈ w.program.files.entries →
      ∃ r table, v.session.store.record? path = some r ∧ r.unit? = some unit ∧
        w.program.resolutions.get? path = some table ∧
        r.dependencies = distinct (table.values.reduceOption.filter fun target => !(target == unit.path)) ∧
        r.globalImpact = unit.hasGlobalImpact ∧
        (r.built = false → v.session.relatedFiles.contains path = true)) ∧
    (∀ p, p ∈ v.session.failed ↔ ∃ found, (p, found) ∈ w.session.findings w.files.toHost ∧ found ≠ []) ∧
    (w.session.findings w.files.toHost).map (·.1) = w.result.checkedFiles ∧
    v.session.failed = w.result.failing := by
  intro w v
  have hs : w.Sound := sound_after project lint? files events
  have htidy : w.session.Tidy :=
    tidy_after (tidy_start project lint? files) (Sound.start project lint? files) events
  have hhost := Files.finite_toHost w.files
  have hread := Files.readable_toHost w.files
  have hstore : v.session.store = (w.session.linted w.files.toHost).cleanup := Session.store_run
  refine ⟨htidy, fun e he => ?_, ?_, rfl, fun path unit hm => ?_, fun p => ?_, ?_, ?_⟩
  · exact Option.isSome_iff_exists.mp ((htidy.run hs.session hhost hread) e he).1.2
  · rw [hstore]
    exact ⟨rfl, rfl⟩
  · obtain ⟨r, hr, hsays⟩ := hs.session.exists_says htidy hhost hread hm
    obtain ⟨table, htable⟩ := w.resolutions_of_mem hm
    have hpath : (unit.path == path) = true := (closed_program hs).path_beq (path, unit) hm
    refine ⟨r, table, hr, hsays.holds, htable, ?_, hsays.globalImpact, Store.contains_related hr⟩
    have hdependencies : r.dependencies = w.program.dependencies unit := hsays.dependencies
    rw [hdependencies, Program.dependencies, Dict.get?_congr _ hpath, htable]
  · have hfailed : v.session.failed = _ := Session.failed_run
    rw [hfailed]
    simp only [List.mem_map, List.mem_filter, Bool.not_eq_true', List.isEmpty_eq_false_iff]
    constructor
    · rintro ⟨e, ⟨he, hne⟩, rfl⟩
      exact ⟨e.2, he, hne⟩
    · rintro ⟨found, he, hne⟩
      exact ⟨_, ⟨he, hne⟩, rfl⟩
  · exact Session.checkedFiles_eq_map.symm
  · exact hs.session.failed_run hhost hread

end World

end Recheck
