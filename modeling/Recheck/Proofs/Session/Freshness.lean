import Recheck.Proofs.Config.Roots
import Recheck.Proofs.Session.Scope

/-!
# No stale source

A cycle takes the units of its program from the store as far as it can. That is right as long as every edit
was reported before the cycle (`World.WellReported`). The invariant behind it is `World.Fresh` and speaks of all
units in the store, also of those whose files are in no program at the moment: a path that was reported has no
unit, and a path that was not edited has the unit of its present text. A cycle that comes after all reports
finds no path that was edited and still has a unit.

How a path was reported does not matter: each notification drops the unit of its path, and drops others at
most.
-/

set_option autoImplicit false

namespace Recheck

namespace Session

variable {s : Session} {host : Host}

/-- A list of notifications drops the units of its paths, and changes none. -/
theorem units_notify {Q : Path → SourceUnit → Prop} (h : s.store.Units Q) (notice : Notice)
    (paths : List Path) :
    (s.notify notice paths).store.Units fun k u => Q k u ∧ (paths.map Path.normalize).contains k = false := by
  induction paths generalizing s Q with
  | nil => exact h.mono fun _ _ h => ⟨h, rfl⟩
  | cons p paths ih =>
    have hrest := ih (s := { s with store := notice.apply s.store p.normalize }) (h.notice notice p.normalize)
    refine Store.Units.mono hrest fun k u ⟨⟨hq, hp⟩, hpaths⟩ => ⟨hq, ?_⟩
    rw [List.map_cons, List.contains_cons, hp, hpaths]
    rfl

/-- What holds of the units in the store and of every text as it is now holds of the units that the next cycle
leaves. -/
theorem units_run {Q : Path → SourceUnit → Prop} (hhost : host.Finite) (h : s.store.Units Q)
    (hq : ∀ path text k, host.read? path = some text → (k == path) = true →
      Q k (SourceUnit.ofText path text)) :
    (s.noted host).Units Q ∧ (s.run host).2.store.Units Q := by
  have hnoted : (s.noted host).Units Q := units_noteDependencies (units_build hhost h hq)
  refine ⟨hnoted, ?_⟩
  rw [store_run]
  have hlinted : (s.linted host).Units Q := linted_induction hnoted fun _ path hs => hs.markLinted path
  exact hlinted.cleanup

end Session

namespace World

variable {w : World} {p : Path}

/-- All that was edited since the last cycle was reported. -/
def Reported (w : World) : Prop := ∀ p ∈ w.edited, w.reported.contains p = true

/-- Each cycle of a history but the first comes after all edits since the one before it were reported. -/
def WellReported (w : World) : List Event → Prop
  | [] => True
  | event :: events =>
    (event = .cycle → w.session.program?.isSome = true → w.Reported) ∧ (w.step event).WellReported events

instance (w : World) : Decidable w.Reported := inferInstanceAs (Decidable (∀ p ∈ w.edited, _))

instance (event : Event) : Decidable (event = .cycle) :=
  match event with
  | .cycle => isTrue rfl
  | .write _ _ | .delete _ | .built _ | .invalidated _ _ => isFalse nofun

/-- Whether a history is well reported can be seen by going through it. -/
def decideWellReported : ∀ (w : World) (events : List Event), Decidable (w.WellReported events)
  | _, [] => isTrue trivial
  | w, event :: events =>
    have := decideWellReported (w.step event) events
    inferInstanceAs (Decidable ((event = .cycle → w.session.program?.isSome = true → w.Reported) ∧ _))

instance (w : World) (events : List Event) : Decidable (w.WellReported events) := w.decideWellReported events

theorem wellReported_append {before events : List Event} :
    w.WellReported (before ++ events) ↔ w.WellReported before ∧ (w.after before).WellReported events := by
  induction before generalizing w with
  | nil => exact (and_iff_right trivial).symm
  | cons event before ih =>
    rw [List.cons_append, WellReported, WellReported, ih, after_cons, and_assoc]

/-- The units in the store are those of the present texts, up to what was edited and not reported. -/
def Fresh (w : World) : Prop :=
  w.session.store.Units fun k u =>
    w.reported.contains k = false ∧ (w.edited.contains k = true ∨ w.files.get? k = some u.text)

theorem fresh_start (project : Project) (lint? : Option LintConfig) (files : Files) :
    (World.start project lint? files).Fresh := fun _ he => nomatch he

theorem Fresh.tell (h : w.Fresh) (notice : Session.Notice) (paths : List Path) : (w.tell notice paths).Fresh := by
  refine (Session.units_notify h notice paths).mono fun k u ⟨⟨hreported, hedited⟩, hpaths⟩ => ⟨?_, hedited⟩
  show (w.reported ++ paths.map Path.normalize).contains k = false
  rw [List.contains_append, hreported, hpaths]
  rfl

/-- An edit changes the text of its own path only. -/
theorem Fresh.edit (h : w.Fresh) {path : Path} {files : Files}
    (hfiles : ∀ k, (path == k) = false → files.get? k = w.files.get? k) :
    Fresh { w with files := files, edited := w.edited ++ [path] } := by
  refine Store.Units.mono h fun k u ⟨hreported, hedited⟩ => ⟨hreported, ?_⟩
  rw [List.contains_append, Bool.or_eq_true, List.contains_cons, List.contains_nil, Bool.or_false]
  cases hk : path == k with
  | true => exact Or.inl (Or.inr (BEq.symm hk))
  | false => rw [hfiles k hk]; exact hedited.imp_left Or.inl

/-- When all edits are reported, every unit in the store is that of its present text. -/
theorem Fresh.units (h : w.Fresh) (hs : w.Sound)
    (hreported : w.session.program?.isSome = true → w.Reported) :
    w.session.store.Units fun k u => w.files.get? k = some u.text := by
  intro e he u hu
  obtain ⟨hnot, hedited⟩ := h e he u hu
  obtain ⟨program, hprogram, _⟩ := hs.session.current e he u hu
  -- An edited path was reported, and a reported path has no unit.
  refine hedited.resolve_left fun hed => ?_
  obtain ⟨q, hq, hkq⟩ := List.contains_iff_exists_mem_beq.mp hed
  have hrep := hreported (by rw [hprogram]; rfl) q hq
  rw [← List.contains_congr hkq, hnot] at hrep
  exact nomatch hrep

theorem Fresh.step (h : w.Fresh) (hs : w.Sound) (event : Event)
    (hreported : event = .cycle → w.session.program?.isSome = true → w.Reported) : (w.step event).Fresh := by
  cases event with
  | write path text => exact h.edit fun k hk => by rw [Files.write, Dict.get?_insert, hk]; rfl
  | delete path => exact h.edit fun k hk => by rw [Files.remove, Dict.get?_erase, hk]; rfl
  | built files => exact h.tell .built files
  | invalidated changed removed => exact (h.tell .changed changed).tell .removed removed
  | cycle =>
    have hunits := h.units hs (hreported rfl)
    refine ((Session.units_run (Files.finite_toHost w.files) hunits ?_).2).mono fun k u ht =>
      ⟨rfl, Or.inr ht⟩
    intro path text k ht hk
    exact (w.files.get?_congr hk).trans ht

theorem Fresh.after (h : w.Fresh) (hs : w.Sound) {events : List Event} (hw : w.WellReported events) :
    (w.after events).Fresh := by
  induction events generalizing w with
  | nil => exact h
  | cons event events ih => exact ih (h.step hs event hw.1) (hs.step event) hw.2

/-! ## Projects of a history -/

theorem canonical_after (h : w.session.project.Canonical) (events : List Event) :
    (w.after events).session.project.Canonical := by
  induction events generalizing w with
  | nil => exact h
  | cons event events ih =>
    refine ih ?_
    cases event with
    | cycle => exact h.rescan _
    | _ => exact h

/-! ## What a cycle reads -/

theorem contains_reads (p : Path) :
    w.reads.contains p = true ↔ w.program.Discovers p ∧ w.session.store.unit? p = none := by
  have hdiscovers : w.program.Discovers p ↔ w.discovered.contains p = true :=
    Session.discovers_build_iff (Files.finite_toHost w.files)
  rw [hdiscovers, List.contains_iff_exists_mem_beq, List.contains_iff_exists_mem_beq]
  simp only [mem_reads]
  constructor
  · rintro ⟨q, ⟨hq, hu⟩, hpq⟩
    exact ⟨⟨q, hq, hpq⟩, (Store.unit?_congr _ hpq).trans hu⟩
  · rintro ⟨⟨q, hq, hpq⟩, hu⟩
    exact ⟨q, ⟨hq, (Store.unit?_congr _ hpq).symm.trans hu⟩, hpq⟩

/-- With roots that are told apart, no text is read twice. -/
theorem apart_reads (h : w.session.project.Canonical) : Apart w.reads := by
  have hroots : Apart ((w.session.project.rescan w.files.toHost).rootNames.map Path.normalize) := by
    rw [(h.rescan _).map_normalize]
    exact (h.rescan _).apart
  have hhost := Files.finite_toHost w.files
  have hdiscovered : Apart w.discovered :=
    Program.Oracle.apart_discovered hroots hhost (Session.within_oracle _ _ _ _)
  have hreads : w.reads = w.discovered.filter fun p => (w.session.store.unit? p).isNone := by
    unfold reads buildTraced
    rw [Session.buildTraced_snd hhost]
    exact (Session.snd_recordAll _ hdiscovered _ _).trans (List.nil_append _)
  rw [hreads]
  exact hdiscovered.sublist List.filter_sublist

/-- **No cycle works on a stale source.** When all edits are reported before each cycle, every file of the
program has the unit of its present text, and the build reads the text of each discovered path without a unit
once, and no other. -/
theorem no_stale_source {project : Project} (hproject : project.Loaded) (lint? : Option LintConfig)
    (files : Files) {events : List Event}
    (hreported : (World.start project lint? files).WellReported (events ++ [.cycle])) :
    let w := (World.start project lint? files).after events
    ((w.step .cycle).session.program? = some w.program ∧ w.buildTraced.1.1 = w.program) ∧
      (∀ path unit, (path, unit) ∈ w.program.files.entries → (unit.path == path) = true ∧
        ∃ text, w.files.toHost.read? path = some text ∧ unit = .ofText unit.path text) ∧
      ∀ p, (w.program.Discovers p ∧ w.session.store.unit? p = none → w.reads.countP (p == ·) = 1) ∧
        (¬ (w.program.Discovers p ∧ w.session.store.unit? p = none) → w.reads.countP (p == ·) = 0) := by
  intro w
  have hhost := Files.finite_toHost w.files
  have hs : w.Sound := sound_after project lint? files events
  obtain ⟨hbefore, hlast⟩ := wellReported_append.mp hreported
  have hfresh : w.Fresh := (fresh_start project lint? files).after (Sound.start project lint? files) hbefore
  have hunits := hfresh.units hs (hlast.1 rfl)
  have hnoted : w.noted.Units fun k u => w.files.get? k = some u.text :=
    (Session.units_run hhost hunits fun _ _ _ ht hk => (w.files.get?_congr hk).trans ht).1
  refine ⟨⟨rfl, congrArg Prod.fst (Session.buildTraced_fst hhost)⟩, fun path unit hm => ?_, fun p => ?_⟩
  · have hpath : (unit.path == path) = true := (closed_program hs).path_beq (path, unit) hm
    refine ⟨hpath, unit.text, ?_, ?_⟩
    · obtain ⟨k, hk, ht⟩ := hnoted.of_unit? (Session.unit?_noted_of_mem hhost hm BEq.rfl)
      exact (w.files.get?_congr hk).symm.trans ht
    · exact hs.session.read_of_mem hhost unit (List.mem_map_of_mem (f := (·.2)) hm)
  · have hreads := apart_reads (canonical_after (w := World.start project lint? files) hproject.canonical events)
    rw [hreads.countP, ← contains_reads]
    exact ⟨fun h => if_pos h, fun h => if_neg h⟩

/-- A file is written, checked, edited, and reported under another spelling. -/
def respelledEdit : List Event :=
  [.write ⟨"/a.ts"⟩ "", .cycle, .write ⟨"/a.ts"⟩ "var a", .built [⟨"/b/../a.ts"⟩]]

theorem wellReported_respelledEdit (project : Project) :
    (World.start project none .empty).WellReported (respelledEdit ++ [.cycle]) := by
  simp only [respelledEdit, List.cons_append, List.nil_append, WellReported, reduceCtorEq, IsEmpty.forall_iff,
    true_and, and_true, forall_const]
  refine ⟨(fun h => nomatch h), fun _ p hp => ?_⟩
  have hedited : p ∈ [(⟨"/a.ts"⟩ : Path).normalize] := hp
  rw [List.mem_singleton.mp hedited]
  show [(⟨"/b/../a.ts"⟩ : Path).normalize].contains _ = true
  decide +kernel

set_option maxRecDepth 100000 in
theorem no_stale_source_respelled :
    let w := (World.start (.ofRoots ⟨"/p.json"⟩ [⟨"/a.ts"⟩] .standard) none .empty).after respelledEdit
    (w.program.units.map (·.text) = ["var a"] ∧ w.reads = [⟨"/a.ts"⟩]) ∧
      (∀ path unit, (path, unit) ∈ w.program.files.entries → (unit.path == path) = true ∧
        ∃ text, w.files.toHost.read? path = some text ∧ unit = .ofText unit.path text) ∧
      ∀ p, w.program.Discovers p ∧ w.session.store.unit? p = none → w.reads.countP (p == ·) = 1 := by
  have hproject : (Project.ofRoots ⟨"/p.json"⟩ [⟨"/a.ts"⟩] .standard).Loaded := .ofRoots _ _ _
  have hreported := wellReported_respelledEdit (.ofRoots ⟨"/p.json"⟩ [⟨"/a.ts"⟩] .standard)
  have hfresh := (no_stale_source hproject none .empty hreported).2
  exact ⟨⟨by decide +kernel, by decide +kernel⟩, hfresh.1, fun p => (hfresh.2 p).1⟩

end World

end Recheck
