import Recheck.Proofs.Session.Settled
import Recheck.Proofs.Session.Since

/-!
# What is due for linting

A cycle marks the files that it lints without a failure, and passes marked files by. Nothing but the end of a clean
pass sets a mark (`isLinted_cycle`), and nothing but a notification that hits the record takes it away
(`isLinted_step`); that a file leaves the program does not. So the marks say of each file whether its last pass was
clean and nothing has hit its record since (`isLinted_iff_cleanSince`), and what is linted follows from the past of
the files alone, not from what is checked (`lints_exactly_due`).
-/

set_option autoImplicit false

namespace Recheck

namespace Store

variable {s : Store} {path p : Path}

theorem isLinted_congr (s : Store) {a b : Path} (h : (a == b) = true) : s.isLinted a = s.isLinted b := by
  unfold isLinted holds
  rw [record?_congr s h]

theorem isLinted_update {change : FileRecord → FileRecord} (h : ∀ r, (change r).linted = r.linted) (s : Store)
    (path p : Path) : (s.update path change).isLinted p = s.isLinted p := by
  unfold isLinted holds
  rw [record?_update]
  split
  · cases s.record? p with
    | none => rfl
    | some r => exact h r
  · rfl

/-- A file that is read anew keeps its mark; a new record has none. -/
theorem isLinted_recordParsed (s : Store) (path p : Path) (unit : SourceUnit) :
    (s.recordParsed path unit).isLinted p = s.isLinted p := by
  unfold isLinted holds
  rw [record?_recordParsed]
  split
  · cases s.record? p <;> rfl
  · rfl

theorem isLinted_markLinted (s : Store) (path p : Path) :
    (s.markLinted path).isLinted p = (s.isLinted p || path == p && s.contains p) := by
  have hcontains : s.contains p = (s.record? p).isSome := rfl
  unfold isLinted holds markLinted
  rw [record?_update, hcontains]
  cases path == p <;> cases s.record? p <;> simp

/-- What a cycle forgets at its end has no mark. -/
theorem isLinted_cleanup (hs : s.records.Distinct) (hblank : s.All fun _ r => r.Blank) (p : Path) :
    s.cleanup.isLinted p = s.isLinted p := by
  unfold isLinted holds
  rw [record?_cleanup hs]
  cases hr : s.record? p with
  | none => rfl
  | some r =>
    cases hu : r.unit? with
    | some unit => simp [Option.filter, hu]
    | none =>
      obtain ⟨_, -, hr⟩ := hblank.of_record? hr
      simp [Option.filter, hu, (hr hu).2.2]

end Store

namespace Session

open Lint (failuresIn)

variable {s : Session} {host : Host} {store : Store} {p : Path}

theorem isLinted_noted (hhost : host.Finite) (p : Path) : (s.noted host).isLinted p = s.store.isLinted p := by
  have hbuilt : (s.built host).isLinted p = s.store.isLinted p := by
    rw [built, build_eq hhost]
    exact acquireAll_induction (motive := fun store => store.isLinted p = s.store.isLinted p) rfl
      fun store path _ text _ h => (store.isLinted_recordParsed path p _).trans h
  exact noteDependencies_induction (motive := fun store => store.isLinted p = s.store.isLinted p) hbuilt
    fun store unit _ h => (store.isLinted_update (fun _ => by rfl) unit.path p).trans h

theorem isLinted_foldl_markLinted (marked : List Path) (store : Store) (p : Path) :
    (marked.foldl Store.markLinted store).isLinted p =
      (store.isLinted p || marked.contains p && store.contains p) := by
  induction marked generalizing store with
  | nil => simp
  | cons path marked ih =>
    have hcontains : (store.markLinted path).contains p = store.contains p := store.contains_update path p _
    rw [List.foldl_cons, ih, Store.isLinted_markLinted, hcontains, List.contains_cons, BEq.comm (a := p)]
    cases path == p <;> cases store.contains p <;> simp

/-- The units that the next cycle lints, if it does. -/
def due (s : Session) (host : Host) : List SourceUnit := lintCandidates (s.nextProgram host) (s.noted host)

theorem due_sublist (s : Session) (host : Host) : (s.due host).Sublist (s.nextProgram host).units :=
  List.filter_sublist

theorem mem_due_iff (hhost : host.Finite) {unit : SourceUnit} : unit ∈ s.due host ↔
    unit ∈ (s.nextProgram host).units ∧ (s.nextProgram host).isRoot unit.path = true ∧
      unit.isTypeDefinition = false ∧ s.store.isLinted unit.path = false := by
  unfold due lintCandidates
  rw [List.mem_filter, isLinted_noted hhost]
  simp only [Bool.and_eq_true, Bool.not_eq_true', and_assoc]
  exact and_congr_right fun _ => and_congr_right fun _ => and_comm

theorem lintFailures_eq {config : LintConfig} (hlint : s.lint? = some config) :
    (s.run host).1.lintFailures = (s.due host).flatMap (failuresIn config (s.nextProgram host)) := by
  rw [lintFailures_run, hlint]
  exact List.flatMap_map ..

theorem mem_clean_iff {config : LintConfig} {program : Program} {units : List SourceUnit} :
    (((units.map fun unit => (unit.path, failuresIn config program unit)).filter
        fun (_, failures) => failures.isEmpty).map (·.1)).contains p = true ↔
      ∃ unit ∈ units, (unit.path == p) = true ∧ failuresIn config program unit = [] := by
  rw [List.contains_iff_exists_mem_beq]
  simp only [List.mem_map, List.mem_filter, List.isEmpty_iff]
  constructor
  · rintro ⟨_, ⟨_, ⟨⟨unit, hunit, rfl⟩, hclean⟩, rfl⟩, hp⟩
    exact ⟨unit, hunit, BEq.symm hp, hclean⟩
  · rintro ⟨unit, hunit, hp, hclean⟩
    exact ⟨unit.path, ⟨_, ⟨⟨unit, hunit, rfl⟩, hclean⟩, rfl⟩, BEq.symm hp⟩

/-- A cycle keeps the marks and sets those of the files that passed. -/
theorem isLinted_run (hs : s.Sound) (htidy : s.Tidy) (hhost : host.Finite) (hread : host.Readable)
    {config : LintConfig} (hlint : s.lint? = some config) : (s.run host).2.store.isLinted p = true ↔
      s.store.isLinted p = true ∨
        ∃ unit ∈ s.due host, (unit.path == p) = true ∧ failuresIn config (s.nextProgram host) unit = [] := by
  have hblank : (s.linted host).All fun _ r => r.Blank :=
    (htidy.linted hs hhost hread).mono fun _ _ h => h.1
  have hlinted : s.linted host = (lintRoots config (s.nextProgram host) (s.noted host)).2 := by
    unfold linted
    rw [hlint]
  rw [store_run, Store.isLinted_cleanup (hs.linted hhost).distinct hblank, hlinted, lintRoots]
  simp only [isLinted_foldl_markLinted, Bool.or_eq_true, Bool.and_eq_true, mem_clean_iff]
  rw [isLinted_noted hhost]
  refine or_congr_right (and_iff_left_of_imp ?_)
  -- What is linted is a file of the program, so it has a record.
  rintro ⟨unit, hunit, hp, -⟩
  have hfile : (s.nextProgram host).files.contains p = true :=
    (hs.closed hhost hread).contains_iff.mpr ⟨unit, (s.due_sublist host).mem hunit, hp⟩
  exact (contains_noteDependencies _ p).trans (contains_built_of_contains hhost hfile)

theorem answer_congr (h : ∀ p, s.store.unit? p = store.unit? p) : answer host s.store = answer host store := by
  funext path
  unfold answer
  rw [h]

/-- What is due depends on the store by its units and marks only. -/
theorem due_congr (hhost : host.Finite) (hunit : ∀ p, s.store.unit? p = store.unit? p)
    (hmark : ∀ p, s.store.isLinted p = store.isLinted p) (failed : List Path) :
    let t : Session := { s with store := store, failed := failed }
    t.nextProgram host = s.nextProgram host ∧ t.due host = s.due host := by
  intro t
  have hprogram : t.nextProgram host = s.nextProgram host := by
    unfold nextProgram
    rw [build_eq hhost, build_eq hhost]
    unfold discovered oracle
    rw [answer_congr hunit]
  refine ⟨hprogram, ?_⟩
  unfold due lintCandidates
  rw [hprogram]
  refine List.filter_congr fun unit _ => ?_
  rw [isLinted_noted hhost, isLinted_noted hhost, hmark]

end Session

namespace World

open Lint (failuresIn)

variable {w : World} {p : Path} {config : LintConfig} {event : Event}

/-- The units that the next cycle lints, if it does. -/
def due (w : World) : List SourceUnit := w.session.due w.files.toHost

/-- The next cycle lints a file. -/
def Lints (w : World) (p : Path) : Prop := ∃ unit ∈ w.due, (unit.path == p) = true

/-- The next cycle lints a file and finds nothing. -/
def LintsClean (config : LintConfig) (w : World) (p : Path) : Prop :=
  ∃ unit ∈ w.due, (unit.path == p) = true ∧ failuresIn config w.program unit = []

/-- The last cycle that linted a file found nothing, and no notification has hit its record since. -/
def CleanSince (w : World) (config : LintConfig) (events : List Event) (p : Path) : Prop :=
  w.Since events (fun v => v.LintsClean config p) fun v event =>
    (event = .cycle → ¬ v.Lints p) ∧ event.hits v p = false

theorem lint?_step (w : World) (event : Event) : (w.step event).session.lint? = w.session.lint? := by
  cases event <;> rfl

theorem lint?_after (w : World) (events : List Event) : (w.after events).session.lint? = w.session.lint? := by
  induction events generalizing w with
  | nil => rfl
  | cons event events ih => exact (ih (w.step event)).trans (w.lint?_step event)

theorem isLinted_cycle (h : w.Sound) (htidy : w.session.Tidy) (hlint : w.session.lint? = some config) :
    (w.step .cycle).session.store.isLinted p = true ↔
      w.session.store.isLinted p = true ∨ w.LintsClean config p :=
  Session.isLinted_run h.session htidy (Files.finite_toHost w.files) (Files.readable_toHost w.files) hlint

/-- Marked files are passed by. -/
theorem not_lints_of_isLinted (hmark : w.session.store.isLinted p = true) : ¬ w.Lints p := by
  rintro ⟨unit, hunit, hp⟩
  have hunmarked := ((Session.mem_due_iff (Files.finite_toHost w.files)).mp hunit).2.2.2
  rw [Store.isLinted_congr _ hp, hmark] at hunmarked
  exact nomatch hunmarked

/-- **A mark says that the last pass was clean and that nothing has hit the record since.** -/
theorem isLinted_iff_cleanSince (project : Project) (config : LintConfig) (files : Files) (events : List Event)
    (p : Path) : ((start project (some config) files).after events).session.store.isLinted p = true ↔
      (start project (some config) files).CleanSince config events p := by
  induction events using List.reverseRecOn with
  | nil => exact iff_of_false nofun not_since_nil
  | append_singleton events event ih =>
    have hs := sound_after project (some config) files events
    have htidy := tidy_after (tidy_start project (some config) files) (Sound.start project (some config) files) events
    have hlint := lint?_after (start project (some config) files) events
    rw [after_append_singleton, CleanSince, since_append_singleton, ← CleanSince, ← ih]
    by_cases hcycle : event = .cycle
    · subst hcycle
      rw [isLinted_cycle hs htidy hlint, or_comm]
      refine or_congr (and_iff_right rfl).symm (and_iff_left_of_imp fun hmark => ?_).symm
      exact ⟨fun _ => not_lints_of_isLinted hmark, Event.hits_cycle ..⟩
    · rw [isLinted_step hcycle, Bool.and_eq_true, Bool.not_eq_true']
      constructor
      · exact fun ⟨hmissed, hmark⟩ => Or.inr ⟨hmark, fun h => absurd h hcycle, hmissed⟩
      · rintro (⟨h, -⟩ | ⟨hmark, -, hmissed⟩)
        · exact absurd h hcycle
        · exact ⟨hmissed, hmark⟩

/-- **A cycle lints exactly what is due.** After any history, these are the roots that are no declarations, except
those whose last pass was clean with no notification about their record since. What it returns is the failures in
them, in the order of the program, and it marks those without one. Neither depends on what is checked: with other
failing files, referrers and flags noted, whatever they have checked, the same is linted. -/
theorem lints_exactly_due (project : Project) (config : LintConfig) (files : Files) (events : List Event) :
    let w := (start project (some config) files).after events
    (w.due.Sublist w.program.units ∧ ∀ unit ∈ w.program.units, unit ∈ w.due ↔
        w.program.isRoot unit.path = true ∧ unit.isTypeDefinition = false ∧
          ¬ (start project (some config) files).CleanSince config events unit.path) ∧
      w.result.lintFailures = w.due.flatMap (failuresIn config w.program) ∧
      (∀ unit ∈ w.due, (w.step .cycle).session.store.isLinted unit.path = true ↔
        failuresIn config w.program unit = []) ∧
      ∀ store failed, (∀ p, w.session.store.unit? p = store.unit? p) →
        (∀ p, w.session.store.isLinted p = store.isLinted p) →
        let v := { w with session := { w.session with store := store, failed := failed } }
        v.due = w.due ∧ v.result.lintFailures = w.result.lintFailures := by
  intro w
  have hhost := Files.finite_toHost w.files
  have hs : w.Sound := sound_after project (some config) files events
  have htidy : w.session.Tidy :=
    tidy_after (tidy_start project (some config) files) (Sound.start project (some config) files) events
  have hlint : w.session.lint? = some config := lint?_after (start project (some config) files) events
  refine ⟨⟨Session.due_sublist .., fun unit hunit => ?_⟩, Session.lintFailures_eq hlint, fun unit hunit => ?_, ?_⟩
  · rw [due, Session.mem_due_iff hhost, ← isLinted_iff_cleanSince, Bool.not_eq_true]
    exact and_iff_right hunit
  · have hunmarked := ((Session.mem_due_iff hhost).mp hunit).2.2.2
    rw [isLinted_cycle hs htidy hlint, hunmarked, or_iff_right Bool.false_ne_true]
    refine ⟨fun ⟨passed, hpassed, hp, hclean⟩ => ?_, fun hclean => ⟨unit, hunit, BEq.rfl, hclean⟩⟩
    -- Units of a program are told apart by their paths.
    have hclosed := closed_program hs
    have hsame := (hclosed.unit?_iff.mpr ⟨(Session.due_sublist ..).mem hpassed, hp⟩).symm.trans
      (hclosed.unit?_iff.mpr ⟨(Session.due_sublist ..).mem hunit, BEq.rfl⟩)
    rwa [← Option.some.inj hsame]
  · intro store failed hunit hmark v
    obtain ⟨hprogram, hdue⟩ := Session.due_congr hhost hunit hmark failed
    refine ⟨hdue, ?_⟩
    have hfailures : v.result.lintFailures = v.due.flatMap (failuresIn config v.program) :=
      Session.lintFailures_eq hlint
    have hdue : v.due = w.due := hdue
    have hprogram : v.program = w.program := hprogram
    rw [hfailures, hdue, hprogram]
    exact (Session.lintFailures_eq hlint).symm

end World

end Recheck
