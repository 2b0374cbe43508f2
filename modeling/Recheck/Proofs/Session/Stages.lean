import Recheck.Proofs.Session.Build

/-!
# The stages of a cycle

`Session.run` builds, notes dependencies, selects, checks, lints and cleans up. Each stage has a name here,
the fields of the result are said by these names (`checkedFiles_run` and its siblings), and each stage has
its law: what it does to the record of a path, and which statements about the store survive it.

What the selection rests on is `leads_noted_iff`. The store holds records of files that left the program,
and edges from them are out of date; but the file of a program refers to files of the program only, so a
search that starts there never meets such a record.
-/

set_option autoImplicit false

namespace Recheck

namespace Program

variable {p : Program} {unit : SourceUnit} {b : Path}

/-- The dependencies of a file are what it refers to, apart from itself. -/
theorem contains_dependencies_iff :
    (p.dependencies unit).contains b = true ↔ p.Imports unit.path b ∧ (b == unit.path) = false := by
  unfold dependencies Imports
  cases ht : p.resolutions.get? unit.path with
  | none => simp
  | some table =>
    simp only [contains_distinct, Option.some.injEq, exists_eq_left']
    simp only [List.contains_iff_exists_mem_beq, List.mem_filter]
    constructor
    · rintro ⟨t, ⟨ht, hne⟩, hbt⟩
      refine ⟨⟨t, ht, hbt⟩, Bool.eq_false_iff.mpr fun hb => ?_⟩
      rw [BEq.trans (BEq.symm hbt) hb] at hne
      exact nomatch hne
    · rintro ⟨⟨t, ht, hbt⟩, hne⟩
      refine ⟨t, ⟨ht, ?_⟩, hbt⟩
      rw [← BEq.congr_left hbt, hne]
      rfl

/-- What a file of the program leads to is a file of the program. -/
theorem Closed.contains_of_leads (hp : p.Closed) {a b : Path} (ha : p.files.contains a = true)
    (h : Leads p.Imports a b) : p.files.contains b = true := by
  induction h with
  | here hab => rwa [← p.files.contains_congr hab]
  | step himport _ ih => exact ih (hp.contains_of_imports himport)

end Program

namespace Session

variable {host : Host} {store : Store} {program : Program} {unit : SourceUnit} {path a b q : Path}

/-! ## Noting dependencies -/

/-- The record of a file once its dependencies were noted. -/
def notedRecord (program : Program) (unit : SourceUnit) (r : FileRecord) : FileRecord :=
  { r with dependencies := distinct (program.dependencies unit), globalImpact := unit.hasGlobalImpact }

theorem unit?_notedRecord (program : Program) (unit : SourceUnit) (r : FileRecord) :
    (notedRecord program unit r).unit? = r.unit? := rfl

theorem record?_foldl_noted {units : List SourceUnit} (h : Apart (units.map (·.path))) (store : Store) :
    let noted := units.foldl (fun store unit =>
      store.updateDependencies unit.path (program.dependencies unit) unit.hasGlobalImpact) store
    (∀ u ∈ units, (u.path == path) = true →
      noted.record? path = (store.record? path).map (notedRecord program u)) ∧
    ((∀ u ∈ units, (u.path == path) = false) → noted.record? path = store.record? path) := by
  induction units generalizing store with
  | nil => simp
  | cons v units ih =>
    rw [List.map_cons, apart_cons, List.contains_eq_any_beq, List.any_eq_false] at h
    obtain ⟨hv, hunits⟩ := h
    obtain ⟨hmem, hnot⟩ := ih hunits
      (store.updateDependencies v.path (program.dependencies v) v.hasGlobalImpact)
    have hupdate : (store.updateDependencies v.path (program.dependencies v) v.hasGlobalImpact).record? path =
        if v.path == path then (store.record? path).map (notedRecord program v) else store.record? path :=
      Store.record?_update ..
    simp only [List.foldl_cons]
    constructor
    · intro u hu hp
      -- Only one unit has this path: notes before its own and after it pass the record by.
      rcases List.mem_cons.mp hu with rfl | hu
      · rw [hnot, hupdate, if_pos hp]
        intro w hw
        refine Bool.eq_false_iff.mpr fun hc => hv w.path (List.mem_map_of_mem hw) ?_
        exact BEq.trans hp (BEq.symm hc)
      · have hvp : ¬ (v.path == path) = true := fun hc =>
          hv u.path (List.mem_map_of_mem hu) (BEq.trans hc (BEq.symm hp))
        rw [hmem u hu hp, hupdate, if_neg hvp]
    · intro hall
      rw [hnot fun u hu => hall u (List.mem_cons_of_mem _ hu), hupdate,
        if_neg (by simp [hall v List.mem_cons_self])]

theorem record?_noteDependencies (hp : program.Closed) (hu : unit ∈ program.units)
    (hpath : (unit.path == path) = true) (store : Store) :
    (noteDependencies program store).record? path = (store.record? path).map (notedRecord program unit) :=
  (record?_foldl_noted hp.apart_paths store).1 unit hu hpath

/-- What survives each note survives them all. -/
theorem noteDependencies_induction {motive : Store → Prop} (h : motive store)
    (hstep : ∀ store, ∀ unit ∈ program.units, motive store → motive
      (store.updateDependencies unit.path (program.dependencies unit) unit.hasGlobalImpact)) :
    motive (noteDependencies program store) := by
  unfold noteDependencies
  generalize program.units = units at hstep ⊢
  induction units generalizing store with
  | nil => exact h
  | cons u units ih =>
    exact ih (hstep store u List.mem_cons_self h) fun s v hv => hstep s v (List.mem_cons_of_mem _ hv)

theorem distinct_noteDependencies (h : store.records.Distinct) :
    (noteDependencies program store).records.Distinct :=
  noteDependencies_induction (motive := fun s => s.records.Distinct) h fun _ _ _ hs =>
    Store.distinct_update hs ..

theorem selfFree_noteDependencies (h : store.SelfFree) : (noteDependencies program store).SelfFree := by
  refine noteDependencies_induction h fun s u _ (hs : s.SelfFree) => hs.update (fun k r hk _ => ?_) fun _ _ _ h => h
  simp only [contains_distinct]
  refine Bool.eq_false_iff.mpr fun hc => ?_
  rw [(Program.contains_dependencies_iff.mp hc).2] at hk
  exact nomatch hk

theorem units_noteDependencies {Q : Path → SourceUnit → Prop} (h : store.Units Q) :
    (noteDependencies program store).Units Q :=
  noteDependencies_induction h fun _ u _ hs => hs.update (unit?_notedRecord program u) u.path

theorem unit?_noteDependencies (path : Path) :
    (noteDependencies program store).unit? path = store.unit? path :=
  noteDependencies_induction (motive := fun s => s.unit? path = store.unit? path) rfl fun s u _ hs =>
    (s.unit?_update (unit?_notedRecord program u) u.path path).trans hs

theorem recent_noteDependencies : (noteDependencies program store).recent = store.recent :=
  noteDependencies_induction (motive := fun s => s.recent = store.recent) rfl fun _ _ _ hs => hs

theorem hasGlobalImpact_noteDependencies (hp : program.Closed) (hu : unit ∈ program.units)
    (hpath : (unit.path == path) = true) (hstore : store.contains path = true) :
    (noteDependencies program store).hasGlobalImpact path = unit.hasGlobalImpact := by
  obtain ⟨r, hr⟩ := Option.isSome_iff_exists.mp hstore
  have hr : store.record? path = some r := hr
  unfold Store.hasGlobalImpact Store.holds
  rw [record?_noteDependencies hp hu hpath, hr]
  rfl

/-! ## Selecting files -/

theorem refers_noteDependencies_iff (hp : program.Closed) (hs : store.records.Distinct)
    (hu : unit ∈ program.units) (ha : (unit.path == a) = true) (hstore : store.contains a = true) :
    (noteDependencies program store).Refers a b ↔ program.Imports a b ∧ (b == a) = false := by
  obtain ⟨r, hr⟩ := Option.isSome_iff_exists.mp hstore
  have hr : store.record? a = some r := hr
  rw [Store.refers_iff_record? (distinct_noteDependencies hs), record?_noteDependencies hp hu ha, hr]
  simp only [Option.map_some, Option.some.injEq, exists_eq_left', notedRecord, contains_distinct]
  rw [Program.contains_dependencies_iff, BEq.congr_right ha]
  exact and_congr_left fun _ => ⟨fun h => h.congr_left (BEq.symm ha), fun h => h.congr_left ha⟩

/-- From a file of the program the notes lead where the program leads. -/
theorem leads_noteDependencies_iff (hp : program.Closed) (hs : store.records.Distinct)
    (hstore : ∀ p, program.files.contains p = true → store.contains p = true)
    (ha : program.files.contains a = true) :
    Leads (noteDependencies program store).Refers a q ↔ Leads program.Imports a q := by
  have hedge : ∀ {a b}, program.files.contains a = true →
      ((noteDependencies program store).Refers a b ↔ program.Imports a b ∧ (b == a) = false) := by
    intro a b ha
    obtain ⟨u, hu, hua⟩ := hp.contains_iff.mp ha
    exact refers_noteDependencies_iff hp hs hu hua (hstore a ha)
  constructor
  · intro h
    induction h with
    | here haq => exact .here haq
    | step hr _ ih =>
      have himport := ((hedge ha).mp hr).1
      exact .step himport (ih (hp.contains_of_imports himport))
  · intro h
    induction h with
    | here haq => exact .here haq
    | @step a b c himport _ ih =>
      -- A file that imports itself has no edge to itself; the step is skipped.
      have hrest := ih (hp.contains_of_imports himport)
      cases hba : b == a with
      | true => exact hrest.congr_left Store.Refers.congr_left (BEq.symm hba)
      | false => exact .step ((hedge ha).mpr ⟨himport, hba⟩) hrest

theorem selectUnits_sublist (program : Program) (store : Store) (seed : List Path) :
    (selectUnits program store seed).Sublist program.units := by
  unfold selectUnits
  split
  · exact List.Sublist.refl _
  · exact List.filter_sublist

/-- A file is selected when all are, or when it leads to the seed along the program. -/
theorem mem_selectUnits_iff (hp : program.Closed) (hs : store.records.Distinct)
    (hstore : ∀ p, program.files.contains p = true → store.contains p = true) {seed : List Path} :
    unit ∈ selectUnits program (noteDependencies program store) seed ↔ unit ∈ program.units ∧
      (needsFullCheck (noteDependencies program store) seed = true ∨
        ∃ q ∈ seed, Leads program.Imports unit.path q) := by
  unfold selectUnits
  split
  · rename_i hfull
    simp [hfull]
  · rename_i hfull
    rw [List.mem_filter, Store.contains_affected_iff]
    refine and_congr_right fun hu => ?_
    have hfile : program.files.contains unit.path = true := hp.contains_iff.mpr ⟨unit, hu, BEq.rfl⟩
    rw [or_iff_right hfull]
    exact exists_congr fun q => and_congr_right fun _ => leads_noteDependencies_iff hp hs hstore hfile

/-! ## A run by its stages -/

section Stages

variable (s : Session) (host : Host)

/-- The program that the next cycle builds. -/
def nextProgram : Program := (build (s.project.rescan host) host s.store s.program?).1

/-- The store when the next cycle has built its program. -/
def built : Store := (build (s.project.rescan host) host s.store s.program?).2

/-- The store when the next cycle has noted the dependencies. -/
def noted : Store := noteDependencies (s.nextProgram host) (s.built host)

/-- The paths from which a change spreads in the next cycle. -/
def seed : List Path := Path.sortDistinct (s.store.needingReload ++ (s.noted host).recent ++ s.failed)

/-- The files that the next cycle checks. -/
def selected : List SourceUnit := selectUnits (s.nextProgram host) (s.noted host) (s.seed host)

/-- What the next cycle finds in each file that it checks. -/
def findings : List (Path × List Diagnostic) :=
  (TypeChecker.ofProgram (s.nextProgram host)).diagnosticsOf ((s.selected host).map (·.path))

/-- The store when the next cycle has linted. -/
def linted : Store :=
  match s.lint? with
  | some config => (lintRoots config (s.nextProgram host) (s.noted host)).2
  | none => s.noted host

variable {s host}

/-- Only files of the program are marked, and what survives each mark survives linting. -/
theorem linted_induction_units {motive : Store → Prop} (h : motive (s.noted host))
    (hstep : ∀ store, ∀ unit ∈ (s.nextProgram host).units, motive store → motive (store.markLinted unit.path)) :
    motive (s.linted host) := by
  unfold linted
  cases s.lint? with
  | none => exact h
  | some config =>
    unfold lintRoots
    simp only
    have hmarks : ∀ (marked : List Path) {store : Store},
        (∀ p ∈ marked, ∃ unit ∈ (s.nextProgram host).units, unit.path = p) →
          motive store → motive (marked.foldl Store.markLinted store) := by
      intro marked
      induction marked with
      | nil => exact fun _ h => h
      | cons p marked ih =>
        intro store hmarked hstore
        obtain ⟨unit, hu, rfl⟩ := hmarked p List.mem_cons_self
        exact ih (fun q hq => hmarked q (List.mem_cons_of_mem _ hq)) (hstep store unit hu hstore)
    refine hmarks _ (fun p hp => ?_) h
    obtain ⟨e, he, rfl⟩ := List.mem_map.mp hp
    obtain ⟨unit, hu, rfl⟩ := List.mem_map.mp (List.mem_of_mem_filter he)
    exact ⟨unit, List.mem_of_mem_filter hu, rfl⟩

/-- What survives each mark survives linting. -/
theorem linted_induction {motive : Store → Prop} (h : motive (s.noted host))
    (hstep : ∀ store path, motive store → motive (store.markLinted path)) : motive (s.linted host) :=
  linted_induction_units h fun store unit _ => hstep store unit.path

theorem hasGlobalImpact_markLinted (store : Store) (path other : Path) :
    (store.markLinted path).hasGlobalImpact other = store.hasGlobalImpact other := by
  unfold Store.hasGlobalImpact Store.holds Store.markLinted
  rw [Store.record?_update]
  split
  · cases store.record? other <;> rfl
  · rfl

theorem diagnostics_run : (s.run host).1.diagnostics =
    (s.nextProgram host).globalDiagnostics ++ (s.findings host).flatMap (·.2) := rfl

theorem checkedFiles_run : (s.run host).1.checkedFiles = (s.selected host).map (·.path) := rfl

theorem fullCheck_run : (s.run host).1.fullCheck = needsFullCheck (s.noted host) (s.seed host) := by
  have hflag : ∀ p, (s.linted host).hasGlobalImpact p = (s.noted host).hasGlobalImpact p := fun p =>
    linted_induction (motive := fun store => store.hasGlobalImpact p = (s.noted host).hasGlobalImpact p) rfl
      fun store path h => (hasGlobalImpact_markLinted store path p).trans h
  have hrun : (s.run host).1.fullCheck = needsFullCheck (s.linted host) (s.seed host) := by
    unfold run linted
    cases s.lint? <;> rfl
  rw [hrun]
  unfold needsFullCheck
  exact congrArg _ (funext hflag)

theorem store_run : (s.run host).2.store = (s.linted host).cleanup := by
  unfold run linted
  cases s.lint? <;> rfl

theorem program?_run : (s.run host).2.program? = some (s.nextProgram host) := rfl

theorem failed_run : (s.run host).2.failed =
    ((s.findings host).filter fun (_, found) => !found.isEmpty).map (·.1) := rfl

end Stages

end Session

end Recheck
