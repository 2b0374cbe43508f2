import Recheck.Session.Cycle
import Recheck.Proofs.Program.Search
import Recheck.Proofs.Session.Records

/-!
# Building a program on a store

The loader of a session answers from its store, and reads what the store does not hold. `Session.answer` is
that answer and `Session.acquire` is what it leaves in the store; the answers to other paths stay as they
are, so by `create_run` a build is the search by the answers of the store that it began with, and the store
is `acquire` folded over the paths that were discovered.

A second loader does the same and writes down which texts it reads. `build_eq_trace` says that it builds the
same program and the same store, so its list is what the session reads.
-/

set_option autoImplicit false

namespace Recheck

open Program (Oracle)

/-- All files of a host have a text, under each spelling of their path. -/
def Host.Readable (host : Host) : Prop :=
  ∀ p q, host.isFile p = true → (p == q) = true → ∃ text, host.read? q = some text

theorem Files.readable_toHost (files : Files) : files.toHost.Readable := by
  intro p q h hpq
  have hq : files.contains q = true := by rw [← files.contains_congr hpq]; exact h
  exact Option.isSome_iff_exists.mp hq

namespace Session

variable {host : Host} {store : Store} {p : Path}

/-! ## The two loaders -/

/-- The unit that a path has: the one in the store, or else the one of its text. -/
def answer (host : Host) (store : Store) (path : Path) : Option SourceUnit :=
  match store.unit? path with
  | some unit => some unit
  | none => (host.read? path).map (SourceUnit.ofText path)

/-- The store once it was asked for a path. -/
def acquire (host : Host) (store : Store) (path : Path) : Store :=
  match store.unit? path with
  | some _ => store
  | none =>
    match host.read? path with
    | some text => store.recordParsed path (SourceUnit.ofText path text)
    | none => store

/-- The list of the texts that were read, once a store was asked for a path. -/
def record (store : Store) (log : List Path) (path : Path) : List Path :=
  if (store.unit? path).isSome then log else log ++ [path]

/-- The loader of a session, which also writes down every path whose text it asks the host for. -/
def tracingLoader (host : Host) : Loader (Store × List Path) where
  load path := do
    let (store, log) ← get
    match store.unit? path with
    | some unit => return some unit
    | none =>
      match host.read? path with
      | none =>
        set (store, log ++ [path])
        return none
      | some text =>
        let unit := SourceUnit.ofText path text
        set (store.recordParsed path unit, log ++ [path])
        return some unit

theorem run_cachingLoader (host : Host) (path : Path) (store : Store) :
    ((cachingLoader host).load path).run store = (answer host store path, acquire host store path) := by
  unfold answer acquire cachingLoader
  simp only [StateT.run_bind, StateT.run_get]
  show StateT.run (match store.unit? path with | some unit => _ | none => _) store = _
  cases store.unit? path with
  | some unit => rfl
  | none =>
    cases host.read? path with
    | none => rfl
    | some text => rfl

theorem run_tracingLoader (host : Host) (path : Path) (store : Store) (log : List Path) :
    ((tracingLoader host).load path).run (store, log) =
      (answer host store path, acquire host store path, record store log path) := by
  unfold answer acquire record tracingLoader
  simp only [StateT.run_bind, StateT.run_get]
  show StateT.run (match store.unit? path with | some unit => _ | none => _) (store, log) = _
  cases store.unit? path with
  | some unit => rfl
  | none =>
    cases host.read? path with
    | none => rfl
    | some text => rfl

theorem answer_cachingLoader (host : Host) : (cachingLoader host).answer = answer host := by
  funext store path
  exact congrArg Prod.fst (run_cachingLoader host path store)

theorem after_cachingLoader (host : Host) : (cachingLoader host).after = acquire host := by
  funext store path
  exact congrArg Prod.snd (run_cachingLoader host path store)

theorem answer_tracingLoader (host : Host) :
    (tracingLoader host).answer = fun st path => answer host st.1 path := by
  funext st path
  exact congrArg Prod.fst (run_tracingLoader host path st.1 st.2)

theorem after_tracingLoader (host : Host) :
    (tracingLoader host).after = fun st path => (acquire host st.1 path, record st.1 st.2 path) := by
  funext st path
  exact congrArg Prod.snd (run_tracingLoader host path st.1 st.2)

/-! ## Answers -/

theorem answer_eq_some_iff {path : Path} {unit : SourceUnit} :
    answer host store path = some unit ↔ store.unit? path = some unit ∨
      store.unit? path = none ∧ ∃ text, host.read? path = some text ∧ SourceUnit.ofText path text = unit := by
  unfold answer
  cases store.unit? path with
  | some u => simp
  | none => simp

theorem answer_eq_none_iff {path : Path} :
    answer host store path = none ↔ store.unit? path = none ∧ host.read? path = none := by
  unfold answer
  cases store.unit? path with
  | some u => simp
  | none => simp

/-- A store parses a path that it has no unit for and that can be read; asked for any other, it stays as it
is. -/
theorem acquire_cases (host : Host) (store : Store) (path : Path) :
    acquire host store path = store ∧ ((store.unit? path).isNone && (host.read? path).isSome) = false ∨
      ∃ text, store.unit? path = none ∧ host.read? path = some text ∧
        acquire host store path = store.recordParsed path (SourceUnit.ofText path text) := by
  unfold acquire
  cases store.unit? path with
  | some unit => exact Or.inl ⟨rfl, rfl⟩
  | none =>
    cases host.read? path with
    | none => exact Or.inl ⟨rfl, rfl⟩
    | some text => exact Or.inr ⟨text, rfl, rfl, rfl⟩

theorem unit?_acquire (host : Host) (store : Store) (path other : Path) :
    (acquire host store path).unit? other =
      if path == other then answer host store path else store.unit? other := by
  rcases acquire_cases host store path with ⟨he, hstay⟩ | ⟨text, hu, ht, he⟩
  · have hanswer : answer host store path = store.unit? path := by
      unfold answer
      cases hu : store.unit? path with
      | some unit => rfl
      | none => simpa [hu] using hstay
    rw [he, hanswer]
    split
    · exact (store.unit?_congr ‹_›).symm
    · rfl
  · rw [he, Store.unit?_recordParsed, answer_eq_some_iff.mpr (Or.inr ⟨hu, text, ht, rfl⟩)]

theorem answer_acquire {path other : Path} (h : (path == other) = true → path = other) :
    answer host (acquire host store path) other = answer host store other := by
  cases hp : path == other with
  | false =>
    unfold answer
    rw [unit?_acquire, hp]
    rfl
  | true =>
    obtain rfl := h hp
    cases ha : answer host store path with
    | some unit =>
      rw [answer_eq_some_iff, unit?_acquire, hp]
      exact Or.inl ha
    | none =>
      rw [answer_eq_none_iff, unit?_acquire, hp]
      exact ⟨ha, (answer_eq_none_iff.mp ha).2⟩

theorem steady_cachingLoader (host : Host) : (cachingLoader host).Steady := by
  intro store a b h
  rw [answer_cachingLoader, after_cachingLoader]
  exact answer_acquire h

theorem steady_tracingLoader (host : Host) : (tracingLoader host).Steady := by
  intro st a b h
  rw [answer_tracingLoader, after_tracingLoader]
  exact answer_acquire h

/-! ## Folding over what was discovered -/

/-- The store once it was asked for some paths. -/
def acquireAll (host : Host) (store : Store) (paths : List Path) : Store :=
  paths.foldl (acquire host) store

theorem acquireAll_cons (host : Host) (store : Store) (path : Path) (paths : List Path) :
    acquireAll host store (path :: paths) = acquireAll host (acquire host store path) paths := rfl

/-- What a path has to answer is what the store holds for it afterwards. -/
theorem unit?_acquireAll {paths : List Path} (h : ∀ q ∈ paths, (q == p) = true → q = p) :
    (acquireAll host store paths).unit? p =
      if paths.contains p then answer host store p else store.unit? p := by
  induction paths generalizing store with
  | nil => rfl
  | cons q paths ih =>
    have hq := h q List.mem_cons_self
    rw [acquireAll_cons, ih fun q' hq' => h q' (List.mem_cons_of_mem _ hq'), answer_acquire hq,
      unit?_acquire, List.contains_cons]
    cases hqp : q == p with
    | true =>
      obtain rfl := hq hqp
      simp
    | false =>
      rw [BEq.symm_false hqp]
      simp

/-- What survives each parse survives a whole build. -/
theorem acquireAll_induction {motive : Store → Prop} {paths : List Path} (h : motive store)
    (hstep : ∀ store, ∀ path ∈ paths, ∀ text, host.read? path = some text → motive store →
      motive (store.recordParsed path (SourceUnit.ofText path text))) :
    motive (acquireAll host store paths) := by
  induction paths generalizing store with
  | nil => exact h
  | cons q paths ih =>
    refine ih ?_ fun store q' hq' => hstep store q' (List.mem_cons_of_mem _ hq')
    rcases acquire_cases host store q with ⟨he, _⟩ | ⟨text, _, ht, he⟩
    · rw [he]; exact h
    · rw [he]; exact hstep store q List.mem_cons_self text ht h

theorem units_acquireAll {Q : Path → SourceUnit → Prop} {paths : List Path} (h : store.Units Q)
    (hq : ∀ path ∈ paths, ∀ text, host.read? path = some text → ∀ k, (k == path) = true →
      Q k (SourceUnit.ofText path text)) : (acquireAll host store paths).Units Q :=
  acquireAll_induction h fun _ path hp text ht hs => hs.recordParsed (hq path hp text ht)

theorem selfFree_acquireAll (h : store.SelfFree) (paths : List Path) :
    (acquireAll host store paths).SelfFree :=
  acquireAll_induction h fun s _ _ _ _ (hs : s.SelfFree) =>
    hs.put rfl (fun _ _ _ h => h) fun _ _ _ h => h

theorem distinct_acquireAll (h : store.records.Distinct) (paths : List Path) :
    (acquireAll host store paths).records.Distinct :=
  acquireAll_induction (motive := fun s => s.records.Distinct) h fun _ _ _ _ _ hs =>
    Store.distinct_put hs ..

theorem removedDependents_acquireAll (paths : List Path) :
    (acquireAll host store paths).removedDependents = store.removedDependents :=
  acquireAll_induction (motive := fun s => s.removedDependents = store.removedDependents) rfl
    fun _ _ _ _ _ hs => hs

/-- The paths that are read and parsed when a store is asked for some paths. -/
def parsed (host : Host) (store : Store) (paths : List Path) : List Path :=
  paths.filter fun p => (store.unit? p).isNone && (host.read? p).isSome

theorem contains_parsed_acquire {path : Path} {text : String} (hu : store.unit? path = none)
    (ht : host.read? path = some text) (paths : List Path) :
    (parsed host (acquire host store path) paths).contains p =
      ((parsed host store paths).contains p && !(path == p)) := by
  have hanswer : answer host store path = some (SourceUnit.ofText path text) :=
    answer_eq_some_iff.mpr (Or.inr ⟨hu, text, ht, rfl⟩)
  induction paths with
  | nil => rfl
  | cons q paths ih =>
    unfold parsed at ih ⊢
    rw [List.filter_cons, List.filter_cons, unit?_acquire, hanswer]
    cases hq : path == q with
    | true =>
      -- `q` is the path that was just acquired, so it is not parsed again.
      rw [if_pos rfl, Option.isNone_some, Bool.false_and, if_neg Bool.false_ne_true, ih]
      split
      · rw [List.contains_cons]
        cases hp : path == p with
        | true => simp
        | false =>
          have hpq : (p == q) = false :=
            Bool.eq_false_iff.mpr fun h => absurd (BEq.trans hq (BEq.symm h)) (by simp [hp])
          rw [hpq, Bool.false_or]
      · rfl
    | false =>
      rw [if_neg Bool.false_ne_true]
      split
      · rw [List.contains_cons, List.contains_cons, ih]
        cases hp : p == q with
        | true =>
          have hpp : (path == p) = false :=
            Bool.eq_false_iff.mpr fun h => absurd (BEq.trans h hp) (by simp [hq])
          simp [hpp]
        | false => rfl
      · exact ih

theorem contains_recentlyAdded_acquireAll (paths : List Path) :
    (acquireAll host store paths).recentlyAdded.contains p =
      (store.recentlyAdded.contains p || (parsed host store paths).contains p) := by
  induction paths generalizing store with
  | nil => simp [acquireAll, parsed]
  | cons q paths ih =>
    rw [acquireAll_cons, ih]
    rcases acquire_cases host store q with ⟨he, hstay⟩ | ⟨text, hu, ht, he⟩
    · rw [he, parsed, parsed, List.filter_cons_of_neg (by simp [hstay])]
    · have hadded : (acquire host store q).recentlyAdded = addNew store.recentlyAdded q := by rw [he]; rfl
      rw [contains_parsed_acquire hu ht, hadded, contains_addNew, parsed, parsed,
        List.filter_cons_of_pos (by simp [hu, ht]), List.contains_cons, BEq.comm (a := q)]
      cases p == q <;> simp

/-! ## The build -/

section Building

variable {project : Project} {old : Option Program}

/-- The oracle that a build on a store follows. -/
def oracle (project : Project) (host : Host) (store : Store) (old : Option Program) : Oracle :=
  ⟨answer host store, Program.tableFor host project.options old⟩

/-- The paths that a build on a store discovers. -/
def discovered (project : Project) (host : Host) (store : Store) (old : Option Program) : List Path :=
  (oracle project host store old).discovered (project.rootNames.map Path.normalize) project.options host

/-- The build, with the list of the texts that it reads. -/
def buildTraced (project : Project) (host : Host) (store : Store) (old : Option Program) :
    (Program × Store) × List Path :=
  let (program, store, log) :=
    (Program.create project.rootNames project.options host (tracingLoader host) old).run (store, [])
  ((program, store), log)

theorem within_oracle (project : Project) (host : Host) (store : Store) (old : Option Program) :
    (oracle project host store old).Within host := by
  have h := Oracle.within_ofLoader (cachingLoader host) store host project.options old
  unfold Oracle.ofLoader at h
  rwa [answer_cachingLoader] at h

/-- A build is the search by the answers of the store that it begins with. -/
theorem build_eq (hhost : host.Finite) :
    build project host store old =
      ((oracle project host store old).program (project.rootNames.map Path.normalize) project.options
          (discovered project host store old),
        acquireAll host store (discovered project host store old)) := by
  have h := Program.create_run (steady_cachingLoader host) hhost project.rootNames project.options old store
  unfold Oracle.ofLoader at h
  rw [answer_cachingLoader, after_cachingLoader] at h
  exact h

/-- Asks a store for some paths, and writes down what is read. -/
def recordAll (host : Host) (st : Store × List Path) (paths : List Path) : Store × List Path :=
  paths.foldl (fun st path => (acquire host st.1 path, record st.1 st.2 path)) st

theorem recordAll_cons (host : Host) (store : Store) (log : List Path) (path : Path) (paths : List Path) :
    recordAll host (store, log) (path :: paths) =
      recordAll host (acquire host store path, record store log path) paths := rfl

theorem fst_recordAll (host : Host) (paths : List Path) (store : Store) (log : List Path) :
    (recordAll host (store, log) paths).1 = acquireAll host store paths := by
  induction paths generalizing store log with
  | nil => rfl
  | cons q paths ih => rw [recordAll_cons, ih, acquireAll_cons]

/-- Written down is what has no unit in the store. -/
theorem mem_recordAll {paths : List Path} (h : OneSpelling paths) (store : Store) (log : List Path) :
    p ∈ (recordAll host (store, log) paths).2 ↔ p ∈ log ∨ p ∈ paths ∧ store.unit? p = none := by
  induction paths generalizing store log with
  | nil => simp [recordAll]
  | cons q paths ih =>
    have hrest : OneSpelling paths := fun a ha b hb =>
      h a (List.mem_cons_of_mem _ ha) b (List.mem_cons_of_mem _ hb)
    have hq : p ∈ paths → (q == p) = true → q = p := fun hp =>
      h q List.mem_cons_self p (List.mem_cons_of_mem _ hp)
    rw [recordAll_cons, ih hrest, unit?_acquire, List.mem_cons, record]
    cases hqp : q == p with
    | false =>
      have hne : p ≠ q := fun he => by simp [he] at hqp
      cases store.unit? q <;> simp [hne]
    | true =>
      rw [if_pos rfl, ← store.unit?_congr hqp]
      cases hu : store.unit? q with
      | some unit => simp [answer_eq_none_iff, hu]
      | none =>
        have hpaths : p ∈ paths → p = q := fun hp => (hq hp hqp).symm
        simp only [Option.isSome_none, Bool.false_eq_true, if_false, List.mem_append, List.mem_singleton]
        tauto

/-- Where no path stands twice, it is written down in order. -/
theorem snd_recordAll (host : Host) {paths : List Path} (hpaths : Apart paths) (store : Store)
    (log : List Path) :
    (recordAll host (store, log) paths).2 = log ++ paths.filter fun p => (store.unit? p).isNone := by
  induction paths generalizing store log with
  | nil => simp [recordAll]
  | cons q paths ih =>
    obtain ⟨hq, hpaths⟩ := apart_cons.mp hpaths
    rw [List.contains_eq_any_beq, List.any_eq_false] at hq
    have hrest : (paths.filter fun p => ((acquire host store q).unit? p).isNone) =
        paths.filter fun p => (store.unit? p).isNone := by
      refine List.filter_congr fun p hp => ?_
      rw [unit?_acquire, if_neg (hq p hp)]
    rw [recordAll_cons, ih hpaths, hrest, List.filter_cons, record]
    cases store.unit? q <;> simp

theorem run_tracingLoader_create (hhost : host.Finite) :
    (Program.create project.rootNames project.options host (tracingLoader host) old).run (store, []) =
      ((oracle project host store old).program (project.rootNames.map Path.normalize) project.options
          (discovered project host store old),
        recordAll host (store, []) (discovered project host store old)) := by
  have h := Program.create_run (steady_tracingLoader host) hhost project.rootNames project.options old
    (store, [])
  unfold Oracle.ofLoader at h
  rw [answer_tracingLoader, after_tracingLoader] at h
  exact h

/-- Writing down what is read changes nothing else. -/
theorem buildTraced_fst (hhost : host.Finite) :
    (buildTraced project host store old).1 = build project host store old := by
  unfold buildTraced
  rw [run_tracingLoader_create hhost, build_eq hhost, ← fst_recordAll host _ store []]

theorem buildTraced_snd (hhost : host.Finite) : (buildTraced project host store old).2 =
    (recordAll host (store, []) (discovered project host store old)).2 := by
  unfold buildTraced
  rw [run_tracingLoader_create hhost]

theorem oneSpelling_discovered (hhost : host.Finite) (project : Project) (store : Store)
    (old : Option Program) : OneSpelling (discovered project host store old) :=
  Oracle.oneSpelling_discovered (Program.oneSpelling_normalize project.rootNames) project.options hhost
    (within_oracle project host store old)

theorem mem_files_build (hhost : host.Finite) {path : Path} {unit : SourceUnit} :
    (path, unit) ∈ (build project host store old).1.files.entries ↔
      path ∈ discovered project host store old ∧ answer host store path = some unit := by
  rw [build_eq hhost]
  exact Program.mem_files_program (oneSpelling_discovered hhost project store old)

theorem resolutions_build_of_mem (hhost : host.Finite) {path : Path} {unit : SourceUnit}
    (hm : (path, unit) ∈ (build project host store old).1.files.entries) :
    (build project host store old).1.resolutions.get? path =
      some (Program.tableFor host project.options old path unit) := by
  obtain ⟨hpath, hanswer⟩ := (mem_files_build hhost).mp hm
  rw [build_eq hhost, Program.resolutions_program (oneSpelling_discovered hhost project store old)]
  refine ⟨path, hpath, BEq.rfl, ?_⟩
  show (answer host store path).map _ = _
  rw [hanswer]
  rfl

theorem discovers_build_iff (hhost : host.Finite) : (build project host store old).1.Discovers p ↔
    (discovered project host store old).contains p = true := by
  rw [build_eq hhost]
  exact Program.discovers_program_iff (Program.oneSpelling_normalize project.rootNames) hhost
    (within_oracle project host store old)

theorem unit?_build_of_mem (hhost : host.Finite) {path other : Path} {unit : SourceUnit}
    (hm : (path, unit) ∈ (build project host store old).1.files.entries) (hp : (path == other) = true) :
    (build project host store old).2.unit? other = some unit := by
  obtain ⟨hpath, hanswer⟩ := (mem_files_build hhost).mp hm
  have hsame := oneSpelling_discovered hhost project store old
  rw [← Store.unit?_congr _ hp, build_eq hhost, unit?_acquireAll fun q hq => hsame q hq path hpath,
    if_pos (List.contains_iff_exists_mem_beq.mpr ⟨path, hpath, BEq.rfl⟩), hanswer]

/-- The units after a build are those of the program, and what was there for other paths. -/
theorem unit?_build (hhost : host.Finite) (p : Path) : (build project host store old).2.unit? p =
    ((build project host store old).1.unit? p).or (store.unit? p) := by
  have hsame := oneSpelling_discovered hhost project store old
  rw [build_eq hhost]
  by_cases hfound : (discovered project host store old).contains p = true
  · obtain ⟨k, hk, hpk⟩ := List.contains_iff_exists_mem_beq.mp hfound
    have hone : ∀ q ∈ discovered project host store old, (q == k) = true → q = k := fun q hq => hsame q hq k hk
    have hin : (discovered project host store old).contains k = true :=
      List.contains_iff_exists_mem_beq.mpr ⟨k, hk, BEq.rfl⟩
    have hfile : ((oracle project host store old).program (project.rootNames.map Path.normalize) project.options
        (discovered project host store old)).unit? k = answer host store k :=
      (Dict.get?_gather _ hone).trans (if_pos hin)
    rw [Store.unit?_congr _ hpk, store.unit?_congr hpk, Program.unit?, Dict.get?_congr _ hpk, ← Program.unit?, hfile,
      unit?_acquireAll hone, if_pos hin]
    cases hanswer : answer host store k with
    | some unit => rfl
    | none => exact (answer_eq_none_iff.mp hanswer).1.symm
  · -- No spelling of the path was asked for.
    have hother : ∀ q ∈ discovered project host store old, (q == p) = true → q = p := fun q hq hqp =>
      absurd (List.contains_iff_exists_mem_beq.mpr ⟨q, hq, BEq.symm hqp⟩) hfound
    have hfile : ((oracle project host store old).program (project.rootNames.map Path.normalize) project.options
        (discovered project host store old)).unit? p = none :=
      (Dict.get?_gather _ hother).trans (if_neg hfound)
    rw [hfile, unit?_acquireAll hother, if_neg hfound]
    rfl

/-- A program takes the unit that the store holds. -/
theorem eq_of_unit?_build (hhost : host.Finite) {unit held : SourceUnit}
    (hu : (build project host store old).1.unit? p = some unit) (hheld : store.unit? p = some held) :
    unit = held := by
  obtain ⟨k, hm, hk⟩ := Dict.exists_mem_of_get? hu
  have hanswer := ((mem_files_build hhost).mp hm).2
  rw [answer, store.unit?_congr hk, hheld] at hanswer
  exact (Option.some.inj hanswer).symm

theorem closed_build (hhost : host.Finite) (hread : host.Readable)
    (hstore : store.Units fun k u => (u.path == k) = true) :
    (build project host store old).1.Closed := by
  rw [build_eq hhost]
  refine Program.closed_program (Program.oneSpelling_normalize project.rootNames) hhost
    (within_oracle project host store old) ?_ ?_
  · intro p unit hu
    rcases answer_eq_some_iff.mp hu with hu | ⟨_, text, _, rfl⟩
    · obtain ⟨k, hk, huk⟩ := hstore.of_unit? hu
      exact BEq.trans huk hk
    · exact BEq.rfl
  · intro p q hp hpq
    obtain ⟨text, ht⟩ := hread p q hp hpq
    show ∃ unit, answer host store q = some unit
    unfold answer
    cases store.unit? q with
    | some unit => exact ⟨unit, rfl⟩
    | none => exact ⟨_, by rw [ht]; rfl⟩

/-- What counts as recently added after a build is what was parsed, if nothing did before. -/
theorem contains_recentlyAdded_build (hhost : host.Finite) (hstore : store.recentlyAdded = []) :
    (build project host store old).2.recentlyAdded.contains p =
      (parsed host store (discovered project host store old)).contains p := by
  rw [build_eq hhost, contains_recentlyAdded_acquireAll, hstore, List.contains_nil, Bool.false_or]

theorem removedDependents_build (hhost : host.Finite) :
    (build project host store old).2.removedDependents = store.removedDependents := by
  rw [build_eq hhost]
  exact removedDependents_acquireAll _

theorem distinct_build (hhost : host.Finite) (h : store.records.Distinct) :
    (build project host store old).2.records.Distinct := by
  rw [build_eq hhost]
  exact distinct_acquireAll h _

theorem selfFree_build (hhost : host.Finite) (h : store.SelfFree) :
    (build project host store old).2.SelfFree := by
  rw [build_eq hhost]
  exact selfFree_acquireAll h _

theorem units_build (hhost : host.Finite) {Q : Path → SourceUnit → Prop} (h : store.Units Q)
    (hq : ∀ path text k, host.read? path = some text → (k == path) = true →
      Q k (SourceUnit.ofText path text)) : (build project host store old).2.Units Q := by
  rw [build_eq hhost]
  exact units_acquireAll h fun path _ text ht k hk => hq path text k ht hk

/-- Diagnostics about the program as a whole name no file. -/
theorem file_of_mem_globalDiagnostics (hhost : host.Finite) {d : Diagnostic}
    (hd : d ∈ (build project host store old).1.globalDiagnostics) : d.file = none := by
  rw [build_eq hhost] at hd
  obtain ⟨_, _, rfl⟩ := List.mem_map.mp hd
  rfl

end Building

end Session

end Recheck
