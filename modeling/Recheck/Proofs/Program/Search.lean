import Recheck.Program.Basic
import Recheck.Proofs.Data.Dict
import Recheck.Proofs.Text.PathNormal
import Mathlib.Data.List.ReduceOption
import Mathlib.Logic.Function.Iterate

/-!
# The search for the files of a program

`Program.search` asks a loader for one path after the other, and the loader keeps a state of its own. What
the search does with an answer does not depend on that state, so it is said here without it: an `Oracle`
gives the unit of each path and the table of each unit, `Search.next` takes the first path of the queue, and
`Search.Explored` says all that holds after any number of steps.

The statement is an equation, not a list of properties. What was seen is the roots and the targets of what
is done, each once; the program is a function of the paths that are done (`Oracle.program`). A search that
has come to its end has done all that it saw, so its program is known entry by entry.

`create_run` leads back to the loader: for a loader that answers a path in the same way until the path is
asked for, `Program.create` is the search by its first answers.
-/

set_option autoImplicit false

namespace Recheck

/-- The number of files is what the host says at most. -/
def Host.Finite (host : Host) : Prop :=
  ∀ paths : List Path, Apart paths → (∀ p ∈ paths, host.isFile p = true) → paths.length ≤ host.capacity

theorem Files.finite_toHost (files : Files) : files.toHost.Finite :=
  fun _ ha hp => files.length_le_size ha hp

/-- A unit is what its own text reads as. -/
def SourceUnit.Read (unit : SourceUnit) : Prop := unit = .ofText unit.path unit.text

theorem SourceUnit.read_ofText (path : Path) (text : String) : (ofText path text).Read := rfl

theorem SourceUnit.Read.tree_eq {unit : SourceUnit} (h : unit.Read) : unit.tree = (Syntax.parse unit.text).tree :=
  congrArg SourceUnit.tree h

theorem SourceUnit.Read.reports_eq_nil {unit : SourceUnit} (h : unit.Read) (hclean : unit.syntaxDiagnostics = []) :
    (Syntax.parse unit.text).reports = [] := by
  rw [h] at hclean
  exact List.map_eq_nil_iff.mp hclean

namespace Loader

variable {σ : Type}

/-- What a loader answers in a state. -/
def answer (loader : Loader σ) (st : σ) (path : Path) : Option SourceUnit := ((loader.load path).run st).1

/-- The state of a loader when it was asked for a path. -/
def after (loader : Loader σ) (st : σ) (path : Path) : σ := ((loader.load path).run st).2

/-- Being asked for a path changes no answer, for this path or for others. Another spelling of the path is
the exception, since a unit remembers how its path was spelled. -/
def Steady (loader : Loader σ) : Prop :=
  ∀ (st : σ) (a b : Path), ((a == b) = true → a = b) →
    loader.answer (loader.after st a) b = loader.answer st b

theorem Steady.answer_foldl {loader : Loader σ} (hl : loader.Steady) {paths : List Path} {path : Path}
    (h : ∀ a ∈ paths, (a == path) = true → a = path) (st : σ) :
    loader.answer (paths.foldl loader.after st) path = loader.answer st path := by
  induction paths generalizing st with
  | nil => rfl
  | cons a paths ih =>
    rw [List.foldl_cons, ih (fun b hb => h b (List.mem_cons_of_mem _ hb)),
      hl st a path (h a List.mem_cons_self)]

end Loader

namespace Program

/-- The table that a search gives to a unit: the one of an older program where it still holds. -/
def tableFor (host : Host) (options : CompilerOptions) (old : Option Program) (path : Path)
    (unit : SourceUnit) : ResolutionTable :=
  (reusable? old path unit options host).getD (resolveImports unit options host)

/-- The answers that determine a search. -/
structure Oracle where
  unit? : Path → Option SourceUnit
  table : Path → SourceUnit → ResolutionTable

namespace Oracle

/-- The table of a path that can be read. -/
def table? (o : Oracle) (path : Path) : Option ResolutionTable := (o.unit? path).map (o.table path)

/-- What a path refers to. -/
def targets (o : Oracle) (path : Path) : List Path :=
  ((o.table? path).map fun table => table.values.reduceOption).getD []

/-- The program of some roots, as far as these paths are visited. -/
def program (o : Oracle) (roots : List Path) (options : CompilerOptions) (done : List Path) : Program where
  rootNames := roots
  options := options
  files := .gather o.unit? done
  resolutions := .gather o.table? done
  globalDiagnostics :=
    (done.filter fun path => (o.unit? path).isNone && roots.any (· == path)).map fileNotFound

/-- An oracle finds nothing but the files of a host. -/
def Within (o : Oracle) (host : Host) : Prop := ∀ p, ∀ target ∈ o.targets p, host.isFile target = true

end Oracle

namespace Search

variable {o : Oracle} {roots done : List Path} {options : CompilerOptions} {s : Search}

/-- Takes the first path of the queue. -/
def next (o : Oracle) (s : Search) : Search :=
  match s.queue with
  | [] => s
  | path :: queue =>
    let s := { s with queue := queue }
    match o.unit? path with
    | none => s.miss path
    | some unit => s.visit path unit (o.table path unit)

/-- Nothing is done yet. -/
def start (roots : List Path) (options : CompilerOptions) : Search :=
  ⟨roots, roots, ⟨roots, options, .empty, .empty, []⟩⟩

/-- Where a search is that has visited some paths. -/
structure Explored (o : Oracle) (roots : List Path) (options : CompilerOptions) (done : List Path)
    (s : Search) : Prop where
  seen_eq : s.seen = done ++ s.queue
  seen_eq_foldl : s.seen = (done.flatMap o.targets).foldl addNew roots
  program_eq : s.program = o.program roots options done

theorem foldl_enqueue_program (targets : List Path) (s : Search) :
    (targets.foldl enqueue s).program = s.program := by
  induction targets generalizing s with
  | nil => rfl
  | cons target targets ih =>
    rw [List.foldl_cons, ih]
    unfold enqueue
    split <;> rfl

theorem foldl_enqueue_seen (targets : List Path) (s : Search) :
    (targets.foldl enqueue s).seen = targets.foldl addNew s.seen := by
  induction targets generalizing s with
  | nil => rfl
  | cons target targets ih =>
    rw [List.foldl_cons, ih, List.foldl_cons]
    unfold enqueue addNew
    split <;> rfl

/-- Queueing keeps the queue a tail of what was seen. -/
theorem foldl_enqueue_append (targets : List Path) (s : Search) (hs : s.seen = done ++ s.queue) :
    (targets.foldl enqueue s).seen = done ++ (targets.foldl enqueue s).queue := by
  induction targets generalizing s with
  | nil => exact hs
  | cons target targets ih =>
    refine ih _ ?_
    unfold enqueue
    split
    · exact hs
    · simp [hs]

theorem visit_program (s : Search) (path : Path) (unit : SourceUnit) (table : ResolutionTable) :
    (s.visit path unit table).program = { s.program with
      files := s.program.files.insert path unit
      resolutions := s.program.resolutions.insert path table } := by
  unfold visit
  simp only [foldl_enqueue_program]

theorem Explored.start (o : Oracle) (roots : List Path) (options : CompilerOptions) :
    Explored o roots options [] (start roots options) where
  seen_eq := rfl
  seen_eq_foldl := rfl
  program_eq := rfl

theorem next_nil (hq : s.queue = []) : s.next o = s := by
  unfold next
  rw [hq]

theorem next_miss {path : Path} {queue : List Path} (hq : s.queue = path :: queue)
    (hu : o.unit? path = none) : s.next o = { s with queue := queue }.miss path := by
  unfold next
  simp only [hq, hu]

theorem next_visit {path : Path} {queue : List Path} {unit : SourceUnit} (hq : s.queue = path :: queue)
    (hu : o.unit? path = some unit) :
    s.next o = { s with queue := queue }.visit path unit (o.table path unit) := by
  unfold next
  simp only [hq, hu]

theorem next_congr {o' : Oracle} (h : ∀ path queue, s.queue = path :: queue →
    o.unit? path = o'.unit? path ∧ o.table? path = o'.table? path) : s.next o = s.next o' := by
  cases hq : s.queue with
  | nil => rw [next_nil hq, next_nil hq]
  | cons path queue =>
    obtain ⟨hunit, htable⟩ := h path queue hq
    cases hu : o.unit? path with
    | none => rw [next_miss hq hu, next_miss hq (hunit ▸ hu)]
    | some unit =>
      have hu' : o'.unit? path = some unit := hunit ▸ hu
      simp only [Oracle.table?, hu, hu', Option.map_some, Option.some.injEq] at htable
      rw [next_visit hq hu, next_visit hq hu', htable]

theorem seen_subset_next (s : Search) : s.seen ⊆ (s.next o).seen := by
  cases hq : s.queue with
  | nil => rw [next_nil hq]; exact List.Subset.refl _
  | cons path queue =>
    cases hu : o.unit? path with
    | none =>
      rw [next_miss hq hu]
      unfold miss
      split <;> exact List.Subset.refl _
    | some unit =>
      obtain ⟨found, he, _⟩ := exists_foldl_addNew (o.table path unit).values.reduceOption s.seen
      have hseen : ({ s with queue := queue }.visit path unit (o.table path unit)).seen = s.seen ++ found :=
        (foldl_enqueue_seen _ { s with queue := queue }).trans he
      rw [next_visit hq hu, hseen]
      exact List.subset_append_left ..

theorem Explored.next {path : Path} {queue : List Path} (h : Explored o roots options done s)
    (hq : s.queue = path :: queue) : Explored o roots options (done ++ [path]) (s.next o) := by
  have hseen : s.seen = (done ++ [path]) ++ queue := by rw [h.seen_eq, hq]; simp
  -- A path without a unit adds no target; one with a unit adds those of its table.
  cases hu : o.unit? path with
  | none =>
    have htargets : o.targets path = [] := by simp [Oracle.targets, Oracle.table?, hu]
    have hstep : { s with queue := queue }.miss path =
        { s with queue := queue, program := o.program roots options (done ++ [path]) } := by
      unfold miss isRoot Oracle.program
      simp only [h.program_eq, Oracle.program, Dict.gather_append_singleton, Oracle.table?, hu, Option.map_none,
        List.filter_append, List.map_append]
      cases hr : roots.any (· == path) <;> simp [hr, hu]
    rw [next_miss hq hu, hstep]
    refine ⟨hseen, ?_, rfl⟩
    rw [List.flatMap_append, List.foldl_append, ← h.seen_eq_foldl]
    simp [htargets]
  | some unit =>
    have htargets : o.targets path = (o.table path unit).values.reduceOption := by
      simp [Oracle.targets, Oracle.table?, hu]
    rw [next_visit hq hu]
    refine ⟨foldl_enqueue_append _ { s with queue := queue } hseen, ?_, ?_⟩
    · rw [List.flatMap_append, List.foldl_append, ← h.seen_eq_foldl, List.flatMap_singleton, htargets]
      exact foldl_enqueue_seen _ { s with queue := queue }
    · rw [visit_program]
      simp only [h.program_eq, Oracle.program, Dict.gather_append_singleton, Oracle.table?,
        hu, Option.map_some, List.filter_append]
      simp [hu]

/-- After `n` steps either all that was seen is done, or `n` more paths are. -/
theorem Explored.iterate (n : Nat) (h : Explored o roots options done s) :
    ∃ more, Explored o roots options (done ++ more) ((Search.next o)^[n] s) ∧
      (((Search.next o)^[n] s).queue = [] ∨ more.length = n) := by
  induction n with
  | zero => exact ⟨[], by simpa using h, Or.inr rfl⟩
  | succ n ih =>
    obtain ⟨more, hex, hlen⟩ := ih
    rw [Function.iterate_succ_apply']
    cases hq : ((Search.next o)^[n] s).queue with
    | nil =>
      rw [next_nil hq]
      exact ⟨more, hex, Or.inl hq⟩
    | cons path queue =>
      have hlen := hlen.resolve_left (by simp [hq])
      exact ⟨more ++ [path], by simpa using hex.next hq, Or.inr (by simp [hlen])⟩

theorem Explored.oneSpelling (h : Explored o roots options done s) (hroots : OneSpelling roots) :
    OneSpelling s.seen := by
  rw [h.seen_eq_foldl]
  exact hroots.foldl_addNew _

/-- The targets that were found are files, and no two are the same; so there is room for no more. -/
theorem Explored.length_le {host : Host} (h : Explored o roots options done s) (hhost : host.Finite)
    (ho : o.Within host) : s.seen.length ≤ roots.length + host.capacity := by
  obtain ⟨found, he, ha, hf⟩ := exists_foldl_addNew (done.flatMap o.targets) roots
  rw [h.seen_eq_foldl, he, List.length_append]
  -- What was found beyond the roots is targets, and these are files.
  have hcap := hhost found ha fun p hp => by
    obtain ⟨d, _, hd⟩ := List.mem_flatMap.mp (hf p hp).1
    exact ho d p hd
  omega

end Search

/-! ## The end of a search -/

namespace Oracle

variable {o : Oracle} {roots : List Path} {options : CompilerOptions} {host : Host}

/-- A search of some roots after as many steps as `create` allows it. -/
def last (o : Oracle) (roots : List Path) (options : CompilerOptions) (host : Host) : Search :=
  (Search.next o)^[roots.length + host.capacity + 1] (Search.start roots options)

/-- The paths that a search of some roots discovers. -/
def discovered (o : Oracle) (roots : List Path) (options : CompilerOptions) (host : Host) : List Path :=
  (o.last roots options host).seen

/-- The steps are enough: at the end all that was discovered is done. -/
theorem explored_last (roots : List Path) (options : CompilerOptions) (hhost : host.Finite)
    (ho : o.Within host) :
    (o.last roots options host).queue = [] ∧
      Search.Explored o roots options (o.discovered roots options host) (o.last roots options host) := by
  obtain ⟨done, hex, hlen⟩ := (Search.Explored.start o roots options).iterate (roots.length + host.capacity + 1)
  rw [List.nil_append] at hex
  have hle := hex.length_le hhost ho
  -- Had all steps been used up, more paths would be done than there are.
  have hqueue : (o.last roots options host).queue = [] := by
    refine hlen.resolve_right fun hlen => ?_
    rw [hex.seen_eq, List.length_append] at hle
    omega
  have hseen : o.discovered roots options host = done := by
    rw [discovered, last, hex.seen_eq]
    simpa [last] using hqueue
  exact ⟨hqueue, hseen ▸ hex⟩

/-- What was discovered is the roots and the targets of what was discovered. -/
theorem discovered_eq (roots : List Path) (options : CompilerOptions) (hhost : host.Finite)
    (ho : o.Within host) : o.discovered roots options host =
      ((o.discovered roots options host).flatMap o.targets).foldl addNew roots :=
  (explored_last roots options hhost ho).2.seen_eq_foldl

theorem contains_discovered_iff {p : Path} (hhost : host.Finite) (ho : o.Within host) :
    (o.discovered roots options host).contains p = true ↔ roots.contains p = true ∨
      ∃ d ∈ o.discovered roots options host, (o.targets d).contains p = true := by
  rw [discovered_eq roots options hhost ho, contains_foldl_addNew, Bool.or_eq_true,
    ← discovered_eq roots options hhost ho]
  refine or_congr_right ?_
  simp only [List.contains_iff_exists_mem_beq, List.mem_flatMap]
  exact ⟨fun ⟨t, ⟨d, hd, ht⟩, hp⟩ => ⟨d, hd, t, ht, hp⟩, fun ⟨d, hd, t, ht, hp⟩ => ⟨t, ⟨d, hd, ht⟩, hp⟩⟩

theorem oneSpelling_discovered (hroots : OneSpelling roots) (options : CompilerOptions) (hhost : host.Finite) (ho : o.Within host) :
    OneSpelling (o.discovered roots options host) :=
  (explored_last roots options hhost ho).2.oneSpelling hroots

theorem apart_discovered (hroots : Apart roots) (hhost : host.Finite) (ho : o.Within host) :
    Apart (o.discovered roots options host) := by
  rw [discovered_eq roots options hhost ho]
  exact hroots.foldl_addNew _

theorem last_program (roots : List Path) (options : CompilerOptions) (hhost : host.Finite)
    (ho : o.Within host) :
    (o.last roots options host).program = o.program roots options (o.discovered roots options host) :=
  (explored_last roots options hhost ho).2.program_eq

/-- The roots that have no unit are reported, in their order, and nothing else is. -/
theorem globalDiagnostics_program (options : CompilerOptions) (hhost : host.Finite) (ho : o.Within host) :
    (o.program roots options (o.discovered roots options host)).globalDiagnostics =
      (roots.filter fun root => (o.unit? root).isNone).map fileNotFound := by
  obtain ⟨found, he, _, hf⟩ := exists_foldl_addNew ((o.discovered roots options host).flatMap o.targets) roots
  have hroot : ∀ path ∈ roots, roots.any (· == path) = true := fun path hp =>
    List.any_eq_true.mpr ⟨path, hp, BEq.rfl⟩
  have hother : ∀ path ∈ found, roots.any (· == path) = false := fun path hp => by
    have hout := (hf path hp).2
    rw [List.contains_eq_any_beq, List.any_eq_false] at hout
    exact List.any_eq_false.mpr fun root hr hc => hout root hr (BEq.symm hc)
  rw [discovered_eq roots options hhost ho, he]
  unfold program
  refine congrArg (List.map fileNotFound) ?_
  rw [List.filter_append]
  have hfound : (found.filter fun path => (o.unit? path).isNone && roots.any (· == path)) = [] :=
    List.filter_eq_nil_iff.mpr fun path hp => by simp [hother path hp]
  rw [hfound, List.append_nil]
  exact List.filter_congr fun path hp => by rw [hroot path hp, Bool.and_true]

/-- Two oracles that agree on what one of them discovers lead to the same search. -/
theorem last_congr {o' : Oracle}
    (h : ∀ p ∈ o.discovered roots options host, o.unit? p = o'.unit? p ∧ o.table? p = o'.table? p) :
    o.last roots options host = o'.last roots options host := by
  unfold discovered last at *
  generalize roots.length + host.capacity + 1 = n at *
  induction n with
  | zero => rfl
  | succ n ih =>
    rw [Function.iterate_succ_apply'] at h
    -- What is seen after `n` steps is seen after `n + 1`, so the induction hypothesis applies.
    have hagree := fun p hp => h p (Search.seen_subset_next _ hp)
    rw [Function.iterate_succ_apply', Function.iterate_succ_apply', ← ih hagree]
    obtain ⟨done, hex, _⟩ := (Search.Explored.start o roots options).iterate n
    refine Search.next_congr fun path queue hq => hagree path ?_
    rw [hex.seen_eq, hq]
    simp

end Oracle

/-! ## What the tables hold -/

theorem mem_resolveImports {unit : SourceUnit} {options : CompilerOptions} {host : Host}
    {specifier : String} {target : Option Path}
    (h : (specifier, target) ∈ (resolveImports unit options host).entries) :
    target = Resolve.resolve specifier unit.path options host := by
  unfold resolveImports at h
  generalize unit.tree.specifiers = specifiers at h
  induction specifiers using List.reverseRecOn with
  | nil => exact absurd h (by simp [Dict.empty])
  | append_singleton specifiers s ih =>
    rw [List.foldl_append, List.foldl_cons, List.foldl_nil] at h
    split at h
    · exact ih h
    · rcases Dict.mem_insert h with h | ⟨rfl, hs⟩
      · exact ih h
      · rw [eq_of_beq hs]

theorem isFile_of_mem_resolveImports {unit : SourceUnit} {options : CompilerOptions} {host : Host}
    {target : Path} (h : target ∈ (resolveImports unit options host).values.reduceOption) :
    host.isFile target = true := by
  obtain ⟨⟨specifier, _⟩, hm, rfl⟩ := List.mem_map.mp (List.reduceOption_mem_iff.mp h)
  exact List.find?_some (mem_resolveImports hm).symm

/-- A table is taken over from an older program whose file has the same content. -/
theorem reusable?_eq_some_iff {old : Option Program} {path : Path} {unit : SourceUnit}
    {options : CompilerOptions} {host : Host} {table : ResolutionTable} :
    reusable? old path unit options host = some table ↔
      ∃ p, old = some p ∧ ∃ before, p.unit? path = some before ∧ before.contentHash = unit.contentHash ∧
        p.resolutions.get? path = some table ∧ isStillValid table unit options host = true := by
  unfold reusable?
  simp [guard, Option.bind_eq_some_iff]

theorem isFile_of_mem_tableFor {host : Host} {options : CompilerOptions} {old : Option Program}
    {path target : Path} {unit : SourceUnit}
    (h : target ∈ (tableFor host options old path unit).values.reduceOption) : host.isFile target = true := by
  unfold tableFor at h
  cases hr : reusable? old path unit options host with
  | none => rw [hr] at h; exact isFile_of_mem_resolveImports h
  | some table =>
    rw [hr, Option.getD_some] at h
    obtain ⟨_, _, _, _, _, _, hvalid⟩ := reusable?_eq_some_iff.mp hr
    obtain ⟨⟨specifier, _⟩, hm, rfl⟩ := List.mem_map.mp (List.reduceOption_mem_iff.mp h)
    exact List.all_eq_true.mp hvalid _ hm

/-! ## Searches with a loader -/

section Loading

variable {σ : Type} {loader : Loader σ} {host : Host} {options : CompilerOptions} {old : Option Program}
  {roots : List Path} {st : σ}

/-- The oracle that answers as a loader does in a state. -/
def Oracle.ofLoader (loader : Loader σ) (st : σ) (host : Host) (options : CompilerOptions)
    (old : Option Program) : Oracle :=
  ⟨loader.answer st, tableFor host options old⟩

theorem Oracle.within_ofLoader (loader : Loader σ) (st : σ) (host : Host) (options : CompilerOptions)
    (old : Option Program) : (Oracle.ofLoader loader st host options old).Within host := by
  intro p target h
  cases hu : (Oracle.ofLoader loader st host options old).unit? p with
  | none => simp [targets, table?, hu] at h
  | some unit =>
    simp only [targets, table?, hu, Option.map_some, Option.getD_some] at h
    exact isFile_of_mem_tableFor h

/-- The search with a loader takes the same steps, and the loader is asked for what is done. -/
theorem search_run (hl : loader.Steady) (hroots : OneSpelling roots) (n : Nat) {done : List Path}
    {s : Search} (h : Search.Explored (.ofLoader loader st host options old) roots options done s) :
    ∃ more, Search.Explored (.ofLoader loader st host options old) roots options (done ++ more)
        ((Search.next (.ofLoader loader st host options old))^[n] s) ∧
      (search host loader old n s).run (done.foldl loader.after st) =
        (((Search.next (.ofLoader loader st host options old))^[n] s).program,
          (done ++ more).foldl loader.after st) := by
  induction n generalizing done s with
  | zero => exact ⟨[], by simpa using h, by rw [List.append_nil]; rfl⟩
  | succ n ih =>
    rw [Function.iterate_succ_apply]
    cases hq : s.queue with
    | nil =>
      rw [Search.next_nil hq, Function.iterate_fixed (Search.next_nil hq)]
      refine ⟨[], by simpa using h, ?_⟩
      rw [List.append_nil, search]
      simp only [hq]
      rfl
    | cons path queue =>
      obtain ⟨more, hex, hrun⟩ := ih (h.next hq)
      refine ⟨path :: more, by simpa using hex, ?_⟩
      -- The loader was asked for other paths only, so it answers as at the beginning.
      have hanswer : loader.answer (done.foldl loader.after st) path = loader.answer st path := by
        refine hl.answer_foldl (fun d hd hdp => h.oneSpelling hroots d ?_ path ?_ hdp) st
        · rw [h.seen_eq]; exact List.mem_append_left _ hd
        · rw [h.seen_eq, hq]; simp
      have hoptions : s.program.options = options := by rw [h.program_eq]; rfl
      rw [List.append_assoc, List.singleton_append] at hrun
      rw [← hrun, List.foldl_append, List.foldl_cons, List.foldl_nil, search]
      simp only [hq, StateT.run_bind]
      rw [show (loader.load path).run (done.foldl loader.after st) =
        (loader.answer st path, loader.after (done.foldl loader.after st) path) from
          Prod.ext hanswer rfl]
      cases hu : loader.answer st path with
      | none =>
        rw [Search.next_miss hq hu]
        rfl
      | some unit =>
        rw [Search.next_visit hq hu]
        simp only [hoptions]
        rfl

theorem oneSpelling_normalize (rootNames : List Path) : OneSpelling (rootNames.map Path.normalize) := by
  intro a ha b hb hab
  obtain ⟨p, _, rfl⟩ := List.mem_map.mp ha
  obtain ⟨q, _, rfl⟩ := List.mem_map.mp hb
  exact Path.eq_of_beq_normalize hab

/-- Creation with a loader is the search by its first answers, and the loader is asked once for each path
that is discovered. -/
theorem create_run (hl : loader.Steady) (hhost : host.Finite) (rootNames : List Path)
    (options : CompilerOptions) (old : Option Program) (st : σ) :
    let o := Oracle.ofLoader loader st host options old
    let found := o.discovered (rootNames.map Path.normalize) options host
    (create rootNames options host loader old).run st =
      (o.program (rootNames.map Path.normalize) options found, found.foldl loader.after st) := by
  intro o found
  have ho : o.Within host := Oracle.within_ofLoader loader st host options old
  obtain ⟨more, hex, hrun⟩ := search_run hl (oneSpelling_normalize rootNames)
    ((rootNames.map Path.normalize).length + host.capacity + 1)
    (Search.Explored.start o (rootNames.map Path.normalize) options)
  rw [List.nil_append] at hex hrun
  have hfound : found = more := by
    obtain ⟨hqueue, _⟩ := Oracle.explored_last (rootNames.map Path.normalize) options hhost ho
    have hseen := hex.seen_eq
    rw [show ((Search.next o)^[_] _).queue = [] from hqueue, List.append_nil] at hseen
    exact hseen
  rw [hfound]
  exact hrun.trans (by rw [hex.program_eq])

end Loading

/-! ## Programs that lack nothing -/

/-- A file refers to a path when one of its specifiers stands for it. -/
def Imports (p : Program) (a b : Path) : Prop :=
  ∃ table, p.resolutions.get? a = some table ∧ table.values.reduceOption.contains b = true

/-- A path is discovered when it is a root, or a file refers to it. -/
def Discovers (p : Program) (path : Path) : Prop :=
  p.rootNames.contains path = true ∨ ∃ importer, p.Imports importer path

theorem Imports.congr_left {p : Program} {a b c : Path} (hab : (a == b) = true) (h : p.Imports b c) :
    p.Imports a c := by
  unfold Imports at h ⊢
  rwa [p.resolutions.get?_congr hab]

/-- Every file is there once, under a spelling of the path that its unit has, and what it refers to is there
too. -/
structure Closed (p : Program) : Prop where
  distinct : p.files.Distinct
  path_beq : ∀ e ∈ p.files.entries, (e.2.path == e.1) = true
  contains_of_imports : ∀ {a b : Path}, p.Imports a b → p.files.contains b = true

namespace Closed

variable {p : Program} {unit : SourceUnit} {path : Path}

theorem unit?_iff (h : p.Closed) : p.unit? path = some unit ↔ unit ∈ p.units ∧ (unit.path == path) = true := by
  unfold unit? units Dict.values
  rw [Dict.get?_eq_some_iff h.distinct]
  constructor
  · rintro ⟨k, hm, hk⟩
    have hpath : (unit.path == k) = true := h.path_beq (k, unit) hm
    exact ⟨List.mem_map_of_mem (f := (·.2)) hm, BEq.trans hpath hk⟩
  · rintro ⟨hunit, hp⟩
    obtain ⟨⟨k, u⟩, hm, rfl⟩ := List.mem_map.mp hunit
    have hpath : (u.path == k) = true := h.path_beq (k, u) hm
    exact ⟨k, hm, BEq.trans (BEq.symm hpath) hp⟩

theorem contains_iff (h : p.Closed) :
    p.files.contains path = true ↔ ∃ unit ∈ p.units, (unit.path == path) = true := by
  unfold Dict.contains
  rw [Option.isSome_iff_exists]
  exact exists_congr fun unit => h.unit?_iff

/-- The files are told apart by the paths of their units. -/
theorem apart_paths (h : p.Closed) : Apart (p.units.map (·.path)) := by
  have hkeys : p.files.entries.Pairwise fun a b => (a.1 == b.1) = false := List.pairwise_map.mp h.distinct
  unfold Apart units Dict.values
  rw [List.map_map, List.pairwise_map]
  refine hkeys.imp_of_mem fun {a b} ha hb hab => ?_
  refine Bool.eq_false_iff.mpr fun hc => absurd ?_ (Bool.eq_false_iff.mp hab)
  exact BEq.trans (BEq.symm (h.path_beq a ha)) (BEq.trans hc (h.path_beq b hb))

end Closed

section Finished

variable {o : Oracle} {roots : List Path} {options : CompilerOptions} {host : Host}

theorem mem_files_program {found : List Path} (hfound : OneSpelling found) {path : Path} {unit : SourceUnit} :
    (path, unit) ∈ (o.program roots options found).files.entries ↔ path ∈ found ∧ o.unit? path = some unit :=
  Dict.mem_gather hfound

theorem resolutions_program {found : List Path} (hfound : OneSpelling found) {path : Path}
    {table : ResolutionTable} : (o.program roots options found).resolutions.get? path = some table ↔
      ∃ k ∈ found, (k == path) = true ∧ o.table? k = some table := by
  unfold Oracle.program
  rw [Dict.get?_eq_some_iff (Dict.distinct_gather ..)]
  simp only [Dict.mem_gather hfound]
  exact ⟨fun ⟨k, ⟨hk, ht⟩, hp⟩ => ⟨k, hk, hp, ht⟩, fun ⟨k, hk, hp, ht⟩ => ⟨k, ⟨hk, ht⟩, hp⟩⟩

theorem imports_program_iff {found : List Path} (hfound : OneSpelling found) {a b : Path} :
    (o.program roots options found).Imports a b ↔
      ∃ k ∈ found, (k == a) = true ∧ (o.targets k).contains b = true := by
  unfold Imports
  simp only [resolutions_program hfound, Oracle.targets]
  constructor
  · rintro ⟨table, ⟨k, hk, hka, ht⟩, hb⟩
    exact ⟨k, hk, hka, by rw [ht]; exact hb⟩
  · rintro ⟨k, hk, hka, hb⟩
    cases ht : o.table? k with
    | none => rw [ht] at hb; exact absurd hb (by simp)
    | some table => rw [ht] at hb; exact ⟨table, ⟨k, hk, hka, ht⟩, hb⟩

theorem discovers_program_iff (hroots : OneSpelling roots) (hhost : host.Finite) (ho : o.Within host)
    {path : Path} : (o.program roots options (o.discovered roots options host)).Discovers path ↔
      (o.discovered roots options host).contains path = true := by
  unfold Discovers
  rw [Oracle.contains_discovered_iff hhost ho]
  simp only [imports_program_iff (Oracle.oneSpelling_discovered hroots options hhost ho)]
  exact or_congr_right ⟨fun ⟨_, k, hk, _, hp⟩ => ⟨k, hk, hp⟩, fun ⟨k, hk, hp⟩ => ⟨k, k, hk, BEq.rfl, hp⟩⟩

/-- A finished search leaves a program that lacks nothing, if all files of the host have a unit. -/
theorem closed_program (hroots : OneSpelling roots) (hhost : host.Finite) (ho : o.Within host)
    (hunit : ∀ p unit, o.unit? p = some unit → (unit.path == p) = true)
    (hfile : ∀ p q, host.isFile p = true → (p == q) = true → ∃ unit, o.unit? q = some unit) :
    (o.program roots options (o.discovered roots options host)).Closed where
  distinct := Dict.distinct_gather ..
  path_beq e he := hunit _ _ ((mem_files_program (Oracle.oneSpelling_discovered hroots options hhost ho)).mp he).2
  contains_of_imports {a b} h := by
    have hfound := Oracle.oneSpelling_discovered hroots options hhost ho
    obtain ⟨k, hk, _, hb⟩ := (imports_program_iff hfound).mp h
    obtain ⟨t, ht, hbt⟩ := List.contains_iff_exists_mem_beq.mp hb
    have htfound := (Oracle.contains_discovered_iff (p := t) hhost ho).mpr
      (Or.inr ⟨k, hk, List.contains_iff_exists_mem_beq.mpr ⟨t, ht, BEq.rfl⟩⟩)
    obtain ⟨t', ht', htt⟩ := List.contains_iff_exists_mem_beq.mp htfound
    obtain ⟨unit, hu⟩ := hfile t t' (ho k t ht) htt
    exact Dict.contains_of_mem ((mem_files_program hfound).mpr ⟨ht', hu⟩)
      (BEq.symm (BEq.trans hbt htt))

end Finished

end Program

end Recheck

/-!
## Programs that are up to date

A search takes the tables of an older program over as far as they hold. `isStillValid` asks of each target
whether it is still a file, and of each specifier without one whether it still has none; it does not ask
whether a file has appeared in front of a target. That is left to `UpToDate`, and it is all that is left: a
table that was taken over is the table of a new search exactly when it is up to date (`tableFor_eq_iff`).
-/

namespace Recheck

namespace Program

variable {unit : SourceUnit} {options : CompilerOptions} {host : Host} {table : ResolutionTable}

/-- A table that lists the specifiers of a unit, and in which no file stands in front of a target. -/
structure UpToDate (table : ResolutionTable) (unit : SourceUnit) (options : CompilerOptions) (host : Host) :
    Prop where
  keys : table.keys = distinct unit.tree.specifiers
  first : ∀ specifier target, (specifier, some target) ∈ table.entries →
    Resolve.resolve specifier unit.path options host = some target

theorem keys_resolveImports (unit : SourceUnit) (options : CompilerOptions) (host : Host) :
    (resolveImports unit options host).keys = distinct unit.tree.specifiers := by
  have hfold : ∀ (specifiers : List String) (table : ResolutionTable),
      (specifiers.foldl (fun table specifier =>
        table.insertNew specifier (Resolve.resolve specifier unit.path options host)) table).keys =
          specifiers.foldl addNew table.keys := by
    intro specifiers
    induction specifiers with
    | nil => exact fun _ => rfl
    | cons specifier specifiers ih =>
      intro table
      rw [List.foldl_cons, ih, Dict.keys_insertNew, List.foldl_cons, addNew, Dict.contains_keys]
  exact hfold unit.tree.specifiers .empty

theorem upToDate_resolveImports (unit : SourceUnit) (options : CompilerOptions) (host : Host) :
    UpToDate (resolveImports unit options host) unit options host where
  keys := keys_resolveImports unit options host
  first _ _ h := (mem_resolveImports h).symm

/-- A table that holds and is up to date is the one of a new search. -/
theorem UpToDate.eq_resolveImports (h : UpToDate table unit options host)
    (hvalid : isStillValid table unit options host = true) : table = resolveImports unit options host := by
  have hentry : ∀ e ∈ table.entries, e.2 = Resolve.resolve e.1 unit.path options host := by
    rintro ⟨specifier, target⟩ he
    cases target with
    | some target => exact (h.first specifier target he).symm
    | none =>
      have hnone := List.all_eq_true.mp hvalid _ he
      exact (Option.isNone_iff_eq_none.mp hnone).symm
  have hkeys : table.keys = (resolveImports unit options host).keys :=
    h.keys.trans (keys_resolveImports unit options host).symm
  exact Dict.eq_of_keys (f := (Resolve.resolve · unit.path options host)) hkeys hentry fun _ he =>
    mem_resolveImports he

theorem tableFor_eq_iff {old : Option Program} {path : Path} :
    tableFor host options old path unit = resolveImports unit options host ↔
      UpToDate (tableFor host options old path unit) unit options host := by
  refine ⟨fun h => h ▸ upToDate_resolveImports unit options host, fun h => ?_⟩
  unfold tableFor at h ⊢
  cases hr : reusable? old path unit options host with
  | none => rfl
  | some table =>
    obtain ⟨_, _, _, _, _, _, hvalid⟩ := reusable?_eq_some_iff.mp hr
    rw [hr] at h
    exact h.eq_resolveImports hvalid

/-- Every file has the path under which it was found, and a table that is up to date. -/
def Current (p : Program) (host : Host) : Prop :=
  ∀ path unit, (path, unit) ∈ p.files.entries → unit.path = path ∧
    ∃ table, p.resolutions.get? path = some table ∧ UpToDate table unit p.options host

end Program

end Recheck
