import Recheck.Proofs.Program.Resolve
import Recheck.Proofs.Program.Reuse

/-!
# The files of a program are what the roots reach

A program that is made from scratch asks for its roots and for whatever these lead to, each path once. `Oracle.horizon`
says in which order without any queue: first the roots, then what these refer to, then what that refers to, and so on,
each path where it comes up first. The search visits exactly these layers, one behind the other (`explored_horizon`),
and it is over when a layer is empty, which is no later than there are files (`discovered_eq_horizon`).

What a path leads to does not hang on its spelling (`contains_targets_congr`), so the layers hold exactly what can be
reached along specifiers, from whichever spellings (`contains_horizon_iff`).
-/

set_option autoImplicit false

namespace Recheck

/-! ## The loader that keeps a list -/

/-- A loader that also keeps a list of what it was asked for. -/
def Loader.listing {σ : Type} (loader : Loader σ) : Loader (σ × List Path) where
  load path st := (loader.answer st.1 path, loader.after st.1 path, st.2 ++ [path])

theorem Loader.foldl_after_listing {σ : Type} (loader : Loader σ) (paths : List Path) (st : σ) (asked : List Path) :
    paths.foldl loader.listing.after (st, asked) = (paths.foldl loader.after st, asked ++ paths) := by
  induction paths generalizing st asked with
  | nil => rw [List.append_nil]; rfl
  | cons path paths ih =>
    rw [List.foldl_cons, List.foldl_cons]
    exact (ih _ _).trans (by rw [List.append_assoc]; rfl)

namespace Program

/-- The table of a search: each specifier once, in the order in which they first occur, with what it stands for. -/
theorem resolveImports_eq (unit : SourceUnit) (options : CompilerOptions) (host : Host) :
    resolveImports unit options host = ⟨(distinct unit.tree.specifiers).map fun specifier =>
      (specifier, Resolve.resolve specifier unit.path options host)⟩ := by
  refine Dict.eq_of_keys (f := (Resolve.resolve · unit.path options host)) ?_
    (fun _ he => mem_resolveImports he) ?_
  · rw [keys_resolveImports]
    simp [Dict.keys, Function.comp_def]
  · intro e he
    obtain ⟨specifier, -, rfl⟩ := List.mem_map.mp he
    rfl

/-! ## Layers -/

namespace Oracle

variable (o : Oracle) (roots : List Path)

/-- The paths that some steps along targets lead to, in the order in which they come up. -/
def horizon : Nat → List Path
  | 0 => roots
  | n + 1 => ((horizon n).flatMap o.targets).foldl addNew (horizon n)

/-- Some steps along targets lead from a root to the path. -/
inductive Reaches : Nat → Path → Prop where
  | root {root path : Path} (hroot : root ∈ roots) (hpath : (root == path) = true) : Reaches 0 path
  | step {n : Nat} {importer path : Path} (himporter : Reaches n importer)
      (hpath : (o.targets importer).contains path = true) : Reaches (n + 1) path

variable {o roots}

theorem horizon_prefix_succ (n : Nat) : o.horizon roots n <+: o.horizon roots (n + 1) := by
  obtain ⟨found, hfound, -⟩ := exists_foldl_addNew ((o.horizon roots n).flatMap o.targets) (o.horizon roots n)
  exact ⟨found, hfound.symm⟩

theorem horizon_prefix {m n : Nat} (h : m ≤ n) : o.horizon roots m <+: o.horizon roots n := by
  induction h with
  | refl => exact List.prefix_rfl
  | step _ ih => exact ih.trans (horizon_prefix_succ _)

/-- Once a layer is empty, so are all behind it. -/
theorem horizon_eq_of_eq {m n : Nat} (h : o.horizon roots (m + 1) = o.horizon roots m) (hmn : m ≤ n) :
    o.horizon roots n = o.horizon roots m := by
  induction hmn with
  | refl => rfl
  | step _ ih => rw [horizon, ih]; exact h

/-- The layers hold what can be reached, if targets do not hang on spellings. -/
theorem contains_horizon_iff (hcongr : ∀ {a b : Path}, (a == b) = true → ∀ path,
      (o.targets a).contains path = (o.targets b).contains path) {n : Nat} {path : Path} :
    (o.horizon roots n).contains path = true ↔ ∃ m ≤ n, o.Reaches roots m path := by
  induction n generalizing path with
  | zero =>
    rw [horizon, List.contains_iff_exists_mem_beq]
    constructor
    · rintro ⟨root, hroot, hpath⟩
      exact ⟨0, Nat.le_refl _, .root hroot (BEq.symm hpath)⟩
    · rintro ⟨m, hm, hreaches⟩
      cases hreaches with
      | root hroot hpath => exact ⟨_, hroot, BEq.symm hpath⟩
      | step => exact absurd hm (Nat.not_succ_le_zero _)
  | succ n ih =>
    rw [horizon, contains_foldl_addNew, Bool.or_eq_true, ih]
    constructor
    · rintro (⟨m, hm, hreaches⟩ | htarget)
      · exact ⟨m, Nat.le_succ_of_le hm, hreaches⟩
      · obtain ⟨target, htarget, hpath⟩ := List.contains_iff_exists_mem_beq.mp htarget
        obtain ⟨importer, himporter, htarget⟩ := List.mem_flatMap.mp htarget
        obtain ⟨m, hm, hreaches⟩ := ih.mp (List.contains_iff_exists_mem_beq.mpr ⟨importer, himporter, BEq.rfl⟩)
        exact ⟨m + 1, Nat.succ_le_succ hm,
          .step hreaches (List.contains_iff_exists_mem_beq.mpr ⟨target, htarget, hpath⟩)⟩
    · rintro ⟨m, hm, hreaches⟩
      cases hreaches with
      | root hroot hpath => exact .inl ⟨0, Nat.zero_le _, .root hroot hpath⟩
      | @step m importer _ himporter hpath =>
        refine .inr (List.contains_iff_exists_mem_beq.mpr ?_)
        -- The importer is there under some spelling, and refers to the same files.
        obtain ⟨found, hfound, hbeq⟩ := List.contains_iff_exists_mem_beq.mp
          (ih.mpr ⟨m, Nat.le_of_succ_le_succ hm, himporter⟩)
        rw [hcongr hbeq] at hpath
        obtain ⟨target, htarget, hpath⟩ := List.contains_iff_exists_mem_beq.mp hpath
        exact ⟨target, List.mem_flatMap.mpr ⟨found, hfound, htarget⟩, hpath⟩

end Oracle

/-! ## The search goes layer by layer -/

namespace Search

variable {o : Oracle} {roots done : List Path} {options : CompilerOptions} {s : Search}

/-- The first paths of the queue are visited in their order, while others are added behind the rest. -/
theorem Explored.advance {first rest : List Path} (h : Explored o roots options done s)
    (hq : s.queue = first ++ rest) : ∃ more,
      Explored o roots options (done ++ first) ((Search.next o)^[first.length] s) ∧
        ((Search.next o)^[first.length] s).queue = rest ++ more := by
  induction first generalizing done s rest with
  | nil => exact ⟨[], by simpa using h, by simpa using hq⟩
  | cons path first ih =>
    have hnext := h.next hq
    obtain ⟨found, hfound, -⟩ := exists_foldl_addNew (o.targets path) s.seen
    have hqueue : (s.next o).queue = first ++ (rest ++ found) := by
      have hseen : done ++ [path] ++ (s.next o).queue = done ++ [path] ++ (first ++ (rest ++ found)) := by
        rw [← hnext.seen_eq, hnext.seen_eq_foldl, List.flatMap_append, List.foldl_append, ← h.seen_eq_foldl,
          List.flatMap_singleton, hfound, h.seen_eq, hq]
        simp
      exact List.append_cancel_left hseen
    obtain ⟨more, hexplored, hmore⟩ := ih hnext hqueue
    refine ⟨found ++ more, ?_, ?_⟩
    · rw [List.append_assoc] at hexplored
      exact hexplored
    · rw [List.append_assoc] at hmore
      exact hmore

/-- Whatever has been seen when a layer is done is the next layer. -/
theorem Explored.seen_eq_horizon {n : Nat} (h : Explored o roots options (o.horizon roots n) s) :
    s.seen = o.horizon roots (n + 1) := by
  obtain ⟨front, hfront⟩ := Oracle.horizon_prefix (o := o) (Nat.zero_le n)
  have hseen : ((o.horizon roots n).flatMap o.targets).foldl addNew roots = roots ++ front ++ s.queue := by
    rw [← h.seen_eq_foldl, h.seen_eq]
    exact congrArg (· ++ s.queue) hfront.symm
  have hmoved := foldl_addNew_of_append hseen
  rw [show roots ++ front = o.horizon roots n from hfront] at hmoved
  rw [Oracle.horizon, hmoved, h.seen_eq]

/-- Every layer is done at some time, and nothing else then. -/
theorem explored_horizon (o : Oracle) (roots : List Path) (options : CompilerOptions) (n : Nat) :
    ∃ k, Explored o roots options (o.horizon roots n) ((Search.next o)^[k] (start roots options)) := by
  induction n with
  | zero =>
    obtain ⟨_, hexplored, -⟩ := (Explored.start o roots options).advance (List.append_nil roots).symm
    exact ⟨_, hexplored⟩
  | succ n ih =>
    obtain ⟨k, hk⟩ := ih
    obtain ⟨_, hexplored, -⟩ := hk.advance (List.append_nil _).symm
    rw [← hk.seen_eq, hk.seen_eq_horizon, ← Function.iterate_add_apply] at hexplored
    exact ⟨_, hexplored⟩

end Search

namespace Oracle

variable {o : Oracle} {roots : List Path} {options : CompilerOptions} {host : Host}

theorem length_horizon_le (hhost : host.Finite) (ho : o.Within host) (n : Nat) :
    (o.horizon roots n).length ≤ roots.length + host.capacity := by
  obtain ⟨k, hk⟩ := Search.explored_horizon o roots .standard n
  have hlength := hk.length_le hhost ho
  rw [hk.seen_eq, List.length_append] at hlength
  omega

/-- There are no more layers than files. -/
theorem exists_horizon_eq (hhost : host.Finite) (ho : o.Within host) :
    ∃ m ≤ host.capacity, o.horizon roots (m + 1) = o.horizon roots m := by
  by_contra hnone
  have hgrows : ∀ n ≤ host.capacity + 1, roots.length + n ≤ (o.horizon roots n).length := by
    intro n
    induction n with
    | zero => exact fun _ => Nat.le_refl _
    | succ n ih =>
      intro hn
      have hlt : (o.horizon roots n).length < (o.horizon roots (n + 1)).length := by
        refine Nat.lt_of_le_of_ne (horizon_prefix_succ n).length_le fun hlength => hnone ⟨n, by omega, ?_⟩
        exact ((horizon_prefix_succ n).eq_of_length hlength).symm
      have := ih (by omega)
      omega
  have hlast := hgrows _ (Nat.le_refl _)
  have hlength : (o.horizon roots (host.capacity + 1)).length ≤ _ := length_horizon_le hhost ho _
  omega

/-- A search is over after as many steps as `create` allows it, so more of them change nothing. -/
theorem iterate_eq_last (hhost : host.Finite) (ho : o.Within host) {k : Nat}
    (hk : roots.length + host.capacity + 1 ≤ k ∨ ((Search.next o)^[k] (Search.start roots options)).queue = []) :
    (Search.next o)^[k] (Search.start roots options) = o.last roots options host := by
  have hlast : (o.last roots options host).queue = [] := (explored_last roots options hhost ho).1
  rcases Nat.le_total (roots.length + host.capacity + 1) k with hle | hle
  · obtain ⟨more, rfl⟩ := Nat.exists_eq_add_of_le' hle
    rw [Function.iterate_add_apply]
    exact Function.iterate_fixed (Search.next_nil hlast) more
  · rcases hk with hk | hqueue
    · rw [Nat.le_antisymm hle hk]
      rfl
    · obtain ⟨more, hmore⟩ := Nat.exists_eq_add_of_le' hle
      rw [last, hmore, Function.iterate_add_apply, Function.iterate_fixed (Search.next_nil hqueue)]

theorem discovered_eq_horizon (hhost : host.Finite) (ho : o.Within host) {n : Nat} (hn : host.capacity ≤ n) :
    o.discovered roots options host = o.horizon roots n := by
  obtain ⟨m, hm, hsame⟩ : ∃ m ≤ host.capacity, o.horizon roots (m + 1) = o.horizon roots m :=
    exists_horizon_eq hhost ho
  obtain ⟨k, hk⟩ := Search.explored_horizon o roots options m
  have hqueue : ((Search.next o)^[k] (Search.start roots options)).queue = [] := by
    have hseen := hk.seen_eq
    rw [hk.seen_eq_horizon, hsame] at hseen
    simpa using hseen
  rw [horizon_eq_of_eq hsame (Nat.le_trans hm hn), discovered, ← iterate_eq_last hhost ho (.inr hqueue),
    hk.seen_eq_horizon, hsame]

end Oracle

end Program

/-! ## Files in memory -/

namespace Files

open Program

variable (files : Files) (options : CompilerOptions)

/-- What files have to say in a search: the unit under a path, and for each specifier of a unit, in the order in which
they first occur, what it stands for. -/
def answers : Oracle where
  unit? path := (files.get? path).map (SourceUnit.ofText path)
  table _ unit := ⟨(distinct unit.tree.specifiers).map fun specifier =>
    (specifier, Resolve.resolve specifier unit.path options files.toHost)⟩

/-- A loader that reads the files leaves nothing else to decide. -/
theorem ofLoader_eq {σ : Type} {loader : Loader σ} {st : σ}
    (h : loader.answer st = files.toHost.loader.answer ()) :
    Oracle.ofLoader loader st files.toHost options none = files.answers options := by
  unfold Oracle.ofLoader answers
  rw [h]
  congr 1
  funext _ unit
  exact resolveImports_eq unit options files.toHost

theorem within_answers : (files.answers options).Within files.toHost := by
  rw [← files.ofLoader_eq options rfl]
  exact Oracle.within_ofLoader _ _ _ _ _

theorem mem_targets {files : Files} {options : CompilerOptions} {path target : Path} :
    target ∈ (files.answers options).targets path ↔
      ∃ text, files.get? path = some text ∧ ∃ specifier ∈ distinct (Syntax.parse text).tree.specifiers,
        Resolve.resolve specifier path options files.toHost = some target := by
  simp only [Oracle.targets, Oracle.table?, answers]
  cases files.get? path with
  | none => simp
  | some text =>
    simp only [Option.map_some, Option.getD_some, List.reduceOption_mem_iff, Dict.values, List.map_map, List.mem_map,
      Option.some.injEq, exists_eq_left']
    rfl

/-- Whatever stands for a file, it is the same one from all spellings of the importing file. -/
theorem contains_targets_congr {a b : Path} (h : (a == b) = true) (path : Path) :
    ((files.answers options).targets a).contains path = ((files.answers options).targets b).contains path := by
  have hle : ∀ {a b : Path}, (a == b) = true → ((files.answers options).targets a).contains path = true →
      ((files.answers options).targets b).contains path = true := by
    intro a b h hcontains
    obtain ⟨target, htarget, hpath⟩ := List.contains_iff_exists_mem_beq.mp hcontains
    obtain ⟨text, htext, specifier, hspecifier, hresolve⟩ := mem_targets.mp htarget
    have hrel := Resolve.resolve_congr files specifier options h
    rw [hresolve] at hrel
    obtain ⟨target', hresolve', hbeq⟩ : ∃ target', Resolve.resolve specifier b options files.toHost = some target' ∧
        (target == target') = true := by
      generalize Resolve.resolve specifier b options files.toHost = target? at hrel
      cases hrel with
      | some hbeq => exact ⟨_, rfl, hbeq⟩
    have htarget' := mem_targets.mpr ⟨text, files.get?_congr h ▸ htext, specifier, hspecifier, hresolve'⟩
    exact List.contains_iff_exists_mem_beq.mpr ⟨target', htarget', BEq.trans hpath hbeq⟩
  rw [Bool.eq_iff_iff]
  exact ⟨hle h, hle (BEq.symm h)⟩

/-- What the creation of a program from scratch amounts to. `asked` is the list of paths that the loader is asked
for. -/
structure Discovery (roots : List Path) (program : Program) (asked : List Path) : Prop where
  rootNames_eq : program.rootNames = roots
  options_eq : program.options = options
  /-- No path is asked for twice. -/
  once : Apart asked
  /-- The paths that are asked for are those that a root leads to. -/
  reached : ∀ path, asked.contains path = true ↔ ∃ n, (files.answers options).Reaches roots n path
  /-- They come layer by layer, those of each layer as they come up in the layer before, and the roots first. -/
  layered : ∀ n, (files.answers options).horizon roots n <+: asked ∧
    (files.size ≤ n → (files.answers options).horizon roots n = asked) ∧
    ∀ path, ((files.answers options).horizon roots n).contains path = true ↔
      ∃ m ≤ n, (files.answers options).Reaches roots m path
  /-- Of these the program has those that can be loaded. -/
  files_eq : program.files.entries = asked.filterMap fun path =>
    ((files.answers options).unit? path).map fun unit => (path, unit)
  /-- Each with its table. -/
  resolutions_eq : program.resolutions.entries = asked.filterMap fun path =>
    ((files.answers options).unit? path).map fun unit => (path, (files.answers options).table path unit)
  /-- The roots that cannot be loaded are reported, and nothing else is. -/
  globalDiagnostics_eq : program.globalDiagnostics =
    (roots.filter fun root => ((files.answers options).unit? root).isNone).map fileNotFound

/-- More steps than there are roots and files change nothing. -/
theorem search_listing (rootNames : List Path) {n : Nat}
    (hn : (rootNames.map Path.normalize).length + files.size < n) :
    (search files.toHost files.toHost.loader.listing none n
        (Search.start (rootNames.map Path.normalize) options)).run ((), []) =
      ((files.answers options).program (rootNames.map Path.normalize) options
          ((files.answers options).discovered (rootNames.map Path.normalize) options files.toHost),
        (), (files.answers options).discovered (rootNames.map Path.normalize) options files.toHost) := by
  have hhost := Files.finite_toHost files
  have ho := files.within_answers options
  have hsteady : files.toHost.loader.listing.Steady := fun _ _ _ _ => rfl
  have horacle : Oracle.ofLoader files.toHost.loader.listing ((), []) files.toHost options none =
      files.answers options := files.ofLoader_eq options rfl
  obtain ⟨asked, hexplored, hrun⟩ := search_run hsteady (oneSpelling_normalize rootNames) n
    (Search.Explored.start (Oracle.ofLoader files.toHost.loader.listing ((), []) files.toHost options none)
      (rootNames.map Path.normalize) options)
  rw [horacle, Oracle.iterate_eq_last hhost ho (.inl hn), List.nil_append] at hexplored hrun
  have hasked : (files.answers options).discovered (rootNames.map Path.normalize) options files.toHost = asked := by
    have hseen := hexplored.seen_eq
    rw [(Oracle.explored_last _ options hhost ho).1, List.append_nil] at hseen
    exact hseen
  rw [List.foldl_nil, Loader.foldl_after_listing, List.nil_append] at hrun
  rw [hrun, hexplored.program_eq, hasked]

theorem ofHost_eq (rootNames : List Path) : ofHost rootNames options files.toHost =
    (files.answers options).program (rootNames.map Path.normalize) options
      ((files.answers options).discovered (rootNames.map Path.normalize) options files.toHost) := by
  unfold ofHost
  rw [create_run (Host.steady_loader _) (Files.finite_toHost files), files.ofLoader_eq options rfl]

theorem apart_normalize {rootNames : List Path} (h : (rootNames.map Path.normalize).Nodup) :
    Apart (rootNames.map Path.normalize) :=
  List.Pairwise.imp_of_mem (fun ha hb hne => Bool.eq_false_iff.mpr fun hbeq =>
    hne (oneSpelling_normalize rootNames _ ha _ hb hbeq)) h

theorem discovery_discovered {roots : List Path} (hroots : Apart roots) :
    files.Discovery options roots
      ((files.answers options).program roots options ((files.answers options).discovered roots options files.toHost))
      ((files.answers options).discovered roots options files.toHost) := by
  have hhost := Files.finite_toHost files
  have ho := files.within_answers options
  have hlayers : ∀ {n}, files.size ≤ n → (files.answers options).horizon roots n =
      (files.answers options).discovered roots options files.toHost :=
    fun hn => (Oracle.discovered_eq_horizon hhost ho hn).symm
  have honce : Apart ((files.answers options).discovered roots options files.toHost) :=
    Oracle.apart_discovered hroots hhost ho
  have hreaches : ∀ n path, ((files.answers options).horizon roots n).contains path = true ↔
      ∃ m ≤ n, (files.answers options).Reaches roots m path := fun n path =>
    Oracle.contains_horizon_iff fun h => files.contains_targets_congr options h
  exact {
    rootNames_eq := rfl
    options_eq := rfl
    once := honce
    reached := fun path => by
      constructor
      · intro hpath
        rw [← hlayers (Nat.le_refl _), hreaches] at hpath
        obtain ⟨m, -, hm⟩ := hpath
        exact ⟨m, hm⟩
      · rintro ⟨n, hn⟩
        rw [← hlayers (Nat.le_add_right files.size n), hreaches]
        exact ⟨n, Nat.le_add_left .., hn⟩
    layered := fun n => by
      refine ⟨?_, hlayers, hreaches n⟩
      rw [← hlayers (Nat.le_add_right files.size n)]
      exact Oracle.horizon_prefix (Nat.le_add_left ..)
    files_eq := Dict.entries_gather _ honce
    resolutions_eq := by
      refine (Dict.entries_gather _ honce).trans (List.filterMap_congr fun path _ => ?_)
      rw [Oracle.table?, Option.map_map]
      rfl
    globalDiagnostics_eq := Oracle.globalDiagnostics_program options hhost ho }

/-- **A program has what its roots reach, each file once and layer by layer.** Make a program of roots that are told
apart when they are normalized, from files in memory and without an older program, and keep a list of what is asked
for. No number of steps beyond that of the roots and files changes the outcome. The program is the one that `ofHost`
makes. -/
theorem create_discovers (rootNames : List Path) (hroots : (rootNames.map Path.normalize).Nodup) :
    let roots := rootNames.map Path.normalize
    let created := (create rootNames options files.toHost files.toHost.loader.listing none).run ((), [])
    files.Discovery options roots created.1 created.2.2 ∧
      created.1 = ofHost rootNames options files.toHost ∧
      ∀ n, roots.length + files.size < n →
        (search files.toHost files.toHost.loader.listing none n (Search.start roots options)).run ((), []) =
          created := by
  intro roots created
  have hcreated := files.search_listing options rootNames (Nat.lt_succ_self _)
  refine ⟨?_, ?_, fun n hn => (files.search_listing options rootNames hn).trans hcreated.symm⟩
  · show files.Discovery options roots created.1 created.2.2
    rw [show created = _ from hcreated]
    exact files.discovery_discovered options (apart_normalize hroots)
  · rw [show created = _ from hcreated, files.ofHost_eq options]

/-- Three files that import each other; one of them also imports what is not there. -/
def ring : Files :=
  ((Files.write .empty ⟨"/p/a.ts"⟩ "import './c'; import './b'").write ⟨"/p/b.ts"⟩ "import './c'").write
    ⟨"/p/c.ts"⟩ "import './a'; import './gone'"

/-- The roots of `ring`, one of which is not there either. -/
def ringRoots : List Path := [⟨"/p/x/../a.ts"⟩, ⟨"/p/none.ts"⟩]

theorem create_discovers_ring : (ringRoots.map Path.normalize).Nodup ∧
    let created := (create ringRoots .standard ring.toHost ring.toHost.loader.listing none).run ((), [])
    ring.Discovery .standard (ringRoots.map Path.normalize) created.1 created.2.2 ∧
      created.2.2 = [⟨"/p/a.ts"⟩, ⟨"/p/none.ts"⟩, ⟨"/p/c.ts"⟩, ⟨"/p/b.ts"⟩] := by
  have hroots : (ringRoots.map Path.normalize).Nodup := by decide +kernel
  exact ⟨hroots, (create_discovers ring .standard ringRoots hroots).1, by decide +kernel⟩

end Files

end Recheck
