import Recheck.Config.Project
import Recheck.Proofs.Data.Json
import Recheck.Proofs.Text.PathNormal
import Recheck.Proofs.Text.PathOrder

/-!
# The roots of a project

A project is made from a list of roots or from a project file (`Project.Loaded`). Either way its roots are
canonical and no two are the same, and they stay so when they are looked for again: that is
`Project.Canonical`, with `Loaded.canonical` and `Canonical.rescan`.
-/

set_option autoImplicit false

namespace Recheck

/-- The two ways to make a project. -/
inductive Project.Loaded : Project → Prop where
  | ofRoots (configPath : Path) (rootNames : List Path) (options : CompilerOptions) :
      Loaded (.ofRoots configPath rootNames options)
  | ofText {text : String} {path : Path} {host : Host} {project : Project} :
      ofText text path host = .ok project → Loaded project

/-- The roots are told apart and written in their canonical spelling, and so are those that patterns name. -/
structure Project.Canonical (p : Project) : Prop where
  apart : Apart p.rootNames
  normal : ∀ root ∈ p.rootNames, root.normalize = root
  patterns : ∀ patterns, p.patterns? = some patterns → ∀ file ∈ patterns.files, file.normalize = file

namespace RootPatterns

variable {p : RootPatterns} {host : Host} {baseDir : Path} {options : CompilerOptions}

theorem normal_of_mem_selected {path : Path} (h : path ∈ p.selected host baseDir options) :
    path.normalize = path := by
  obtain ⟨q, _, rfl⟩ := List.mem_map.mp (List.mem_of_mem_filter h)
  exact Path.normalize_normalize q

theorem normal_of_mem_roots (hp : ∀ file ∈ p.files, file.normalize = file) {path : Path}
    (h : path ∈ p.roots host baseDir options) : path.normalize = path := by
  rcases List.mem_append.mp (Path.mem_of_mem_sortDistinct h) with h | h
  · exact hp path h
  · split at h
    · exact nomatch h
    · exact normal_of_mem_selected h

end RootPatterns

namespace Project

variable {p : Project}

theorem Canonical.rescan (h : p.Canonical) (host : Host) : (p.rescan host).Canonical := by
  unfold Project.rescan
  cases hp : p.patterns? with
  | none => exact h
  | some patterns =>
    exact ⟨Path.sortDistinct_apart _, fun _ => RootPatterns.normal_of_mem_roots (h.patterns patterns hp),
      fun patterns' hp' => h.patterns patterns' (hp.trans hp')⟩

theorem Canonical.map_normalize (h : p.Canonical) : p.rootNames.map Path.normalize = p.rootNames :=
  (List.map_congr_left h.normal).trans (List.map_id _)

/-- The last step of reading a project file. -/
private theorem of_roots_eq_ok {patterns : RootPatterns} {path baseDir : Path} {options : CompilerOptions}
    {host : Host} {fault : ConfigFault}
    (h : (if (patterns.roots host baseDir options).isEmpty = true then .error fault
      else .ok ⟨path, baseDir, patterns.roots host baseDir options, options, some patterns⟩) =
        (.ok p : Except ConfigFault Project)) :
    p.patterns? = some patterns ∧ p.rootNames = patterns.roots host p.baseDir p.options := by
  split at h
  · exact nomatch h
  · cases h
    exact ⟨rfl, rfl⟩

/-- What a project file makes, apart from the patterns it names. -/
theorem ofText_eq_ok {text : String} {path : Path} {host : Host} (h : ofText text path host = .ok p) :
    ∃ patterns, p.patterns? = some patterns ∧ p.rootNames = patterns.roots host p.baseDir p.options ∧
      ∀ file ∈ patterns.files, file.normalize = file := by
  unfold ofText at h
  generalize hpath : path.normalize = canonical at h
  obtain ⟨_, _, h⟩ := exists_of_bind_eq_ok h
  obtain ⟨_, _, h⟩ := exists_of_bind_eq_ok h
  obtain ⟨files, _, h⟩ := exists_of_bind_eq_ok h
  obtain ⟨includes, _, h⟩ := exists_of_bind_eq_ok h
  obtain ⟨_, _, h⟩ := exists_of_bind_eq_ok h
  obtain ⟨included, _, h⟩ := exists_of_bind_eq_ok h
  have hfiles : ∀ file ∈ (files.getD []).map fun file => ((dirOf canonical).join ⟨file⟩).normalize,
      file.normalize = file := by
    intro file hf
    obtain ⟨name, _, rfl⟩ := List.mem_map.mp hf
    exact Path.normalize_normalize _
  generalize (files.getD []).map (fun file => ((dirOf canonical).join ⟨file⟩).normalize) = named at h hfiles
  simp only at h
  generalize (includes.getD (if files.isSome = true then [] else ["**/*"])).isEmpty = bare at h
  cases bare <;>
  · obtain ⟨excluded, _, h⟩ := exists_of_bind_eq_ok h
    obtain ⟨hpatterns, hroots⟩ := of_roots_eq_ok h
    exact ⟨_, hpatterns, hroots, hfiles⟩

theorem Loaded.canonical (h : p.Loaded) : p.Canonical := by
  cases h with
  | ofRoots configPath rootNames options =>
    refine ⟨Path.sortDistinct_apart _, fun root hr => ?_, fun patterns hp => nomatch hp⟩
    obtain ⟨q, _, rfl⟩ := List.mem_map.mp (Path.mem_of_mem_sortDistinct hr)
    exact Path.normalize_normalize q
  | ofText h =>
    obtain ⟨patterns, hp, hroots, hfiles⟩ := ofText_eq_ok h
    refine ⟨hroots ▸ Path.sortDistinct_apart _, fun root hr => ?_, fun patterns' hp' => ?_⟩
    · rw [hroots] at hr
      exact RootPatterns.normal_of_mem_roots hfiles hr
    · rw [hp] at hp'
      exact Option.some.inj hp' ▸ hfiles

end Project

end Recheck
