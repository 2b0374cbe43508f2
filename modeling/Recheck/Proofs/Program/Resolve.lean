import Recheck.Program.Resolve
import Recheck.Proofs.Data.Dict
import Recheck.Proofs.Text.PathSteps
import Mathlib.Data.List.Forall2

/-!
# What a specifier stands for does not hang on spellings

A file may be found under more than one spelling: the name of a package goes into the path of its files as it was
written. From whichever spelling of the importing file a specifier is looked up, the candidates are the same files in
the same order (`candidates_congr`), so the specifier stands for the same file (`resolve_congr`).
-/

set_option autoImplicit false

namespace Recheck.Resolve

variable {a b : Path} {options : CompilerOptions} {specifier : String}

/-- Two spellings of a path. -/
abbrev Alike (a b : Path) : Prop := (a == b) = true

theorem alike_getD {up up' : Option Path} (h : Option.Rel Alike up up') (standard : Path) :
    Alike (up.getD standard) (up'.getD standard) := by
  cases h with
  | none => exact BEq.rfl
  | some hup => exact hup

theorem ancestorsWithin_congr (n : Nat) (h : Alike a b) :
    List.Forall₂ Alike (ancestorsWithin n a) (ancestorsWithin n b) := by
  induction n generalizing a b with
  | zero => exact .cons h .nil
  | succ n ih =>
    have hup := Path.parent?_congr h
    unfold ancestorsWithin
    revert hup
    generalize a.parent? = upa
    generalize b.parent? = upb
    rintro (hup | _)
    · exact .cons h (ih hup)
    · exact .cons h .nil

theorem ancestors_congr (h : Alike a b) : List.Forall₂ Alike (ancestors a) (ancestors b) := by
  unfold ancestors
  rw [Path.beq_iff.mp h]
  exact ancestorsWithin_congr _ h

theorem packageCandidates_congr (specifier : String) (h : Alike a b) :
    List.Forall₂ Alike (packageCandidates specifier a) (packageCandidates specifier b) := by
  have hmodules := Path.join_congr h ⟨"node_modules"⟩
  exact .cons (Path.join_congr hmodules _) (.cons (Path.join_congr (Path.join_congr hmodules _) _)
    (.cons (Path.join_congr (Path.join_congr (Path.join_congr hmodules _) _) _) .nil))

theorem candidates_congr (specifier : String) (options : CompilerOptions) (h : Alike a b) :
    List.Forall₂ Alike (candidates specifier a options) (candidates specifier b options) := by
  have hdir := alike_getD (Path.parent?_congr h) ⟨"/"⟩
  have hbase := Path.normalize_congr (Path.join_congr hdir ⟨specifier⟩)
  unfold candidates
  split
  · simp only [hbase]
    exact List.forall₂_same.mpr fun _ _ => BEq.rfl
  · exact List.rel_flatMap (ancestors_congr hdir) fun _ _ => packageCandidates_congr specifier

theorem find?_congr {R : Path → Path → Prop} {p : Path → Bool} (hp : ∀ a b, R a b → p a = p b) {as bs : List Path}
    (h : List.Forall₂ R as bs) : Option.Rel R (as.find? p) (bs.find? p) := by
  induction h with
  | nil => exact .none
  | @cons a b _ _ hab _ ih =>
    rw [List.find?_cons, List.find?_cons, hp a b hab]
    cases p b with
    | true => exact .some hab
    | false => exact ih

theorem resolve_congr (files : Files) (specifier : String) (options : CompilerOptions) (h : Alike a b) :
    Option.Rel Alike (resolve specifier a options files.toHost) (resolve specifier b options files.toHost) :=
  find?_congr (fun _ _ hab => files.contains_congr hab) (candidates_congr specifier options h)

end Recheck.Resolve
