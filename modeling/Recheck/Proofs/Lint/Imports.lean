import Recheck.Lint.Linter
import Mathlib.Logic.Basic

/-!
# Rules that look at the program

All rules but one see the file alone (`findings_congr`). The one about imports compares them by the files that they
stand for, and these can change while the file does not. So a file that passed can only come to fail by its imports,
and it does when two of them have come to stand for the same file (`failuresIn_of_passed`).
-/

set_option autoImplicit false

namespace Recheck.Lint

variable {config : LintConfig} {program passed : Program} {unit : SourceUnit} {rule : Rule}

theorem findings_congr (h : rule ≠ .noDuplicateImports) :
    rule.findings config program unit = rule.findings config passed unit := by
  cases rule with
  | noDuplicateImports => exact absurd rfl h
  | _ => rfl

theorem failuresIn_eq_nil_iff :
    failuresIn config program unit = [] ↔ ∀ rule ∈ activeRules config, rule.findings config program unit = [] := by
  unfold failuresIn
  rw [List.flatMap_eq_nil_iff]
  simp only [List.map_eq_nil_iff]

theorem exists_rule_of_mem_failuresIn {f : Failure} (h : f ∈ failuresIn config program unit) :
    ∃ rule ∈ activeRules config, f.rule = rule.name ∧ rule.findings config program unit ≠ [] := by
  obtain ⟨rule, hrule, hf⟩ := List.mem_flatMap.mp h
  obtain ⟨finding, hfinding, rfl⟩ := List.mem_map.mp hf
  exact ⟨rule, hrule, rfl, List.ne_nil_of_mem hfinding⟩

theorem mem_activeRules_iff : rule ∈ activeRules config ↔ config.allow.contains rule.name = false := by
  unfold activeRules
  rw [List.mem_filter, Bool.not_eq_true']
  exact and_iff_right rule.mem_all

/-- No import at the top of a file brings in what an earlier one does. -/
def ImportsApart (program : Program) (unit : SourceUnit) : Prop :=
  (topLevelImports unit).Pairwise fun earlier d =>
    (importKey unit program d == importKey unit program earlier) = false

theorem repeated_eq_nil_iff {key : Syntax.ImportDecl → Imported × Bool} {seen : List (Imported × Bool)}
    {ds : List Syntax.ImportDecl} : repeated key seen ds = [] ↔
      (∀ d ∈ ds, seen.contains (key d) = false) ∧ ds.Pairwise fun earlier d => (key d == key earlier) = false := by
  induction ds generalizing seen with
  | nil => simp [repeated]
  | cons d ds ih =>
    rw [repeated]
    split
    · rename_i hseen
      refine iff_of_false (by simp) fun h => ?_
      rw [h.1 d List.mem_cons_self] at hseen
      exact absurd hseen Bool.false_ne_true
    · rename_i hnew
      rw [ih, List.pairwise_cons, List.forall_mem_cons]
      simp only [List.contains_cons, Bool.or_eq_false_iff, forall_and, Bool.eq_false_iff.mpr hnew, true_and]
      exact and_assoc.trans and_left_comm

theorem duplicateImports_eq_nil_iff : duplicateImports unit program = [] ↔ ImportsApart program unit := by
  unfold duplicateImports ImportsApart
  rw [List.map_eq_nil_iff, repeated_eq_nil_iff]
  exact and_iff_right fun _ _ => rfl

/-- Imports that stand for the same files are as far apart as before. -/
theorem importsApart_congr (h : ∀ d ∈ topLevelImports unit,
    program.target? unit.path d.source.value = passed.target? unit.path d.source.value) :
    ImportsApart program unit ↔ ImportsApart passed unit := by
  have hkey : ∀ d ∈ topLevelImports unit, importKey unit program d = importKey unit passed d := by
    intro d hd
    unfold importKey
    rw [h d hd]
  refine List.Pairwise.iff_of_mem fun {earlier d} hearlier hd => ?_
  rw [hkey earlier hearlier, hkey d hd]

/-- Where the other rules find nothing, the imports decide. -/
theorem failuresIn_eq_nil_iff_importsApart (hother : ∀ rule ∈ activeRules config, rule ≠ .noDuplicateImports →
    rule.findings config program unit = []) : failuresIn config program unit = [] ↔
      config.allow.contains Rule.noDuplicateImports.name = true ∨ ImportsApart program unit := by
  rw [failuresIn_eq_nil_iff, ← duplicateImports_eq_nil_iff, or_iff_not_imp_left, Bool.not_eq_true,
    ← mem_activeRules_iff]
  refine ⟨fun h => h _, fun h rule hrule => ?_⟩
  by_cases himports : rule = .noDuplicateImports
  · subst himports
    exact h hrule
  · exact hother rule hrule himports

/-- **A file that passed fails by its imports only.** It passes again as long as no import has come to bring in what
an earlier one does, and that cannot be unless an import stands for another file. -/
theorem failuresIn_of_passed (hpassed : failuresIn config passed unit = []) :
    (∀ f ∈ failuresIn config program unit, f.rule = Rule.noDuplicateImports.name) ∧
      (failuresIn config program unit = [] ↔
        config.allow.contains Rule.noDuplicateImports.name = true ∨ ImportsApart program unit) ∧
      ((∀ d ∈ topLevelImports unit,
        program.target? unit.path d.source.value = passed.target? unit.path d.source.value) →
          failuresIn config program unit = []) := by
  have hbefore : ∀ rule ∈ activeRules config, rule.findings config passed unit = [] :=
    failuresIn_eq_nil_iff.mp hpassed
  have hother : ∀ rule ∈ activeRules config, rule ≠ .noDuplicateImports →
      rule.findings config program unit = [] := fun rule hrule hne =>
    (findings_congr hne).trans (hbefore rule hrule)
  refine ⟨fun f hf => ?_, failuresIn_eq_nil_iff_importsApart hother, fun htargets => ?_⟩
  · obtain ⟨rule, hrule, hname, hfound⟩ := exists_rule_of_mem_failuresIn hf
    rw [hname, not_ne_iff.mp (mt (hother rule hrule) hfound)]
  · rw [failuresIn_eq_nil_iff_importsApart hother, importsApart_congr htargets,
      ← failuresIn_eq_nil_iff_importsApart fun rule hrule _ => hbefore rule hrule]
    exact hpassed

end Recheck.Lint
