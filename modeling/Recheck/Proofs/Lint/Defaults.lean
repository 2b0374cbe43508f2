import Recheck.Lint.Linter
import Recheck.Proofs.Check.Arity
import Recheck.Proofs.Check.Exports
import Recheck.Proofs.Syntax.Names

/-!
# Default exports

What the binder records as the export `default` of a module comes from two kinds of statements: those that say
`export default`, which the rule about default exports finds, and export declarations that use `default` as a name, which
it does not look at (`records_default_iff`). No other declaration can have that name, as it is no identifier.
-/

set_option autoImplicit false

namespace Recheck

open Syntax Check

/-! ## Names of declarations -/

theorem Check.Bindings.take_nameParts (name : String) : (nameParts name).take 1 = [firstPart name] := by
  have hsplit (cs : List Char) : (nameParts.split cs).take 1 = [cs.takeWhile (· ≠ '.')] := by
    induction cs with
    | nil => rfl
    | cons c cs ih =>
      rw [nameParts.split]
      split
      · rename_i part rest hparts
        obtain rfl : part = cs.takeWhile (· ≠ '.') := by
          rw [hparts] at ih
          exact List.singleton_inj.mp ih
        by_cases hc : c = '.'
        · rw [if_pos hc, List.takeWhile_cons_of_neg (by simp [hc])]
          rfl
        · rw [if_neg hc, List.takeWhile_cons_of_pos (by simp [hc])]
          rfl
      · rename_i hparts
        rw [hparts] at ih
        exact absurd ih (List.cons_ne_nil _ _).symm
  rw [nameParts, ← List.map_take, hsplit]
  rfl

theorem Syntax.StartsIdentified.firstPart_ne_default {name : String} (h : StartsIdentified name) : firstPart name ≠ "default" := by
  intro heq
  rw [StartsIdentified, heq] at h
  exact absurd h (by decide)

theorem Syntax.StartsIdentified.ne_default {name : String} (h : StartsIdentified name) : name ≠ "default" := by
  rintro rfl
  exact h.firstPart_ne_default (firstPart_of_isWord (by decide))

namespace Lint

/-! ## Export declarations -/

/-- Export declarations that give the name `default` to what they export, among the statements of a file. A name of the file
itself counts if a statement declares it. -/
def NamesDefault (statements : List Statement) : Statement → Prop
  | .exportDecl ⟨.named specifiers (some _), _⟩ => ∃ s ∈ specifiers, s.exportedName.name = "default"
  | .exportDecl ⟨.named specifiers none, _⟩ =>
    ∃ s ∈ specifiers, s.exportedName.name = "default" ∧ ∃ declaration ∈ statements, s.localName.name ∈ declaredNames declaration
  | .exportDecl ⟨.star (some newName) _, _⟩ => newName.name = "default"
  | _ => False

/-- The statement exports the name, by itself or in a list of names of the file. -/
def Exporting (statements : List Statement) (name : String) (s : Statement) : Prop :=
  name ∈ offeredNames s ∨ ∃ specifier ∈ Bindings.localExports [s], name = specifier.exportedName.name ∧
    ∃ declaration ∈ statements, specifier.localName.name ∈ declaredNames declaration

variable {statements : List Statement} {s : Statement}

theorem exportsName_iff {name : String} : ExportsName statements name ↔ ∃ s ∈ statements, Exporting statements name s := by
  unfold ExportsName Exporting Bindings.localExports
  simp only [List.mem_flatMap, List.mem_singleton]
  grind

/-- A declaration exports the default by saying so. -/
theorem default_mem_offeredNames_iff (h : s.Proper) (hdecl : ∀ d, s ≠ .exportDecl d) :
    "default" ∈ offeredNames s ↔ s.modifiers.isDefault = true := by
  have hnames : ∀ name ∈ s.givenNames, name ≠ "default" := fun name hname => (h.names name hname).ne_default
  have hdefault (hnot : ¬s.MayBeDefault) : s.modifiers.isDefault = false := Bool.eq_false_iff.mpr (mt h.default hnot)
  cases s with
  | exportDecl d => exact absurd rfl (hdecl d)
  | function d => simp only [offeredNames, Statement.modifiers]; grind [Statement.givenNames]
  | interface d => simp only [offeredNames, Statement.modifiers]; grind [Statement.givenNames]
  | importEquals d =>
    rw [hdefault nofun, offeredNames]
    grind [Statement.givenNames]
  | variableDecl d =>
    rw [hdefault nofun, offeredNames]
    grind [Statement.givenNames]
  | typeAlias d =>
    rw [hdefault nofun, offeredNames]
    grind [Statement.givenNames]
  | moduleDecl d =>
    obtain ⟨modifiers, name, body, span⟩ := d
    rw [hdefault nofun]
    cases name with
    | named name =>
      have hfirst := (h.names name.name (List.mem_singleton_self _)).firstPart_ne_default
      rw [offeredNames, Bindings.take_nameParts]
      grind
    | _ => simp [offeredNames]
  | _ => simp [offeredNames, Statement.modifiers, Modifiers.none]

/-- Only an export declaration exports the default by name. -/
theorem exporting_default_iff (h : s.Proper) :
    Exporting statements "default" s ↔ isDefaultExport s = true ∨ NamesDefault statements s := by
  unfold Exporting
  by_cases hdecl : ∃ d, s = .exportDecl d
  · obtain ⟨⟨kind, span⟩, rfl⟩ := hdecl
    have hplain : (Statement.exportDecl ⟨kind, span⟩).modifiers.isDefault = false := rfl
    cases kind with
    | named specifiers source =>
      cases source <;> simp [offeredNames, Bindings.localExports, isDefaultExport, NamesDefault, hplain, eq_comm]
    | star newName source =>
      cases newName <;> simp [offeredNames, Bindings.localExports, isDefaultExport, NamesDefault, hplain, eq_comm]
    | _ => simp [offeredNames, Bindings.localExports, isDefaultExport, NamesDefault, hplain]
  · have hdecl (d : ExportDecl) : s ≠ .exportDecl d := fun hs => hdecl ⟨d, hs⟩
    obtain ⟨hlists, hnames, hdefault⟩ : Bindings.localExports [s] = [] ∧ ¬NamesDefault statements s ∧
        isDefaultExport s = s.modifiers.isDefault := by
      cases s with
      | exportDecl d => exact absurd rfl (hdecl d)
      | _ => exact ⟨rfl, id, rfl⟩
    rw [default_mem_offeredNames_iff h hdecl, hlists, hdefault]
    simp [hnames]

theorem defaultExport_ne_nil_iff {unit : SourceUnit} :
    defaultExport unit ≠ [] ↔ ∃ s ∈ unit.tree.statements, isDefaultExport s = true := by
  rw [defaultExport, Ne, List.map_eq_nil_iff, List.filter_eq_nil_iff]
  simp

/-- **The binder records an export `default` of a module, as a value or as a type, just if the rule about default exports
finds something or an export declaration uses `default` as a name.** -/
theorem records_default_iff {program : Program} {unit : SourceUnit} (config : LintConfig) (hp : program.WellRead)
    (hunit : unit ∈ program.units) (hmodule : unit.isModule = true) (hclean : unit.syntaxDiagnostics = []) :
    ∃ r, (Bindings.ofProgram program).modules.get? unit.path = some r ∧
      (((Bindings.ofProgram program).exportsOf r).HasName "default" ↔
        Rule.noDefaultExport.findings config program unit ≠ [] ∨
          ∃ s ∈ unit.tree.statements, NamesDefault unit.tree.statements s) := by
  obtain ⟨r, hr, hexports⟩ := exportsOf_ofProgram hp hunit hmodule
  refine ⟨r, hr, (hexports "default").trans ?_⟩
  have hproper : ∀ s ∈ unit.tree.statements, s.Proper := by
    have hread : unit.Read := hp.read_of_mem hunit
    rw [hread.tree_eq]
    exact parse_proper (hread.reports_eq_nil hclean)
  rw [exportsName_iff, Rule.findings, defaultExport_ne_nil_iff, ← exists_or]
  refine exists_congr fun s => ?_
  rw [← and_or_left]
  exact and_congr_right fun hs => exporting_default_iff (hproper s hs)

/-- A module whose default export has a name in it. -/
def aliased : Program :=
  .ofHost [⟨"/a.ts"⟩] .standard (Files.toHost (.ofList [(⟨"/a.ts"⟩, "let a = 1; export { a as default };")]))

theorem records_default_aliased :
    let unit := TypeChecker.firstUnit aliased
    (aliased.WellRead ∧ unit ∈ aliased.units ∧ unit.isModule = true ∧ unit.syntaxDiagnostics = []) ∧
      ∃ r, (Bindings.ofProgram aliased).modules.get? unit.path = some r ∧
        (((Bindings.ofProgram aliased).exportsOf r).HasName "default" ↔
          Rule.noDefaultExport.findings .standard aliased unit ≠ [] ∨
            ∃ s ∈ unit.tree.statements, NamesDefault unit.tree.statements s) := by
  have hp : aliased.WellRead := Program.wellRead_ofHost _ _ _
  have hunit : TypeChecker.firstUnit aliased ∈ aliased.units := TypeChecker.firstUnit_mem hp (by decide +kernel)
  have hmodule : (TypeChecker.firstUnit aliased).isModule = true := by decide +kernel
  have hclean : (TypeChecker.firstUnit aliased).syntaxDiagnostics = [] := by decide +kernel
  exact ⟨⟨hp, hunit, hmodule, hclean⟩, records_default_iff .standard hp hunit hmodule hclean⟩

/-- The rule does not find a default export that is given its name in a list. -/
theorem default_named_in_list :
    let unit := TypeChecker.firstUnit aliased
    aliased.WellRead ∧ unit ∈ aliased.units ∧ unit.isModule = true ∧ unit.syntaxDiagnostics = [] ∧
      (∃ r, (Bindings.ofProgram aliased).modules.get? unit.path = some r ∧
        ((Bindings.ofProgram aliased).exportsOf r).HasName "default") ∧
      ∀ config, Rule.noDefaultExport.findings config aliased unit = [] := by
  have hp : aliased.WellRead := Program.wellRead_ofHost _ _ _
  have hrecorded : ((Bindings.ofProgram aliased).modules.get? (TypeChecker.firstUnit aliased).path).any
      (fun r => (((Bindings.ofProgram aliased).exportsOf r).values.get? "default").isSome) = true := by decide +kernel
  obtain ⟨r, hr, hvalue⟩ := (Option.any_eq_true _ _).mp hrecorded
  have hnothing : defaultExport (TypeChecker.firstUnit aliased) = [] := by decide +kernel
  exact ⟨hp, TypeChecker.firstUnit_mem hp (by decide +kernel), by decide +kernel, by decide +kernel,
    ⟨r, hr, .inl hvalue⟩, fun _ => hnothing⟩

end Lint

end Recheck
