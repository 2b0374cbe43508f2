import Recheck.Proofs.Check.Arity
import Recheck.Proofs.Check.ImportPlaces

/-!
# Imports that are not used

In the end of a check each import of the file is either used or reported. What is said of a name that a file imports once, and
does not declare again, follows from the tree of the file: if some node refers to the name, the name leads to the import from
there, and if no node has it, no way leads to the import (`TypeChecker.reports_unused`). In between are blocks of declarations
for the scope that all files share. Their names are looked up from that scope, not from the file.
-/

set_option autoImplicit false

namespace Recheck

open Syntax Check

namespace Check

/-! ## What lasts from check to check -/

section

variable {p : Program} {I : Bindings → Prop} {c : TypeChecker}

theorem Lasting.check {unit : SourceUnit} (h : Lasting p unit.path I) (hp : p.WellRead) (hc : c.Idle) (hprogram : c.program = p)
    (hunit : unit ∈ p.units) (hholds : I c.known.bindings) : I (c.check unit (depthBound p)).known.bindings := by
  have hsteady : (State.start c.known).Steady p := hprogram ▸ hc.steady
  exact Lasting.run hp (h.answer hp _) (Nat.zero_lt_of_lt hp.cacheable_lt) hsteady (hsteady.fine_checkUnit hp hunit) (room_le hp)
    hholds

/-- Whatever a type checker is asked about, it stays true. -/
theorem Lasting.after (h : ∀ file, Lasting p file I) (hp : p.WellRead) (hc : c.Idle) (hprogram : c.program = p)
    (hholds : I c.known.bindings) (asked : List Path) : I (c.after asked).known.bindings := by
  induction asked generalizing c with
  | nil => exact hholds
  | cons path rest ih =>
    have hnext : I (c.semanticDiagnostics path).2.known.bindings := by
      unfold TypeChecker.semanticDiagnostics
      split
      · exact hholds
      · rename_i unit hunit
        split
        · exact hholds
        · rw [TypeChecker.findings_eq_check, hprogram]
          exact (h unit.path).check hp hc hprogram (hprogram ▸ (hprogram.symm ▸ hp).mem_of_unit? hunit).1 hholds
    exact ih (hc.semanticDiagnostics (hprogram.symm ▸ hp) path) ((c.program_semanticDiagnostics path).trans hprogram) hnext

end

/-! ## The check of a file -/

/-- The check of a file has its statements judged. -/
theorem attends_checkUnit {o : Lookout} {unit : SourceUnit} (ho : ∀ b, o.known b → b.fileSite unit = o.site) :
    Attends o False (Node.ofStatements unit.tree.statements) (checkUnit unit) := by
  refine attends_bindings fun b hb => ?_
  have hsite : (⟨unit.path, (b.fileScopes.get? unit.path).getD globalScope⟩ : Site) = o.site := ho b hb
  dsimp only
  rw [hsite, Node.ofStatements, ← List.flatMap_pure_eq_map]
  exact Attends.forM fun s _ => attends_checkStatement s none

/-- What is known while the file of the import is checked. -/
def Zone.lookout (z : Zone) (p : Program) : Lookout :=
  ⟨⟨z.file, z.root⟩, [], z.Holds p, fun _ => False, z.binding, fun _ _ _ => False.elim⟩

namespace Zone.Stems

variable {z : Zone} {p : Program} {unit : SourceUnit} {s : Statement} {c : TypeChecker}

variable (h : z.Stems p unit s)
include h

/-- Nothing refers to an import in the import itself. -/
theorem not_refersTo (name : String) : ¬(Node.statement s).RefersTo name := by
  intro hrefers
  have hbinding := h.binding
  cases hrefers with
  | own hname =>
    cases s with
    | importDecl | importEquals => exact nomatch hname
    | _ => exact nomatch hbinding
  | part _ hm => exact nomatch h.parts_eq_nil ▸ hm

theorem use_binding (found : Findings) : z.key ∈ (found.use unit.path z.binding).used := by
  have hbinding := h.binding
  have hplaced : z.binding.importer = z.file ∧ z.binding.home = z.file := by
    cases s with
    | importDecl d =>
      simp only [importBindings, List.mem_append, List.mem_map] at hbinding
      rcases hbinding with (⟨_, -, heq⟩ | ⟨_, -, heq⟩) | ⟨_, -, heq⟩ <;> exact heq ▸ ⟨rfl, rfl⟩
    | importEquals d => exact List.mem_singleton.mp hbinding ▸ ⟨rfl, rfl⟩
    | _ => cases hbinding
  rw [Findings.use, h.named]
  dsimp only
  rw [if_pos (hplaced.1.trans h.file.symm ▸ BEq.refl _), hplaced.2]
  exact List.mem_cons_self

/-- The statements of the file, apart from the import, are in the zone. -/
theorem sees {b : Bindings} {other : Statement} (hother : other ∈ unit.tree.statements) (hne : other ≠ s) :
    z.Sees b ⟨.statement other, ⟨z.file, z.root⟩⟩ := by
  obtain ⟨before, after, hstatements, hothers⟩ := h.statements
  have hmem : other ∈ z.others := by
    rw [hstatements] at hother
    rw [hothers, List.mem_append]
    exact (List.mem_append.mp hother).imp_right fun hmem => (List.mem_cons.mp hmem).resolve_left hne
  exact ⟨.refl _, rfl, ⟨other, hmem, .self _⟩, h.lawful.screened hmem⟩

theorem attends_check : Attends (z.lookout p) False (Node.ofStatements unit.tree.statements) (checkUnit unit) :=
  attends_checkUnit fun _ hb => congr (congrArg Site.mk h.file) (hb.site unit h.mem h.file)

variable (hp : p.WellRead) (hc : c.Idle) (hprogram : c.program = p) (hholds : z.Holds p c.known.bindings)
include hp hc hprogram hholds

omit h in
theorem ready : Ready p (z.Holds p) (depthBound p) (nodeBound p) (.start c.known) :=
  ⟨hprogram ▸ hc.steady, room_le hp, rfl, hholds⟩

/-- What a statement of the file refers to is used. -/
theorem uses_check {other : Statement} (hother : other ∈ unit.tree.statements)
    (hrefers : (Node.statement other).RefersTo z.name.name) : z.key ∈ (c.check unit (depthBound p)).found.used := by
  have hlasts := h.lasting hp unit.path
  have hready := ready hp hc hprogram hholds
  have hne : other ≠ s := fun heq => h.not_refersTo _ (heq ▸ hrefers)
  rcases h.attends_check.run hp hlasts h.use_binding (Nat.zero_lt_of_lt hp.cacheable_lt) (hready.steady.fine_checkUnit hp h.mem)
    hready (fun _ _ hb => hb) with hused | ⟨-, hjudged⟩
  · exact hused
  · obtain ⟨j, s', hlooks, hitem, hs', hproper, -, hgrow⟩ := hjudged (.statement other) (List.mem_map_of_mem hother)
    refine hgrow.used ((h.sights hp).uses hp hlasts h.use_binding ?_ hlooks hs' hproper ?_) <;> rw [hitem]
    · exact hrefers
    · exact h.sees hother hne

/-- What no statement of the file has a name for is not used. -/
theorem spared_check (hmentions : ∀ other ∈ unit.tree.statements, ¬(Node.statement other).Mentions z.name.name) :
    z.key ∉ (c.check unit (depthBound p)).found.used := by
  have hlasts := h.lasting hp unit.path
  have hready := ready hp hc hprogram hholds
  intro hused
  have hstart : z.key ∈ (State.start c.known).found.used := by
    refine h.attends_check.spares hp hlasts (Nat.zero_lt_of_lt hp.cacheable_lt) (hready.steady.fine_checkUnit hp h.mem) hready
      (fun _ _ hb => hb) (fun _ hname => absurd hname List.not_mem_nil) (fun j s' hlooks _ hnode hs' hproper _ => ?_) hused
    have hnode : j.item.node ∈ Node.ofStatements unit.tree.statements := hnode.resolve_right fun ⟨_, hname, _⟩ => absurd hname List.not_mem_nil
    obtain ⟨other, hother, heq⟩ := List.mem_map.mp hnode
    have hunused : { z.binding with localName := none : ImportBinding }.localName = none := rfl
    refine spared hp hlasts hunused (fun b x name binding hvalid hb hx hname hlead => ?_) (heq ▸ hmentions other hother) hlooks hs'
      hproper
    exact h.leads_elsewhere hp hvalid hb hx hname hlead
  exact nomatch hstart

end Zone.Stems

end Check

/-! ## What is said -/

/-- It is said of a name that its import is not used. -/
def Diagnostic.SaysUnused (d : Diagnostic) (name : Ident) : Prop := d.code = 6133 ∧ d.span = name.span

namespace TypeChecker

variable {unit : SourceUnit} {found : Findings} {name : Ident}

theorem not_used_of_saysUnused (hclean : unit.syntaxDiagnostics = []) {spots : List Spot} (hspots : Spotted spots found.reports)
    {d : Diagnostic} (hd : d ∈ diagnostics unit found) (hunused : d.SaysUnused name) : importKey unit.path name ∉ found.used := by
  rw [diagnostics, hclean, List.nil_append] at hd
  obtain ⟨r, hr, rfl⟩ := List.mem_map.mp hd
  rcases List.mem_append.mp hr with hr | hr
  · obtain ⟨role, hrole, -⟩ := hspots.spot r (List.mem_reverse.mp hr)
    exact absurd hunused.1 (Fault.code_ne_unused hrole name.name)
  · obtain ⟨other, hother, rfl⟩ := List.mem_map.mp hr
    have hspan : other.span = name.span := hunused.2
    have hkey : importKey unit.path other = importKey unit.path name := by rw [importKey, importKey, hspan]
    have hnot := (List.mem_filter.mp hother).2
    rw [hkey, Bool.not_eq_true', ← Bool.not_eq_true, List.contains_iff_mem] at hnot
    exact hnot

theorem mem_diagnostics_unused (hname : name ∈ unit.tree.statements.flatMap importedNames)
    (hused : importKey unit.path name ∉ found.used) :
    (⟨.unused name.name, name.span⟩ : Check.Report).toDiagnostic unit.source ∈ diagnostics unit found := by
  refine List.mem_append_right _ (List.mem_map_of_mem (List.mem_append_right _ (List.mem_map.mpr ⟨name, ?_, rfl⟩)))
  refine List.mem_filter.mpr ⟨hname, ?_⟩
  rwa [Bool.not_eq_true', ← Bool.not_eq_true, List.contains_iff_mem]

theorem semanticDiagnostics_eq {c : TypeChecker} {path : Path} (hunit : c.program.unit? path = some unit)
    (hchecked : (unit.isTypeDefinition && c.program.options.skipLibCheck) = false) :
    (c.semanticDiagnostics path).1 = diagnostics unit (c.check unit (depthBound c.program)).found := by
  unfold semanticDiagnostics
  rw [hunit]
  dsimp only
  rw [hchecked]
  rfl

/-- One of two names that are imported is referred to. -/
def halfUsed : Program :=
  .ofHost [⟨"/a.ts"⟩] .standard (Files.toHost (.ofList [
    (⟨"/a.ts"⟩, "import \x7bt, u\x7d from './t';t"), (⟨"/t.ts"⟩, "export let t = 1, u = 2")]))

/-- A file with an import at its top imports a name once if its other statements do not declare it. -/
theorem importsOnce_first {s : Statement} {rest : List Statement} (hstatements : unit.tree.statements = s :: rest)
    (hname : name ∈ importedNames s) (honce : ∀ id ∈ importedNames s, id.name = name.name → id = name)
    (hrest : ∀ other ∈ rest, ¬(Node.statement other).Declares name.name) : unit.ImportsOnce name :=
  ⟨[], s, rest, hstatements, hname, honce, hrest⟩

/-- The same where that import is of nothing else. -/
theorem importsOnce_alone (h : unit.tree.statements = unit.tree.statements.headD default :: unit.tree.statements.tail ∧
    importedNames (unit.tree.statements.headD default) = [name] ∧
    ∀ other ∈ unit.tree.statements.tail, ¬(Node.statement other).Declares name.name) : unit.ImportsOnce name :=
  importsOnce_first h.1 (h.2.1 ▸ List.mem_cons_self) (fun _ hid _ => List.mem_singleton.mp (h.2.1 ▸ hid)) h.2.2

theorem firstUnit_eq {p : Program} (h : (p.unit? ⟨"/a.ts"⟩).isSome = true) : p.unit? ⟨"/a.ts"⟩ = some (firstUnit p) := by
  obtain ⟨unit, hunit⟩ := Option.isSome_iff_exists.mp h
  rw [firstUnit, hunit]
  rfl

/-- An imported name that only bounds a type parameter. -/
def bounding : Program :=
  .ofHost [⟨"/a.ts"⟩] .standard (Files.toHost (.ofList [
    (⟨"/a.ts"⟩, "import \x7bT\x7d from './t';export function f<U extends T>(x: U): void \x7b\x7d"),
    (⟨"/t.ts"⟩, "export interface T \x7b\x7d")]))

/-- An imported name that is only referred to in a block for the scope that all files share. -/
def sharing : Program :=
  .ofHost [⟨"/a.ts"⟩] .standard (Files.toHost (.ofList [
    (⟨"/a.ts"⟩, "import \x7bT\x7d from './t';declare global \x7binterface W \x7bx: T\x7d\x7d"),
    (⟨"/t.ts"⟩, "export interface T \x7b\x7d")]))

end TypeChecker

end Recheck
