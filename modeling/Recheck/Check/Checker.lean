import Recheck.Check.Statement

/-!
# The type checker

A type checker serves all files of a program and keeps what it has found out about declarations. It
answers the questions of a rule from its tables, with the rule for the node that is asked about, or from
the types it remembers. Each answer looks into the parts of a node, or into another declaration, through
the answers one level below. A chain of looks passes through each declaration at most once and between
two declarations only downwards in a tree, so a depth computed from the texts of the program is enough.
-/

set_option autoImplicit false

namespace Recheck.Check

open Syntax

/-- The rule for a node. -/
def rule : (j : Judgement) → CheckM j.Answer
  | .expr expr site expected => exprRule expr site expected
  | .type node site => typeRule node site
  | .statement stmt site result => statementRule stmt site result
  | .returns stmt site => returnsRule stmt site

/-! ## Findings -/

/-- What the check of a file has found: the imports that it saw used, and its reports with the newest
first. -/
structure Findings where
  used : List NodeKey
  reports : List Report

namespace Findings

def empty : Findings := ⟨[], []⟩

def report (found : Findings) (fault : Fault) (span : Span) : Findings :=
  { found with reports := ⟨fault, span⟩ :: found.reports }

/-- Notes an import as used, if it stands in the file under check. -/
def use (found : Findings) (file : Path) (binding : ImportBinding) : Findings :=
  match binding.localName with
  | some name =>
    if binding.importer == file then { found with used := importKey binding.home name :: found.used }
    else found
  | none => found

/-- All reports on a file, from top to bottom, and at the end the imports that nothing referred to. -/
def ofUnit (found : Findings) (unit : SourceUnit) : List Report :=
  found.reports.reverse ++ unusedImports unit.path unit.tree.statements found.used

end Findings

/-! ## Memory -/

/-- What a type checker knows of its program. -/
structure Knowledge where
  bindings : Bindings
  /-- The types of declarations and function expressions computed so far. -/
  types : Dict Declaration Ty
  /-- The declarations whose types are being computed. -/
  resolving : List Declaration

/-- The state of the check of one file. `quiet` counts the computations that report nothing, and
`exhausted` tells whether a chain of looks was too long. -/
structure State where
  known : Knowledge
  quiet : Nat
  found : Findings
  exhausted : Bool

namespace State

/-- The state in which the check of a file begins. -/
def start (known : Knowledge) : State := ⟨known, 0, .empty, false⟩

/-- Changes the findings, unless the check is inside a quiet computation. -/
def find (s : State) (change : Findings → Findings) : State :=
  if s.quiet = 0 then { s with found := change s.found } else s

def openBody (s : State) (body : Body) (parent : ScopeId) (file : Path) : State :=
  { s with known.bindings := s.known.bindings.openBody body parent file }

/-- Begins to work out the type of a declaration. -/
def enter (s : State) (d : Declaration) : State :=
  { s with quiet := s.quiet + 1, known.resolving := d :: s.known.resolving }

/-- Ends working out the type of a declaration. The type is remembered, unless it is not all that could
be found out. -/
def leave (s : State) (d : Declaration) (type : Ty) : State :=
  { s with
    quiet := s.quiet - 1
    known.resolving := s.known.resolving.erase d
    known.types := if s.exhausted then s.known.types else s.known.types.insert d type }

end State

/-- The type of a declaration, worked out on the first question. While it is being worked out it counts
as `any`. -/
def remember (d : Declaration) (compute : StateM State Ty) : StateM State Ty := do
  let known := (← get).known
  match known.types.get? d with
  | some type => return type
  | none =>
    if known.resolving.contains d then return .any
    modify (·.enter d)
    let type ← compute
    modify (·.leave d type)
    return type

/-! ## Answers -/

/-- The answers in the check of a file, for chains of looks of this length. -/
def answer (file : Path) : Nat → (q : Question) → StateM State q.Answer
  | _, .bindings => return (← get).known.bindings
  | _, .isQuiet => return (← get).quiet ≠ 0
  | _, .report fault span => modify (·.find (·.report fault span))
  | _, .use binding => modify (·.find (·.use file binding))
  | _, .openBody body parent => modify (·.openBody body parent file)
  | 0, .judge j => do
    modify fun s => { s with exhausted := true }
    return j.blank
  | 0, .declared _ => do
    modify fun s => { s with exhausted := true }
    return .any
  | n + 1, .judge j => (rule j).run (answer file n)
  | n + 1, .declared d => remember d ((declarationRule d).run (answer file n))

/-- More than the number of nodes in all trees of a program. -/
def nodeBound (program : Program) : Nat :=
  (program.units.map fun u => 2 * u.text.utf8ByteSize + 2).foldl (· + ·) 1

/-- The longest chain of looks. -/
def depthBound (program : Program) : Nat := nodeBound program * nodeBound program

/-- The check of all statements of a file. -/
def checkUnit (unit : SourceUnit) : CheckM Unit := do
  let scope := ((← bindings).fileScopes.get? unit.path).getD globalScope
  unit.tree.statements.forM (checkStatement · ⟨unit.path, scope⟩ none)

end Check

open Check

/-- A type checker for one program, with what it has found out so far. -/
structure TypeChecker where
  program : Program
  known : Knowledge

namespace TypeChecker

/-- A type checker that has not looked into anything. -/
def ofProgram (program : Program) : TypeChecker :=
  ⟨program, ⟨Bindings.ofProgram program, .empty, []⟩⟩

/-- Runs the check of a file with what is known, and answers what is known afterwards. -/
def findings (program : Program) (known : Knowledge) (unit : SourceUnit) : Findings × Knowledge :=
  let final := (((checkUnit unit).run (answer unit.path (depthBound program))).run (.start known)).2
  (final.found, final.known)

/-- The diagnostics of a file, syntax errors first. -/
def diagnostics (unit : SourceUnit) (found : Findings) : List Diagnostic :=
  unit.syntaxDiagnostics ++ (found.ofUnit unit).map (·.toDiagnostic unit.source)

/-- The diagnostics of a path. Declaration files are not looked into when the program's options say so,
and a file that is not part of the program has none. -/
def semanticDiagnostics (c : TypeChecker) (path : Path) : List Diagnostic × TypeChecker :=
  match c.program.unit? path with
  | none => ([], c)
  | some unit =>
    if unit.isTypeDefinition && c.program.options.skipLibCheck then (unit.syntaxDiagnostics, c)
    else
      let (found, known) := findings c.program c.known unit
      (diagnostics unit found, { c with known := known })

theorem program_semanticDiagnostics (c : TypeChecker) (path : Path) :
    (c.semanticDiagnostics path).2.program = c.program := by
  unfold semanticDiagnostics
  cases c.program.unit? path with
  | none => rfl
  | some unit => simp only; split <;> rfl

/-- The diagnostics of some files, asked for one after the other. -/
def diagnosticsOf (c : TypeChecker) : List Path → List (Path × List Diagnostic)
  | [] => []
  | path :: rest =>
    let (found, c) := c.semanticDiagnostics path
    (path, found) :: diagnosticsOf c rest

end TypeChecker

/-- The diagnostics of a file from a type checker of its own. -/
def Program.semanticDiagnostics (p : Program) (path : Path) : List Diagnostic :=
  ((TypeChecker.ofProgram p).semanticDiagnostics path).1

end Recheck
