import Recheck.Check.Checker
import Recheck.Lint.Linter
import Recheck.Session.Basic

/-!
# Cycles

A cycle brings the program up to date and checks the files that a change can have touched: those that are
new, changed, or failed before, and all that refer to one of them. When one of these shares declarations
with files that do not refer to it, every file is checked.

The parts of a cycle are functions of their own, from the store to the store.
-/

set_option autoImplicit false

namespace Recheck

/-- What a cycle found. -/
structure CycleResult where
  diagnostics : List Diagnostic
  lintFailures : List Lint.Failure
  checkedFiles : List Path
  /-- Whether every file was checked. -/
  fullCheck : Bool

namespace Session

/-- Takes units from the store, and reads and keeps those that it does not hold. -/
def cachingLoader (host : Host) : Loader Store where
  load path := do
    let store ← get
    match store.unit? path with
    | some unit => return some unit
    | none =>
      match host.read? path with
      | none => return none
      | some text =>
        let unit := SourceUnit.ofText path text
        set (store.recordParsed path unit)
        return some unit

/-- The program of the project as it is now. -/
def build (project : Project) (host : Host) (store : Store) (old : Option Program) : Program × Store :=
  (Program.create project.rootNames project.options host (cachingLoader host) old).run store

/-- Notes for every file of a program what it refers to. -/
def noteDependencies (program : Program) (store : Store) : Store :=
  program.units.foldl (fun store unit =>
    store.updateDependencies unit.path (program.dependencies unit) unit.hasGlobalImpact) store

/-- Whether the paths from which a change spreads make a check of all files necessary. -/
def needsFullCheck (store : Store) (seed : List Path) : Bool := seed.any store.hasGlobalImpact

/-- The files to check, in the order of the program. -/
def selectUnits (program : Program) (store : Store) (seed : List Path) : List SourceUnit :=
  if needsFullCheck store seed then program.units
  else
    let affected := store.affected seed
    program.units.filter fun unit => affected.contains unit.path

/-- The files that are due for linting: roots that are no declarations and were not found clean since they
last changed. -/
def lintCandidates (program : Program) (store : Store) : List SourceUnit :=
  program.units.filter fun unit =>
    program.isRoot unit.path && !store.isLinted unit.path && !unit.isTypeDefinition

/-- Lints the files that are due, and marks those without a failure. -/
def lintRoots (config : LintConfig) (program : Program) (store : Store) : List Lint.Failure × Store :=
  let found := (lintCandidates program store).map fun unit =>
    (unit.path, Lint.failuresIn config program unit)
  let clean := (found.filter fun (_, failures) => failures.isEmpty).map (·.1)
  (found.flatMap (·.2), clean.foldl Store.markLinted store)

/-- Runs a cycle. -/
def run (s : Session) (host : Host) : CycleResult × Session :=
  let project := s.project.rescan host
  let invalidated := s.store.needingReload
  let (program, store) := build project host s.store s.program?
  let store := noteDependencies program store
  let seed := Path.sortDistinct (invalidated ++ store.recent ++ s.failed)
  let checked := (selectUnits program store seed).map (·.path)
  let findings := (TypeChecker.ofProgram program).diagnosticsOf checked
  let (failures, store) := match s.lint? with
    | some config => lintRoots config program store
    | none => ([], store)
  ({ diagnostics := program.globalDiagnostics ++ findings.flatMap (·.2)
     lintFailures := failures
     checkedFiles := checked
     fullCheck := needsFullCheck store seed },
   { s with
     project := project
     store := store.cleanup
     program? := some program
     failed := (findings.filter fun (_, found) => !found.isEmpty).map (·.1) })

end Session

end Recheck
