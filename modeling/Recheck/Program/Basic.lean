import Recheck.Program.Resolve
import Recheck.Program.SourceUnit

/-!
# Programs

A program is what can be reached from its root files: every file once, in the order in which a breadth
first search finds it, with the files that its specifiers stand for.
-/

set_option autoImplicit false

namespace Recheck

/-- What the specifiers of a file stand for, in the order in which they first occur. -/
abbrev ResolutionTable := Dict String (Option Path)

/-- A set of files that belong together. -/
structure Program where
  rootNames : List Path
  options : CompilerOptions
  files : Dict Path SourceUnit
  resolutions : Dict Path ResolutionTable
  globalDiagnostics : List Diagnostic

/-- Supplies the units of a program, with a state of its own. -/
structure Loader (σ : Type) where
  load : Path → StateM σ (Option SourceUnit)

/-- The loader that reads every file anew. -/
def Host.loader (host : Host) : Loader Unit where
  load path := return (host.read? path).map (SourceUnit.ofText path)

namespace Program

instance : Inhabited Program := ⟨⟨[], default, .empty, .empty, []⟩⟩

def units (p : Program) : List SourceUnit := p.files.values

def unit? (p : Program) (path : Path) : Option SourceUnit := p.files.get? path

def isRoot (p : Program) (path : Path) : Bool := p.rootNames.any (· == path)

/-- The file that a specifier in a file stands for. -/
def target? (p : Program) (importer : Path) (specifier : String) : Option Path := do
  (← (← p.resolutions.get? importer).get? specifier)

/-! ## Creation -/

/-- The report of a root file that cannot be read. -/
def fileNotFound (path : Path) : Diagnostic :=
  .ofMessage .error 6053 ("File '" ++ path.text ++ "' not found.")

/-- Looks up all specifiers of a unit. -/
def resolveImports (unit : SourceUnit) (options : CompilerOptions) (host : Host) : ResolutionTable :=
  unit.tree.specifiers.foldl (fun table specifier =>
    if table.contains specifier then table
    else table.insert specifier (Resolve.resolve specifier unit.path options host)) .empty

/-- Whether a table still holds: its targets exist, and what it did not find is still not to be found. -/
def isStillValid (table : ResolutionTable) (unit : SourceUnit) (options : CompilerOptions)
    (host : Host) : Bool :=
  table.entries.all fun (specifier, target) =>
    match target with
    | some target => host.isFile target
    | none => (Resolve.resolve specifier unit.path options host).isNone

/-- The table of an older program for a file that has not changed. -/
def reusable? (old : Option Program) (path : Path) (unit : SourceUnit) (options : CompilerOptions)
    (host : Host) : Option ResolutionTable := do
  let old ← old
  let before ← old.unit? path
  guard (before.contentHash = unit.contentHash)
  let table ← old.resolutions.get? path
  guard (isStillValid table unit options host)
  pure table

/-- The state of the search: the paths still to visit and all that were ever queued, beside the program
so far. -/
structure Search where
  queue : List Path
  seen : List Path
  program : Program

/-- Queues a path unless it was queued before. -/
def Search.enqueue (s : Search) (path : Path) : Search :=
  if s.seen.contains path then s
  else { s with queue := s.queue ++ [path], seen := s.seen ++ [path] }

/-- Adds a unit under its path, and queues what it refers to. -/
def Search.visit (s : Search) (path : Path) (unit : SourceUnit) (table : ResolutionTable) : Search :=
  let s := table.values.reduceOption.foldl Search.enqueue s
  { s with program := { s.program with
      files := s.program.files.insert path unit
      resolutions := s.program.resolutions.insert path table } }

/-- Notes that a path cannot be read, which matters for roots only. -/
def Search.miss (s : Search) (path : Path) : Search :=
  if s.program.isRoot path then
    { s with program := { s.program with
        globalDiagnostics := s.program.globalDiagnostics ++ [fileNotFound path] } }
  else s

/-- Visits at most `n` paths of the queue. -/
def search {σ : Type} (host : Host) (loader : Loader σ) (old : Option Program) :
    Nat → Search → StateM σ Program
  | 0, s => return s.program
  | n + 1, s =>
    match s.queue with
    | [] => return s.program
    | path :: queue => do
      let s := { s with queue := queue }
      match ← loader.load path with
      | none => search host loader old n (s.miss path)
      | some unit =>
        let options := s.program.options
        let table := (reusable? old path unit options host).getD (resolveImports unit options host)
        search host loader old n (s.visit path unit table)

/-- The program of some roots. What an older program resolved is taken over where it still holds. -/
def create {σ : Type} (rootNames : List Path) (options : CompilerOptions) (host : Host)
    (loader : Loader σ) (old : Option Program) : StateM σ Program :=
  let roots := rootNames.map Path.normalize
  let start : Program := ⟨roots, options, .empty, .empty, []⟩
  search host loader old (roots.length + host.capacity + 1) ⟨roots, roots, start⟩

/-- The program of some roots, read from scratch. -/
def ofHost (rootNames : List Path) (options : CompilerOptions) (host : Host) : Program :=
  ((create rootNames options host host.loader none).run ()).1

/-! ## Dependencies -/

/-- The other files that a file refers to, each once. -/
def dependencies (p : Program) (unit : SourceUnit) : List Path :=
  match p.resolutions.get? unit.path with
  | some table => distinct (table.values.reduceOption.filter fun target => !(target == unit.path))
  | none => []

end Program

end Recheck
