import Recheck.Command.Arguments
import Recheck.Program.Disk
import Recheck.Worker.Hooks

/-!
# Commands

What a command answers, from its arguments, the files on disk, the environment and its input: an exit code,
what it prints, and the lines of its messages. Faults end a command with the code 1, wrong arguments with 2.
-/

set_option autoImplicit false

namespace Recheck

/-- The variable that hands settings to a worker. -/
def configVariable : String := "VIGIL_CHECKER_CONFIG"

/-- The file of settings that is looked for when none is named. -/
def configFileName : String := "vigil.toml"

/-- What a command prints on its output. -/
inductive CommandOutput where
  | nothing
  | report (report : CycleReport)
  | responses (responses : List Response)

/-- How a command ends. -/
structure CommandResult where
  exitCode : Nat
  output : CommandOutput
  /-- The lines of its messages. -/
  messages : List String

namespace Command

/-- The settings of the file that is named, or found in the working directory. -/
def fileSettings (config? : Option Path) (cwd : Path) (host : Host) : Except ConfigFault CheckerConfig :=
  let found := cwd.join ⟨configFileName⟩
  match config? with
  | some path => CheckerConfig.load (cwd.join path) host
  | none =>
    if host.isFile found then CheckerConfig.load found host
    else .ok (CheckerConfig.standard.resolvePaths cwd)

/-- The settings of a check: those of a file, and on top of them those of the arguments. -/
def settings (args : CheckArguments) (config? : Option Path) (disk : Disk) :
    Except ConfigFault CheckerConfig := do
  let cwd := disk.cwdPath
  let config ← fileSettings config? cwd disk.toHost
  .ok {
    project := (args.project?.map fun path => (cwd.join path).normalize).getD config.project
    lint := (args.lint?.map fun path => (cwd.join path).normalize).orElse fun _ => config.lint
    ignoreDiagnostics := config.ignoreDiagnostics ++ args.ignoreDiagnostics
    ignoreLints := config.ignoreLints ++ args.ignoreLints
    lintEmitErrors := config.lintEmitErrors || args.lintEmitErrors
    diagnosticFormat := args.diagnosticFormat?.getD config.diagnosticFormat
    timings := config.timings || args.timings
    watch := config.watch || args.watch }

/-- The lines of a text. -/
def linesOf (text : String) : List String :=
  ((Source.splitLines text.toList).map fun line =>
    String.ofList (if line.getLast? = some '\n' then line.dropLast else line))

/-- How many errors and warnings there are, and how long it took to find them. -/
def summary (r : CycleReport) : String :=
  "Found " ++ toString r.errors.length ++ " error(s) and " ++ toString r.warnings.length ++
    " warning(s) in " ++ toString r.checkTime ++ " ms (" ++ toString r.lintTime ++ " ms linting)."

/-- A report in the form that was asked for. -/
def present (r : CycleReport) (format : ReportFormat) (quiet : Bool) : CommandResult :=
  let exitCode := if r.hasErrors then 1 else 0
  match format with
  | .json => ⟨exitCode, .report r, []⟩
  | .text => ⟨exitCode, .nothing, r.texts.flatMap linesOf ++ if quiet then [] else [summary r]⟩

/-- A command that ends with a fault. -/
def failed (message : String) (output : CommandOutput) : CommandResult :=
  ⟨1, output, linesOf ("error: " ++ message)⟩

/-- One check of a project: starts the worker, reports all roots as built and runs a cycle. -/
def checkOnce (config : CheckerConfig) (host : Host) : Except String CycleReport := do
  let hooks := Hooks.ofProgram (.checker config) config.watch
  let (started, hooks) := hooks.call (Link.start host)
  started.mapError (·.message)
  let project ← (Project.load config.project host).mapError (·.message)
  let (done, _) := hooks.call (Hooks.buildSealed host project.rootNames)
  (done.mapError (·.message)).map (·.report)

def runCheck (args : CheckArguments) (inv : Invocation) (disk : Disk) : CommandResult :=
  match settings args inv.config? disk with
  | .error fault => failed fault.message .nothing
  | .ok config =>
    match checkOnce config disk.toHost with
    | .error message => failed message .nothing
    | .ok report => present report args.format inv.quiet

/-- The worker of the environment. -/
def service? (environment? : Option String) : Except String Service :=
  match environment? with
  | none => .error ("checker configuration missing: " ++ configVariable ++ " is not set")
  | some text =>
    match CheckerConfig.ofJsonText? text with
    | some config => .ok (.ofConfig config)
    | none => .error "malformed worker message: the settings are no valid configuration"

def runWorker (disk : Disk) (environment? : Option String) (input : String) : CommandResult :=
  match service? environment? with
  | .error message => failed message (.responses [])
  | .ok service => ⟨0, .responses (service.serve disk.toHost input).1, []⟩

/-- Runs the command that the arguments name. -/
def run (args : List String) (disk : Disk) (environment? : Option String) (input : String) : CommandResult :=
  match Arguments.parse args with
  | .error .help => ⟨0, .nothing, []⟩
  | .error .misuse => ⟨2, .nothing, []⟩
  | .ok inv =>
    match inv.command with
    | .check args => runCheck args inv disk
    | .worker => runWorker disk environment? input

end Command

end Recheck
