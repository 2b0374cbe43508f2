import Recheck.Config.Checker

/-!
# Command-line arguments

Options are long (`--name value`, `--name=value`) or short (`-n value`, `-nvalue`, `-n=value`), and short
options without a value can be run together. Some options are known on both sides of the subcommand; the
one nearer to the end counts.

Arguments are read from left to right, so of a request for help and a fault the one further left decides.
-/

set_option autoImplicit false

namespace Recheck

/-- How a report is written. -/
inductive ReportFormat where
  | text
  | json
deriving DecidableEq, Repr

namespace ReportFormat

def name : ReportFormat → String
  | text => "text"
  | json => "json"

def ofName? (s : String) : Option ReportFormat := [text, json].find? (·.name = s)

end ReportFormat

namespace Arguments

/-- Why no command is run. -/
inductive Stop where
  /-- The arguments ask for help or for the version. -/
  | help
  /-- The arguments are wrong. -/
  | misuse
deriving DecidableEq, Repr

/-- What comes behind an option. -/
inductive OptionKind where
  | flag
  /-- One value, which the test accepts. -/
  | value (accepts : String → Bool)
  /-- A value each time the option is given. -/
  | values (accepts : String → Bool)

/-- An option with its names. -/
structure OptionSpec where
  long : String
  short : Option Char
  kind : OptionKind

/-- What was given, in order: the long name of an option and its value. -/
abbrev Given := List (String × String)

/-- Some value of a path. -/
def isPath (s : String) : Bool := s ≠ ""

/-- The number that a text says; a sign may stand in front. -/
def number? (s : String) : Option Int :=
  let digits (cs : List Char) : Option Int :=
    if cs.isEmpty || !cs.all Char.isDigit then none
    else some (Int.ofNat (cs.foldl (fun n c => 10 * n + (c.toNat - 48)) 0))
  match s.toList with
  | '+' :: rest => digits rest
  | '-' :: rest => (digits rest).map fun n => -n
  | cs => digits cs

/-- A number of 32 bits. -/
def code? (s : String) : Option Nat :=
  (number? s).bind fun n => if 0 ≤ n && n ≤ Json.maxUInt32 then some n.toNat else none

/-- Options that are known everywhere. -/
def globalOptions : List OptionSpec :=
  [⟨"quiet", some 'q', .flag⟩, ⟨"verbose", some 'v', .flag⟩, ⟨"config", none, .value isPath⟩]

/-- Options of the command that checks a project. -/
def checkOptions : List OptionSpec :=
  [⟨"project", some 'p', .value isPath⟩, ⟨"lint", none, .value isPath⟩,
   ⟨"ignore-diagnostic", none, .values fun s => (code? s).isSome⟩,
   ⟨"ignore-lint", none, .values fun _ => true⟩, ⟨"lint-emit-errors", none, .flag⟩,
   ⟨"diagnostic-format", none, .value fun s => (DiagnosticFormat.ofName? s).isSome⟩,
   ⟨"format", some 'f', .value fun s => (ReportFormat.ofName? s).isSome⟩, ⟨"timings", none, .flag⟩,
   ⟨"watch", some 'w', .flag⟩]

/-- Notes an option with its value. -/
def note (given : Given) (spec : OptionSpec) (value : String) : Except Stop Given :=
  match spec.kind with
  | .flag => if given.any (·.1 = spec.long) then .error .misuse else .ok (given ++ [(spec.long, "")])
  | .value accepts =>
    if given.any (·.1 = spec.long) || !accepts value then .error .misuse
    else .ok (given ++ [(spec.long, value)])
  | .values accepts =>
    if accepts value then .ok (given ++ [(spec.long, value)]) else .error .misuse

/-- Whether an argument can be the value of the option in front of it. -/
def isValue (arg : String) : Bool := arg = "-" || arg.toList.head? ≠ some '-'

/-- Notes an option whose value may be attached to it, or stand behind it in `rest`. -/
def take (given : Given) (spec : OptionSpec) (attached : Option String) (rest : List String) :
    Except Stop (Given × List String) :=
  match spec.kind, attached with
  | .flag, some _ => .error .misuse
  | .flag, none => (note given spec "").map fun given => (given, rest)
  | _, some value => (note given spec value).map fun given => (given, rest)
  | _, none =>
    match rest with
    | value :: rest =>
      if isValue value then (note given spec value).map fun given => (given, rest) else .error .misuse
    | [] => .error .misuse

/-- Reads a long option, given without its dashes. -/
def readLong (specs : List OptionSpec) (version : Bool) (given : Given) (option : List Char)
    (rest : List String) : Except Stop (Given × List String) :=
  let name := String.ofList (option.takeWhile (· ≠ '='))
  let attached := match option.dropWhile (· ≠ '=') with
    | _ :: value => some (String.ofList value)
    | [] => none
  if attached.isNone && (name = "help" || (version && name = "version")) then .error .help
  else match specs.find? (·.long = name) with
    | some spec => take given spec attached rest
    | none => .error .misuse

/-- Reads short options that are run together, given without their dash. -/
def readShort (specs : List OptionSpec) (version : Bool) (given : Given) (options : List Char)
    (rest : List String) : Except Stop (Given × List String) :=
  match options with
  | [] => .ok (given, rest)
  | c :: more =>
    match specs.find? (·.short = some c) with
    | none => .error (if c = 'h' || (version && c = 'V') then .help else .misuse)
    | some spec =>
      match spec.kind with
      | .flag =>
        match note given spec "" with
        | .ok given => readShort specs version given more rest
        | .error stop => .error stop
      | _ =>
        let attached := match more with
          | [] => none
          | '=' :: value => some (String.ofList value)
          | value => some (String.ofList value)
        take given spec attached rest

/-- Reads options up to the first argument that is none, at most `n` arguments. Behind `--` there are no
options, and nothing else is known there. -/
def readOptions (specs : List OptionSpec) (version : Bool) : Nat → Given → List String →
    Except Stop (Given × List String)
  | 0, given, rest => .ok (given, rest)
  | _, given, [] => .ok (given, [])
  | n + 1, given, arg :: rest =>
    if arg = "--" then (if rest.isEmpty then .ok (given, []) else .error .misuse)
    else match arg.toList with
      | '-' :: '-' :: option => do
        let (given, rest) ← readLong specs version given option rest
        readOptions specs version n given rest
      | '-' :: c :: options => do
        let (given, rest) ← readShort specs version given (c :: options) rest
        readOptions specs version n given rest
      | _ => .ok (given, arg :: rest)

/-- Reads all arguments of a subcommand, which takes options only. -/
def readAll (specs : List OptionSpec) (args : List String) : Except Stop Given := do
  let (given, rest) ← readOptions specs false args.length [] args
  if rest.isEmpty then .ok given else .error .misuse

end Arguments

/-- What the arguments of the checking command say. -/
structure CheckArguments where
  project? : Option Path
  lint? : Option Path
  ignoreDiagnostics : List Nat
  ignoreLints : List String
  lintEmitErrors : Bool
  diagnosticFormat? : Option DiagnosticFormat
  format : ReportFormat
  timings : Bool
  watch : Bool

/-- What is to be done. -/
inductive Command where
  /-- Check a project. -/
  | check (args : CheckArguments)
  /-- Serve requests. -/
  | worker

/-- A command, and what holds for all commands. -/
structure Invocation where
  /-- Whether nothing but diagnostics is printed. -/
  quiet : Bool
  /-- The file of settings. -/
  config? : Option Path
  command : Command

namespace Arguments

def hasFlag (given : Given) (name : String) : Bool := given.any (·.1 = name)

/-- The values of an option. -/
def valuesOf (given : Given) (name : String) : List String := (given.filter (·.1 = name)).map (·.2)

/-- The value of an option; nearer to the end counts more. -/
def value? (given : Given) (name : String) : Option String := (valuesOf given name).getLast?

def checkArguments (given : Given) : CheckArguments where
  project? := (value? given "project").map Path.mk
  lint? := (value? given "lint").map Path.mk
  ignoreDiagnostics := (valuesOf given "ignore-diagnostic").filterMap code?
  ignoreLints := valuesOf given "ignore-lint"
  lintEmitErrors := hasFlag given "lint-emit-errors"
  diagnosticFormat? := (value? given "diagnostic-format").bind DiagnosticFormat.ofName?
  format := ((value? given "format").bind ReportFormat.ofName?).getD .text
  timings := hasFlag given "timings"
  watch := hasFlag given "watch"

def invocation (given : Given) (command : Command) : Invocation :=
  ⟨hasFlag given "quiet", (value? given "config").map Path.mk, command⟩

/-- The names of the subcommands. -/
def subcommands : List String := ["check", "worker", "help"]

/-- Reads the arguments of a program. -/
def parse (args : List String) : Except Stop Invocation := do
  let (outer, rest) ← readOptions globalOptions true args.length [] args
  match rest with
  | "check" :: rest =>
    let inner ← readAll (globalOptions ++ checkOptions) rest
    .ok (invocation (outer ++ inner) (.check (checkArguments inner)))
  | "worker" :: rest =>
    let inner ← readAll globalOptions rest
    .ok (invocation (outer ++ inner) .worker)
  | ["help"] => .error .help
  | ["help", name] => .error (if subcommands.contains name then .help else .misuse)
  | _ => .error .misuse

end Arguments

end Recheck
