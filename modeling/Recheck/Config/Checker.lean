import Recheck.Config.Fault
import Recheck.Data.Json.Decode
import Recheck.Data.Json.Read
import Recheck.Data.Toml.Read
import Recheck.Diagnostic.Render
import Recheck.Lint.Basic
import Recheck.Program.Host

/-!
# Settings of the checker

Two kinds of settings are kept in TOML files: which rules the linter runs (`LintConfig`), and which
project is checked and how findings are reported (`CheckerConfig`). The latter also travels as JSON from a
host to its worker. A setting that is missing has a value of its own, one that is unknown is refused.
-/

set_option autoImplicit false

namespace Recheck

namespace Toml

mutual

/-- The value as JSON, whose records and choices are read in the same way. -/
def toJson : Toml → Json
  | .string s => .string s
  | .integer n => if 0 ≤ n then .natural n.toNat else .number (toString n)
  | .bool b => .bool b
  | .array items => .array (itemsToJson items)
  | .table entries => .object (entriesToJson entries)

def itemsToJson : List Toml → List Json
  | [] => []
  | v :: rest => v.toJson :: itemsToJson rest

def entriesToJson : List (String × Toml) → List (String × Json)
  | [] => []
  | (k, v) :: rest => (k, v.toJson) :: entriesToJson rest

end

end Toml

namespace Json

/-- A path is a text. -/
def asPath? (j : Json) : Option Path := j.asString?.map Path.mk

/-- A list of paths. -/
def asPaths? (j : Json) : Option (List Path) := j.asStrings?.map fun texts => texts.map Path.mk

def ofPath (path : Path) : Json := string path.text

def ofPaths (paths : List Path) : Json := array (paths.map ofPath)

end Json

/-! ## Lint settings -/

namespace LintConfig

def fieldNames : List String := ["deny", "warn", "allow", "max_line_length"]

/-- Lint settings from a record. -/
def ofJson? (j : Json) : Option LintConfig := do
  match ← j.closedRecord? fieldNames with
  | [deny, warn, allow, maxLineLength] =>
    some ⟨← Json.fieldOr standard.deny Json.asStrings? deny, ← Json.fieldOr standard.warn Json.asStrings? warn,
      ← Json.fieldOr standard.allow Json.asStrings? allow,
      ← Json.fieldOr standard.maxLineLength (Json.asNat? Json.maxUInt64) maxLineLength⟩
  | _ => none

/-- Reads lint settings; `origin` is the file that a fault names. -/
def ofText (text : String) (origin : Path) : Except ConfigFault LintConfig :=
  match (Toml.parse? text).bind fun entries => ofJson? (Toml.table entries).toJson with
  | some config => .ok config
  | none => .error (.notToml origin)

/-- Reads a file of lint settings. -/
def load (path : Path) (host : Host) : Except ConfigFault LintConfig :=
  match host.read? path with
  | some text => ofText text path
  | none => .error (.unreadable path)

end LintConfig

/-! ## Checker settings -/

/-- Which project is checked, and how findings are reported. -/
structure CheckerConfig where
  project : Path
  /-- The file of lint settings; nothing is linted without one. -/
  lint : Option Path
  /-- The numbers of diagnostics that are not reported. -/
  ignoreDiagnostics : List Nat
  /-- The lint rules whose failures are not reported. -/
  ignoreLints : List String
  /-- Whether every lint failure is an error. -/
  lintEmitErrors : Bool
  diagnosticFormat : DiagnosticFormat
  timings : Bool
  watch : Bool
deriving DecidableEq, Repr

namespace CheckerConfig

/-- What holds when nothing is set. -/
def standard : CheckerConfig := ⟨⟨"tsconfig.json"⟩, none, [], [], false, .basic, false, false⟩

instance : Inhabited CheckerConfig := ⟨standard⟩

/-- Takes the paths of the settings as seen from a directory. -/
def resolvePaths (c : CheckerConfig) (base : Path) : CheckerConfig :=
  { c with
    project := (base.join c.project).normalize
    lint := c.lint.map fun path => (base.join path).normalize }

def ignoresDiagnostic (c : CheckerConfig) (code : Nat) : Bool := c.ignoreDiagnostics.contains code

def ignoresLint (c : CheckerConfig) (rule : String) : Bool := c.ignoreLints.contains rule

def fieldNames : List String :=
  ["project", "lint", "ignore_diagnostics", "ignore_lints", "lint_emit_errors", "diagnostic_format",
   "timings", "watch"]

/-- The settings as a JSON object with every field. -/
def toJson (c : CheckerConfig) : Json :=
  .object
    [("project", .ofPath c.project),
     ("lint", (c.lint.map Json.ofPath).getD .null),
     ("ignore_diagnostics", .array (c.ignoreDiagnostics.map .natural)),
     ("ignore_lints", .array (c.ignoreLints.map .string)),
     ("lint_emit_errors", .bool c.lintEmitErrors),
     ("diagnostic_format", .string c.diagnosticFormat.name),
     ("timings", .bool c.timings),
     ("watch", .bool c.watch)]

/-- A list of numbers of 32 bits. -/
def codes? (j : Json) : Option (List Nat) := do
  (← j.asArray?).mapM (Json.asNat? Json.maxUInt32)

/-- Settings from a record. `format?` reads the name of a format. -/
def ofRecord? (format? : Json → Option DiagnosticFormat) (j : Json) : Option CheckerConfig := do
  match ← j.closedRecord? fieldNames with
  | [project, lint, ignoreDiagnostics, ignoreLints, lintEmitErrors, diagnosticFormat, timings, watch] =>
    some ⟨← Json.fieldOr standard.project Json.asPath? project,
      ← Json.fieldOr standard.lint (Json.nullable Json.asPath?) lint,
      ← Json.fieldOr standard.ignoreDiagnostics codes? ignoreDiagnostics,
      ← Json.fieldOr standard.ignoreLints Json.asStrings? ignoreLints,
      ← Json.fieldOr standard.lintEmitErrors Json.asBool? lintEmitErrors,
      ← Json.fieldOr standard.diagnosticFormat format? diagnosticFormat,
      ← Json.fieldOr standard.timings Json.asBool? timings,
      ← Json.fieldOr standard.watch Json.asBool? watch⟩
  | _ => none

/-- Settings from JSON. -/
def ofJson? (j : Json) : Option CheckerConfig :=
  ofRecord? (Json.choice? DiagnosticFormat.ofName?) j

/-- Settings from a JSON text. -/
def ofJsonText? (text : String) : Option CheckerConfig := (Json.parse text).toOption.bind ofJson?

/-- The name of a format in TOML, which has an empty table or array where JSON has `null`. -/
def formatInToml? : Json → Option DiagnosticFormat
  | .object [(name, .object [])] => DiagnosticFormat.ofName? name
  | .object [(name, .array [])] => DiagnosticFormat.ofName? name
  | .string name => DiagnosticFormat.ofName? name
  | _ => none

/-- Reads settings; `origin` is the file that a fault names. -/
def ofText (text : String) (origin : Path) : Except ConfigFault CheckerConfig :=
  match (Toml.parse? text).bind fun entries => ofRecord? formatInToml? (Toml.table entries).toJson with
  | some config => .ok config
  | none => .error (.notToml origin)

/-- Reads a file of settings, whose paths are seen from the directory of the file. -/
def load (path : Path) (host : Host) : Except ConfigFault CheckerConfig :=
  match host.read? path with
  | none => .error (.unreadable path)
  | some text => (ofText text path).map fun config => config.resolvePaths (path.parent?.getD ⟨"."⟩)

end CheckerConfig

end Recheck
