import Recheck.Report.Item
import Recheck.Session.Cycle

/-!
# Reports

A report splits what a cycle found into errors and warnings. An item is a warning when its severity is
just that; suggestions and messages count as errors. Files in rendered messages are shown as seen from the
directory of the project.
-/

set_option autoImplicit false

namespace Recheck

/-- What a host receives for one cycle. Times are in milliseconds. -/
structure CycleReport where
  checkTime : Nat
  lintTime : Nat
  errors : List ReportItem
  warnings : List ReportItem
deriving DecidableEq, Repr

/-- How items are made. -/
structure ReportStyle where
  /-- The directory from which files are shown. -/
  context : Path
  format : DiagnosticFormat
  /-- Whether every lint failure is an error. -/
  lintEmitErrors : Bool
deriving DecidableEq, Repr

namespace ReportStyle

def ofConfig (c : CheckerConfig) : ReportStyle :=
  ⟨c.project.parent?.getD ⟨""⟩, c.diagnosticFormat, c.lintEmitErrors⟩

/-- A diagnostic as an item. Its file is shown as seen from the context if it lies there; the program
supplies the source line of a frame. -/
def diagnosticItem (style : ReportStyle) (program? : Option Program) (d : Diagnostic) : ReportItem :=
  let unit? : Option SourceUnit := do (← program?).unit? (← d.file)
  let shown : Diagnostic :=
    { d with file := d.file.map fun file => (file.relativeTo? style.context).getD file }
  .diagnostic ⟨d.message, shown.render style.format (unit?.map (·.source)), d.code, d.severity, d.file,
    d.position.map (·.line), d.position.map (·.character)⟩

def lintItem (style : ReportStyle) (f : Lint.Failure) : ReportItem :=
  .lint ⟨f.message, f.rule, if style.lintEmitErrors then .error else f.severity, f.file, f.position.line,
    f.position.character⟩

/-- All items, diagnostics first. -/
def items (style : ReportStyle) (diagnostics : List Diagnostic) (failures : List Lint.Failure)
    (program? : Option Program) : List ReportItem :=
  diagnostics.map (style.diagnosticItem program?) ++ failures.map style.lintItem

end ReportStyle

namespace CycleResult

/-- The result without what a configuration ignores. -/
def applyIgnores (r : CycleResult) (c : CheckerConfig) : CycleResult :=
  { r with
    diagnostics := r.diagnostics.filter fun d => !c.ignoresDiagnostic d.code
    lintFailures := r.lintFailures.filter fun f => !c.ignoresLint f.rule }

end CycleResult

namespace CycleReport

/-- Splits items into errors and warnings. -/
def ofItems (items : List ReportItem) : CycleReport :=
  ⟨0, 0, items.filter (!·.isWarning), items.filter (·.isWarning)⟩

/-- The report of a cycle. No time is measured here. -/
def ofCycle (r : CycleResult) (style : ReportStyle) (program? : Option Program) : CycleReport :=
  ofItems (style.items r.diagnostics r.lintFailures program?)

def hasErrors (r : CycleReport) : Bool := !r.errors.isEmpty

/-- Errors, then warnings, as they are shown. -/
def texts (r : CycleReport) : List String := (r.errors ++ r.warnings).map (·.text)

/-! ## JSON -/

def members (r : CycleReport) : List (String × Json) :=
  [("checkTime", .natural r.checkTime), ("lintTime", .natural r.lintTime),
   ("errors", .array (r.errors.map (·.toJson))), ("warnings", .array (r.warnings.map (·.toJson)))]

def toJson (r : CycleReport) : Json := .object r.members

def items? (j : Json) : Option (List ReportItem) := do
  (← j.asArray?).mapM ReportItem.ofJson?

def ofJson? (j : Json) : Option CycleReport := do
  match ← j.record? ["checkTime", "lintTime", "errors", "warnings"] with
  | [checkTime, lintTime, errors, warnings] =>
    some ⟨← Json.field? (Json.asNat? Json.maxUInt64) checkTime,
      ← Json.field? (Json.asNat? Json.maxUInt64) lintTime, ← Json.field? items? errors,
      ← Json.field? items? warnings⟩
  | _ => none

end CycleReport

end Recheck
