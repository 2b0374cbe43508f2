import Recheck.Config.Checker

/-!
# Report items

What a cycle finds is reported as items: a diagnostic with its rendered form, or a lint failure. Items
travel as JSON; a tag tells which of the two an item is.
-/

set_option autoImplicit false

namespace Recheck

/-- A diagnostic, ready to be reported. -/
structure DiagnosticItem where
  message : String
  /-- The message in the form that was asked for. -/
  formatted : String
  code : Nat
  severity : Severity
  file : Option Path
  line : Option Nat
  character : Option Nat
deriving DecidableEq, Repr

/-- A lint failure, ready to be reported. -/
structure LintItem where
  message : String
  rule : String
  severity : Severity
  file : Path
  line : Nat
  character : Nat
deriving DecidableEq, Repr

/-- One finding of a report. -/
inductive ReportItem where
  | diagnostic (item : DiagnosticItem)
  | lint (item : LintItem)
deriving DecidableEq, Repr

namespace ReportItem

def message : ReportItem → String
  | diagnostic d => d.message
  | lint l => l.message

def severity : ReportItem → Severity
  | diagnostic d => d.severity
  | lint l => l.severity

def file? : ReportItem → Option Path
  | diagnostic d => d.file
  | lint l => some l.file

def isWarning (i : ReportItem) : Bool := i.severity.isWarning

def isLint : ReportItem → Bool
  | diagnostic _ => false
  | lint _ => true

/-- The item as it is shown. -/
def text : ReportItem → String
  | diagnostic d => d.formatted
  | lint l =>
    l.file.text ++ "(" ++ toString l.line ++ "," ++ toString l.character ++ "): " ++ l.severity.name ++ " " ++
      l.rule ++ ": " ++ l.message

/-! ## JSON -/

def diagnosticTag : String := "DiagnosticError"

def lintTag : String := "LintError"

/-- The item as an object. What a diagnostic does not know is left out. -/
def toJson : ReportItem → Json
  | diagnostic d => .ofMembers
    [("name", some (.string diagnosticTag)), ("message", some (.string d.message)),
     ("formatted", some (.string d.formatted)), ("code", some (.natural d.code)),
     ("severity", some (.string d.severity.name)), ("file", d.file.map .ofPath),
     ("line", d.line.map .natural), ("character", d.character.map .natural)]
  | lint l => .object
    [("name", .string lintTag), ("message", .string l.message), ("rule", .string l.rule),
     ("severity", .string l.severity.name), ("file", .ofPath l.file), ("line", .natural l.line),
     ("character", .natural l.character)]

def severity? (j : Json) : Option Severity := j.choiceWithin? Severity.ofName?

def number? (j : Json) : Option Nat := j.asNat? Json.maxUInt32

def diagnosticOfJson? (j : Json) : Option DiagnosticItem := do
  match ← j.record? ["message", "formatted", "code", "severity", "file", "line", "character"] with
  | [message, formatted, code, severity, file, line, character] =>
    some ⟨← Json.field? Json.asString? message, ← Json.field? Json.asString? formatted,
      ← Json.field? number? code, ← Json.field? severity? severity, ← Json.optional Json.asPath? file,
      ← Json.optional number? line, ← Json.optional number? character⟩
  | _ => none

def lintOfJson? (j : Json) : Option LintItem := do
  match ← j.record? ["message", "rule", "severity", "file", "line", "character"] with
  | [message, rule, severity, file, line, character] =>
    some ⟨← Json.field? Json.asString? message, ← Json.field? Json.asString? rule,
      ← Json.field? severity? severity, ← Json.field? Json.asPath? file, ← Json.field? number? line,
      ← Json.field? number? character⟩
  | _ => none

/-- Reads an item. Its tag is the name of the variant, or the place of the variant among the two. -/
def ofJson? (j : Json) : Option ReportItem := do
  let (name, content) ← j.tagged? "name"
  match name with
  | .string tag =>
    if tag = diagnosticTag then (diagnosticOfJson? content).map diagnostic
    else if tag = lintTag then (lintOfJson? content).map lint
    else none
  | .natural 0 => (diagnosticOfJson? content).map diagnostic
  | .natural 1 => (lintOfJson? content).map lint
  | _ => none

end ReportItem

end Recheck
