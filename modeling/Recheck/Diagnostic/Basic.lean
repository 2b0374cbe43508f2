import Recheck.Text.Source

/-!
# Diagnostics

A diagnostic is a numbered message about a program, at a place in a file or about the program as a
whole. What went wrong is decided elsewhere; here it is already put into words.
-/

set_option autoImplicit false

namespace Recheck

/-- How serious a diagnostic is. -/
inductive Severity where
  | error
  | warning
  | suggestion
  | message
deriving DecidableEq, Repr, Inhabited

namespace Severity

def isError (s : Severity) : Bool := s = error

def isWarning (s : Severity) : Bool := s = warning

def name : Severity → String
  | error => "error"
  | warning => "warning"
  | suggestion => "suggestion"
  | message => "message"

def all : List Severity := [error, warning, suggestion, message]

/-- The severity of a name. -/
def ofName? (s : String) : Option Severity := all.find? (·.name = s)

theorem ofName?_name (s : Severity) : ofName? s.name = some s := by cases s <;> rfl

end Severity

/-- A message with its number. `file`, `span` and `position` say where it stands; a diagnostic about the
whole program has no file and no position. -/
structure Diagnostic where
  severity : Severity
  code : Nat
  message : String
  file : Option Path
  span : Span
  position : Option LineCol
  notes : List String
deriving DecidableEq, Repr, Inhabited

namespace Diagnostic

/-- A diagnostic without a place. -/
def ofMessage (severity : Severity) (code : Nat) (message : String) : Diagnostic :=
  ⟨severity, code, message, none, Span.empty, none, []⟩

/-- Places a diagnostic in a source text. -/
def locate (d : Diagnostic) (source : Source) (span : Span) : Diagnostic :=
  { d with file := some source.path, span := span, position := some (source.lineCol span.start) }

end Diagnostic

end Recheck
