import Recheck.Program.Basic

/-!
# Lint findings

A lint rule looks at one file and answers findings: a message and a span. The linter turns a finding
into a `Lint.Failure`, which says which rule found it, how serious it is and where it stands.
-/

set_option autoImplicit false

namespace Recheck

/-- Which rules are raised, lowered or left out, and the limits that rules have. -/
structure LintConfig where
  deny : List String
  warn : List String
  allow : List String
  maxLineLength : Nat
deriving DecidableEq, Repr

namespace LintConfig

/-- All rules at their own severity. -/
def standard : LintConfig := ⟨[], [], [], 120⟩

instance : Inhabited LintConfig := ⟨standard⟩

end LintConfig

namespace Lint

/-- What a rule found. -/
structure Finding where
  message : String
  span : Span
deriving DecidableEq, Repr

/-- A finding of a rule in a file. -/
structure Failure where
  rule : String
  severity : Severity
  message : String
  file : Path
  span : Span
  position : LineCol
deriving DecidableEq, Repr, Inhabited

namespace Failure

/-- The form `file:line:character rule: message`. -/
def text (f : Failure) : String :=
  f.file.text ++ ":" ++ toString f.position.line ++ ":" ++ toString f.position.character ++ " " ++
    f.rule ++ ": " ++ f.message

end Failure

end Lint

end Recheck
