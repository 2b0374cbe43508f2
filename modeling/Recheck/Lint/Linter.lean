import Recheck.Lint.Rules

/-!
# Linting

Every rule that the configuration does not leave out is run on a file, in the order of `Rule.all`.
-/

set_option autoImplicit false

namespace Recheck.Lint

/-- The severity of a rule: what the configuration says, denials first, or the rule's own. -/
def severityOf (config : LintConfig) (rule : Rule) : Severity :=
  if config.deny.contains rule.name then .error
  else if config.warn.contains rule.name then .warning
  else rule.defaultSeverity

/-- The rules that are run. -/
def activeRules (config : LintConfig) : List Rule :=
  Rule.all.filter fun rule => !config.allow.contains rule.name

/-- A finding as a failure. -/
def Finding.toFailure (f : Finding) (config : LintConfig) (rule : Rule) (unit : SourceUnit) : Failure :=
  ⟨rule.name, severityOf config rule, f.message, unit.path, f.span, unit.source.lineCol f.span.start⟩

/-- The failures of a file of a program. -/
def failuresIn (config : LintConfig) (program : Program) (unit : SourceUnit) : List Failure :=
  (activeRules config).flatMap fun rule =>
    (rule.findings config program unit).map (·.toFailure config rule unit)

/-- The failures of the file at a path. A path that leads to no file of the program has none. -/
def failuresOf (config : LintConfig) (program : Program) (path : Path) : List Failure :=
  ((program.unit? path).map (failuresIn config program)).getD []

end Recheck.Lint
