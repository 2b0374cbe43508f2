import Recheck.Lint.Basic

/-!
# The lint rules

Each rule is a function from a file of a program to findings, in the order in which they are reported.
-/

set_option autoImplicit false

namespace Recheck.Lint

open Syntax

/-! ## What each rule finds -/

/-- A variable that is introduced with `var`. Declarations may use it. -/
def varKeyword (unit : SourceUnit) : List Finding :=
  if unit.isTypeDefinition then []
  else (everyStatement unit.tree.statements).filterMap fun
    | .variableDecl d =>
      if d.kind = .var && !d.modifiers.declared then
        some ⟨"Forbidden 'var' keyword, use 'let' or 'const' instead", d.keywordSpan⟩
      else none
    | _ => none

/-- The type `any`, wherever a type is written. -/
def explicitAny (unit : SourceUnit) : List Finding :=
  (everyType unit.tree.statements).filterMap fun type =>
    match type.kind with
    | .keyword .any =>
      some ⟨"Type declaration of 'any' loses type-safety. Consider replacing it with a more precise type.",
        type.span⟩
    | _ => none

/-- The lines with more characters than the limit; `offset` is where the first of them begins. -/
def overlong (limit : Nat) : Nat → List (List Char) → List Finding
  | _, [] => []
  | offset, line :: rest =>
    let content := Chars.trimEnd Source.isLineEnd line
    let later := overlong limit (offset + Chars.byteLength line) rest
    if limit < content.length then
      ⟨"Exceeds maximum line length of " ++ toString limit,
        ⟨offset, offset + Chars.byteLength content⟩⟩ :: later
    else later

/-- A line that is too long. Line ends do not count. -/
def lineLength (unit : SourceUnit) (config : LintConfig) : List Finding :=
  overlong config.maxLineLength 0 unit.source.lines

/-- Whether a statement exports the default of its module. -/
def isDefaultExport : Statement → Bool
  | .exportDecl ⟨.default _, _⟩ => true
  | stmt => stmt.modifiers.isDefault

/-- A default export. -/
def defaultExport (unit : SourceUnit) : List Finding :=
  (unit.tree.statements.filter isDefaultExport).map fun stmt =>
    ⟨"Use of default exports is forbidden", stmt.span⟩

/-- What an import brings in: a file, or what no file was found for. -/
inductive Imported where
  | file (path : Path)
  | specifier (text : String)

namespace Imported

/-- Files are compared as paths. -/
def same : Imported → Imported → Bool
  | file a, file b => a == b
  | specifier a, specifier b => a = b
  | _, _ => false

instance : BEq Imported := ⟨same⟩

end Imported

/-- What an import of a file stands for, and whether it brings in types only. -/
def importKey (unit : SourceUnit) (program : Program) (d : ImportDecl) : Imported × Bool :=
  (match program.target? unit.path d.source.value with
    | some path => .file path
    | none => .specifier d.source.value, d.typeOnly)

/-- The imports whose key is among those seen before. -/
def repeated (key : ImportDecl → Imported × Bool) : List (Imported × Bool) → List ImportDecl → List ImportDecl
  | _, [] => []
  | seen, d :: rest =>
    if seen.contains (key d) then d :: repeated key seen rest else repeated key (key d :: seen) rest

/-- The imports at the top of a file. -/
def topLevelImports (unit : SourceUnit) : List ImportDecl :=
  unit.tree.statements.filterMap fun
    | .importDecl d => some d
    | _ => none

/-- A second import from the same module. An import of types may stand beside one of values. -/
def duplicateImports (unit : SourceUnit) (program : Program) : List Finding :=
  (repeated (importKey unit program) [] (topLevelImports unit)).map fun d =>
    ⟨"Multiple imports from '" ++ d.source.value ++ "' can be combined into one.", d.source.span⟩

/-! ## The rules as data -/

/-- A lint rule. -/
inductive Rule where
  | noVarKeyword
  | noExplicitAny
  | maxLineLength
  | noDefaultExport
  | noDuplicateImports
deriving DecidableEq, Repr

namespace Rule

/-- All rules, in the order in which they are run. -/
def all : List Rule := [noVarKeyword, noExplicitAny, maxLineLength, noDefaultExport, noDuplicateImports]

def name : Rule → String
  | noVarKeyword => "no-var-keyword"
  | noExplicitAny => "no-explicit-any"
  | maxLineLength => "max-line-length"
  | noDefaultExport => "no-default-export"
  | noDuplicateImports => "no-duplicate-imports"

def description : Rule → String
  | noVarKeyword => "disallows usage of the var keyword"
  | noExplicitAny => "disallows usages of any as a type declaration"
  | maxLineLength => "requires lines to be under a certain max length"
  | noDefaultExport => "disallows default exports in ES6-style modules"
  | noDuplicateImports => "disallows multiple import statements from the same module"

/-- The severity of a rule that a configuration does not mention. -/
def defaultSeverity : Rule → Severity
  | noVarKeyword => .error
  | noExplicitAny => .warning
  | maxLineLength => .warning
  | noDefaultExport => .warning
  | noDuplicateImports => .error

/-- What the rule finds in a file. -/
def findings (rule : Rule) (config : LintConfig) (program : Program) (unit : SourceUnit) : List Finding :=
  match rule with
  | noVarKeyword => varKeyword unit
  | noExplicitAny => explicitAny unit
  | maxLineLength => lineLength unit config
  | noDefaultExport => defaultExport unit
  | noDuplicateImports => duplicateImports unit program

theorem mem_all (rule : Rule) : rule ∈ all := by cases rule <;> decide

end Rule

end Recheck.Lint
