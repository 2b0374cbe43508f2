import Recheck.Check.Expr

/-!
# Checking statements

Each statement is checked in the scope it stands in. A file is checked from top to bottom, and at the end
the imports that nothing referred to are reported.
-/

set_option autoImplicit false

namespace Recheck.Check

open Syntax

/-! ## Imports and exports -/

/-- What a specifier in a file leads to; it is a fault if it leads nowhere. -/
def checkSource (file : Path) (source : StringLiteral) : CheckM ModuleRef := do
  let ref := (← bindings).moduleRef file source.value
  if ref = .unresolved then report (.unknownModule source.value) source.span
  return ref

/-- Checks that a module exports a name, as a value or as a type. -/
def checkExported (ref : ModuleRef) (source : StringLiteral) (name : Ident) : CheckM Unit := do
  let b ← bindings
  if (b.exportedValue ref name.name).isMissing && (b.exportedType ref name.name).isMissing then
    report (.notExported source.value name.name) name.span

def checkImport (decl : ImportDecl) (file : Path) : CheckM Unit := do
  let ref ← checkSource file decl.source
  decl.named.forM fun s => checkExported ref decl.source s.imported

/-- Checks that a name in a list of exports stands for something. -/
def checkLocalExport (site : Site) (name : Ident) : CheckM Unit := do
  let value ← lookupValue site.scope name.name
  let type ← lookupType site.scope name.name
  if value.isNone && type.isNone then report (.unknownName name.name) name.span

/-- Whether an exported expression is the name of a type and of no value. -/
def isTypeName (expr : Expr) (site : Site) : CheckM Bool := do
  match expr.kind with
  | .ident name =>
    if (← lookupValue site.scope name).isNone then return (← lookupType site.scope name).isSome
    else return false
  | _ => return false

def checkExportedExpr (expr : Expr) (site : Site) : CheckM Unit := do
  unless ← isTypeName expr site do discard (exprType expr site none)

def checkExport (decl : ExportDecl) (site : Site) : CheckM Unit := do
  match decl.kind with
  | .named specifiers (some source) =>
    let ref ← checkSource site.file source
    specifiers.forM fun s => checkExported ref source s.localName
  | .named specifiers none => specifiers.forM fun s => checkLocalExport site s.localName
  | .star _ source => discard (checkSource site.file source)
  | .default expr => checkExportedExpr expr site
  | .assignment expr => checkExportedExpr expr site

/-! ## Declarations -/

def checkDeclarator (ambient : Bool) (site : Site) (decl : Declarator) : CheckM Unit := do
  let key : NodeKey := ⟨.declarator, site.file, decl.span.start⟩
  if (← bindings).isRedeclared site.scope key then report (.redeclared decl.name.name) decl.name.span
  let declared ← decl.type.mapM (typeMeaning · site)
  match decl.init with
  | some init => checkAgainst init declared site decl.name.span
  | none =>
    if declared.isNone && ambient && (← options).noImplicitAny then
      report (.untypedVariable decl.name.name) decl.name.span

def checkVariables (d : VariableStatement) (site : Site) : CheckM Unit := do
  let ambient := d.modifiers.declared || site.file.isTypeDefinition
  d.declarators.forM (checkDeclarator ambient site)

def checkFunction (decl : FunctionDecl) (site : Site) : CheckM Unit := do
  let inner ← functionDeclSite decl site
  checkParams decl.params false inner
  let declared ← decl.returnType.mapM (typeMeaning · inner)
  if let some body := decl.body then body.statements.forM (checkStatement · inner declared)

def checkInterface (decl : InterfaceDecl) (site : Site) : CheckM Unit := do
  let inner := typeParamSite .interface decl.span.start site decl.typeParams
  decl.bases.forM fun base => discard (typeMeaning base inner)
  decl.members.forM fun m => discard (m.type.mapM (typeMeaning · inner))

def checkAlias (decl : TypeAlias) (site : Site) : CheckM Unit :=
  discard (aliasType decl site)

def checkModule (decl : ModuleDecl) (site : Site) : CheckM Unit := do
  match decl.body with
  | some body =>
    let scope := (← bindings).moduleScope? site.scope ⟨.moduleDecl, site.file, decl.span.start⟩
    let inner : Site := { site with scope := scope.getD site.scope }
    body.forM (checkStatement · inner none)
  | none => return

/-! ## All statements -/

def statementRule (stmt : Statement) (site : Site) (result : Option Ty) : CheckM Unit := do
  match stmt with
  | .importDecl decl => checkImport decl site.file
  | .importEquals decl => discard (checkSource site.file decl.source)
  | .exportDecl decl => checkExport decl site
  | .variableDecl d => checkVariables d site
  | .function decl => checkFunction decl site
  | .interface decl => checkInterface decl site
  | .typeAlias decl => checkAlias decl site
  | .moduleDecl decl => checkModule decl site
  | .ifElse s =>
    discard (exprType s.condition site none)
    checkStatement s.thenBranch site result
    if let some stmt := s.elseBranch then checkStatement stmt site result
  | .block block =>
    let inner ← blockSite block site
    block.statements.forM (checkStatement · inner result)
  | .expression expr => discard (exprType expr site none)
  | .ret s =>
    if let some value := s.value then checkAgainst value result site value.span
  | .empty _ | .error _ => return

/-! ## Unused imports -/

/-- The names that a statement imports for this file alone. -/
def importedNames : Statement → List Ident
  | .importDecl decl => decl.localNames
  | .importEquals decl => if decl.exported then [] else [decl.name]
  | _ => []

/-- The imports of a file that were not used. -/
def unusedImports (file : Path) (statements : List Statement) (used : List NodeKey) : List Report :=
  ((statements.flatMap importedNames).filter fun name => !used.contains (importKey file name)).map
    fun name => ⟨.unused name.name, name.span⟩

end Recheck.Check
