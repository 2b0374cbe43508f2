import Recheck.Check.Builtins
import Recheck.Program.Basic

/-!
# Scopes and what they bind

All files of a program share one table of scopes. Scripts bind into the global scope, every module into
one of its own, whose exports others can see. A body of a function or block has a table of its own, which
follows from the body alone, unless the body says something about other modules: then it is bound when it
is first looked into, with the imports it holds taken to stand in the file that looked.
-/

set_option autoImplicit false

namespace Recheck.Check

open Syntax

/-! ## The tables -/

/-- What a module offers to others. `stars` are the modules that it passes on, each with the file that
names it. -/
structure Exports where
  values : Dict String ValueSymbol
  types : Dict String TypeSymbol
  stars : List (Path × String)
  assigned : Option (Expr × Site)

def Exports.none : Exports := ⟨.empty, .empty, [], .none⟩

/-- The names of one scope, and what it exports. Interfaces of one name are one type with several
declarations, each with its file. -/
structure Scope where
  parent : Option ScopeId
  values : Dict String ValueSymbol
  types : Dict String TypeSymbol
  interfaces : Dict String (List (InterfaceDecl × Path))
  exports : Exports

namespace Scope

def inside (parent : Option ScopeId) : Scope := ⟨parent, .empty, .empty, .empty, Exports.none⟩

instance : Inhabited Scope := ⟨inside none⟩

end Scope

/-- Some scopes by their index, those of the modules declared in them, and the variables that clash. -/
structure Table where
  scopes : Array Scope
  moduleScopes : Dict NodeKey ScopeId
  redeclared : List NodeKey

namespace Table

def empty : Table := ⟨#[], .empty, []⟩

instance : Inhabited Table := ⟨empty⟩

/-- The table of a body before anything is bound in it. -/
def inside (parent : ScopeId) : Table := { empty with scopes := #[Scope.inside (some parent)] }

end Table

/-- The scopes of a program as far as they have been looked into. `bodies` holds the tables of bodies
under their outermost scopes, and `opened` those of them that had to be bound for good. -/
structure Bindings where
  program : Program
  main : Table
  bodies : Dict ScopeId Table
  opened : List ScopeId
  fileScopes : Dict Path ScopeId
  modules : Dict Path ScopeId
  ambientModules : List (String × ModuleRef)

/-- The scope of the names that need no declaration. -/
def libScope : ScopeId := .main 0

/-- The scope that all scripts share. -/
def globalScope : ScopeId := .main 1

namespace Bindings

/-- The table that holds a scope, as far as it is bound. -/
def tableOf (b : Bindings) : ScopeId → Table
  | .main _ => b.main
  | .inner body parent _ => (b.bodies.get? (.inner body parent 0)).getD Table.empty

def modifyTable (b : Bindings) (id : ScopeId) (f : Table → Table) : Bindings :=
  match id with
  | .main _ => { b with main := f b.main }
  | .inner body parent _ => { b with bodies := b.bodies.update (.inner body parent 0) f }

def modifyScope (b : Bindings) (id : ScopeId) (f : Scope → Scope) : Bindings :=
  b.modifyTable id fun t => { t with scopes := t.scopes.modify id.index f }

def modifyExports (b : Bindings) (id : ScopeId) (f : Exports → Exports) : Bindings :=
  b.modifyScope id fun s => { s with exports := f s.exports }

/-- Adds a scope inside another one. -/
def newScope (b : Bindings) (parent : ScopeId) : ScopeId × Bindings :=
  (parent.beside (b.tableOf parent).scopes.size,
    b.modifyTable parent fun t => { t with scopes := t.scopes.push (Scope.inside (some parent)) })

/-- Notes the scope of a module that is declared in a scope. -/
def setModuleScope (b : Bindings) (around : ScopeId) (key : NodeKey) (scope : ScopeId) : Bindings :=
  b.modifyTable around fun t => { t with moduleScopes := t.moduleScopes.insert key scope }

def putValue (b : Bindings) (scope : ScopeId) (name : String) (symbol : ValueSymbol) : Bindings :=
  b.modifyScope scope fun s => { s with values := s.values.insert name symbol }

def putType (b : Bindings) (scope : ScopeId) (name : String) (symbol : TypeSymbol) : Bindings :=
  b.modifyScope scope fun s => { s with types := s.types.insert name symbol }

def valueIn? (b : Bindings) (scope : ScopeId) (name : String) : Option ValueSymbol :=
  (b.tableOf scope).scopes[scope.index]?.bind fun s => s.values.get? name

def typeIn? (b : Bindings) (scope : ScopeId) (name : String) : Option TypeSymbol :=
  (b.tableOf scope).scopes[scope.index]?.bind fun s => s.types.get? name

/-! ## Declaring -/

/-- The identity of a variable, and whether its block holds only one of its name. -/
def blockScoped? : ValueSymbol → Option (NodeKey × Bool)
  | .declarator decl kind site => some (⟨.declarator, site.file, decl.span.start⟩, kind ≠ .var)
  | _ => none

/-- Binds a value, unless the name is taken. Two variables of one name clash if either is block scoped. -/
def declareValue (b : Bindings) (scope : ScopeId) (name : String) (symbol : ValueSymbol) : Bindings :=
  match b.valueIn? scope name with
  | none => b.putValue scope name symbol
  | some existing =>
    match blockScoped? existing, blockScoped? symbol with
    | some (k, kBlock), some (l, lBlock) =>
      if kBlock || lBlock then
        b.modifyTable scope fun t => { t with redeclared := l :: k :: t.redeclared }
      else b
    | _, _ => b

/-- Binds an imported name, as a value and as a type, whatever the name stood for. -/
def declareImport (b : Bindings) (scope : ScopeId) (binding : ImportBinding) : Bindings :=
  match binding.localName with
  | some name => (b.putValue scope name.name (.imported binding)).putType scope name.name (.imported binding)
  | none => b

/-- Adds a declaration to the interface of its name. -/
def declareInterface (b : Bindings) (site : Site) (decl : InterfaceDecl) : Bindings :=
  let name := decl.name.name
  b.modifyScope site.scope fun s =>
    { s with
      interfaces := s.interfaces.insert name (((s.interfaces.get? name).getD []) ++ [(decl, site.file)])
      types := s.types.insertNew name (.interface name site.scope) }

/-- Exports a value; the first export of a name stays. -/
def exportValue (b : Bindings) (container : Option ScopeId) (name : String) (symbol : ValueSymbol) :
    Bindings :=
  match container with
  | some c => b.modifyExports c fun e => { e with values := e.values.insertNew name symbol }
  | none => b

/-- Exports a type; the first export of a name stays. -/
def exportType (b : Bindings) (container : Option ScopeId) (name : String) (symbol : TypeSymbol) :
    Bindings :=
  match container with
  | some c => b.modifyExports c fun e => { e with types := e.types.insertNew name symbol }
  | none => b

/-- Exports what an import binds. -/
def exportImport (b : Bindings) (container : Option ScopeId) (name : String)
    (binding : ImportBinding) : Bindings :=
  (b.exportValue container name (.imported binding)).exportType container name (.imported binding)

/-- The scope of a namespace, which is opened if there is none of this name. -/
def namespaceScope (b : Bindings) (scope : ScopeId) (name : String) : ScopeId × Bindings :=
  match b.valueIn? scope name with
  | some (.ofModule (.container inner)) => (inner, b)
  | _ =>
    let (inner, b) := b.newScope scope
    let ref := ModuleRef.container inner
    (inner, (b.putValue scope name (.ofModule ref)).putType scope name (.ofModule ref))

/-! ## Binding statements -/

/-- Where statements are bound: the scope, the scope that they export from, if they do, the file they are
written in, the file their imports are taken to stand in, and whether everything is exported without
saying so. -/
structure Place where
  scope : ScopeId
  container : Option ScopeId
  home : Path
  importer : Path
  implicitExport : Bool

namespace Place

def site (p : Place) : Site := ⟨p.home, p.scope⟩

/-- An import of this place. -/
def binding (p : Place) (specifier : String) (name : ImportName) (localName : Option Ident) :
    ImportBinding :=
  ⟨p.importer, specifier, name, localName, p.home⟩

end Place

def bindDeclarators (p : Place) (kind : VariableKind) (exported : Bool) (decls : List Declarator)
    (b : Bindings) : Bindings :=
  decls.foldl (fun b decl =>
    let symbol := ValueSymbol.declarator decl kind p.site
    let b := b.declareValue p.scope decl.name.name symbol
    if exported then b.exportValue p.container decl.name.name symbol else b) b

def bindFunction (p : Place) (exported : Bool) (decl : FunctionDecl) (b : Bindings) : Bindings :=
  let symbol := ValueSymbol.function decl p.site
  let b := match decl.name with
    | some name =>
      let b := b.declareValue p.scope name.name symbol
      if exported && !decl.modifiers.isDefault then b.exportValue p.container name.name symbol else b
    | none => b
  if decl.modifiers.isDefault then b.exportValue p.container "default" symbol else b

def bindInterface (p : Place) (exported : Bool) (decl : InterfaceDecl) (b : Bindings) : Bindings :=
  let symbol := TypeSymbol.interface decl.name.name p.scope
  let b := b.declareInterface p.site decl
  if decl.modifiers.isDefault then b.exportType p.container "default" symbol
  else if exported then b.exportType p.container decl.name.name symbol
  else b

def bindAlias (p : Place) (exported : Bool) (decl : TypeAlias) (b : Bindings) : Bindings :=
  let symbol := TypeSymbol.typeAlias decl p.site
  let b := b.putType p.scope decl.name.name symbol
  if exported then b.exportType p.container decl.name.name symbol else b

def bindImport (p : Place) (decl : ImportDecl) (b : Bindings) : Bindings :=
  let bind (name : ImportName) (localName : Ident) : ImportBinding :=
    p.binding decl.source.value name (some localName)
  let bindings := decl.default.toList.map (bind .default) ++ decl.star.toList.map (bind .whole) ++
    decl.named.map fun s => bind (.named s.imported.name) s.localName
  bindings.foldl (·.declareImport p.scope ·) b

def bindImportEquals (p : Place) (decl : ImportEquals) (b : Bindings) : Bindings :=
  let binding := p.binding decl.source.value .equals (some decl.name)
  let b := b.declareImport p.scope binding
  if decl.exported then b.exportImport p.container decl.name.name binding else b

/-- Exports of other modules, default exports and assigned exports. Lists of local names come last. -/
def bindExport (p : Place) (decl : ExportDecl) (b : Bindings) : Bindings :=
  match decl.kind with
  | .named _ none => b
  | .named specifiers (some source) =>
    specifiers.foldl (fun b s =>
      b.exportImport p.container s.exportedName.name
        (p.binding source.value (.named s.localName.name) none)) b
  | .star none source =>
    match p.container with
    | some c => b.modifyExports c fun e => { e with stars := e.stars ++ [(p.importer, source.value)] }
    | none => b
  | .star (some newName) source =>
    b.exportImport p.container newName.name (p.binding source.value .whole none)
  | .default expr => b.exportValue p.container "default" (.expr expr p.site)
  | .assignment expr =>
    match p.container with
    | some c => b.modifyExports c fun e => { e with assigned := some (expr, p.site) }
    | none => b

/-- Exports a bound name, as far as the scope itself binds it. -/
def exportLocal (p : Place) (name exportedName : String) (b : Bindings) : Bindings :=
  let b := match b.valueIn? p.scope name with
    | some symbol => b.exportValue p.container exportedName symbol
    | none => b
  match b.typeIn? p.scope name with
  | some symbol => b.exportType p.container exportedName symbol
  | none => b

/-- The lists of local exports among some statements. -/
def localExports (statements : List Statement) : List ExportSpecifier :=
  statements.flatMap fun
    | .exportDecl ⟨.named specifiers none, _⟩ => specifiers
    | _ => []

/-- The name that is exported as the default; the last one counts. -/
def defaultName? (statements : List Statement) : Option String :=
  (statements.filterMap fun
    | .exportDecl ⟨.default ⟨.ident name, _⟩, _⟩ => some name
    | _ => none).getLast?

/-- Exports that may name declarations behind them. -/
def bindLocalExports (p : Place) (statements : List Statement) (b : Bindings) : Bindings :=
  let b := (localExports statements).foldl (fun b s =>
    exportLocal p s.localName.name s.exportedName.name b) b
  match defaultName? statements with
  | none => b
  | some name =>
    match b.typeIn? p.scope name with
    | some symbol => b.exportType p.container "default" symbol
    | none => b

/-- The parts of a dotted name. -/
def nameParts (name : String) : List String :=
  let rec split : List Char → List (List Char)
    | [] => [[]]
    | c :: cs =>
      match split cs with
      | part :: rest => if c = '.' then [] :: part :: rest else (c :: part) :: rest
      | [] => [[c]]
  (split name.toList).map String.ofList

/-- Opens the namespaces of a dotted name, each inside the one before, and answers the place inside the
innermost. All but the outermost are exported. -/
def openNamespaces (p : Place) (exported : Bool) : List String → Bindings → Place × Bindings
  | [], b => (p, b)
  | part :: rest, b =>
    let (inner, b) := b.namespaceScope p.scope part
    let ref := ModuleRef.container inner
    let b := if exported then
        (b.exportValue p.container part (.ofModule ref)).exportType p.container part (.ofModule ref)
      else b
    openNamespaces { p with scope := inner, container := some inner } true rest b

/-- Opens the place of a module's body. -/
def openModule (p : Place) (key : NodeKey) (exported ambient : Bool) (name : ModuleName)
    (b : Bindings) : Place × Bindings :=
  match name with
  | .global _ =>
    ({ p with scope := globalScope, container := none, implicitExport := false },
      b.setModuleScope p.scope key globalScope)
  | .ambient _ =>
    let (inner, b) := b.newScope p.scope
    ({ p with scope := inner, container := some inner, implicitExport := true },
      b.setModuleScope p.scope key inner)
  | .named name =>
    let (place, b) := openNamespaces p exported (nameParts name.name) b
    ({ place with implicitExport := ambient }, b.setModuleScope p.scope key place.scope)

/-- Makes a declared module known under its name. -/
def addAmbient (name : ModuleName) (ref : ModuleRef) (b : Bindings) : Bindings :=
  match name with
  | .ambient specifier => { b with ambientModules := b.ambientModules ++ [(specifier.value, ref)] }
  | _ => b

/-- A module declaration without a body. -/
def bindBodiless (p : Place) (exported : Bool) (name : ModuleName) (b : Bindings) : Bindings :=
  match name with
  | .global _ => b
  | .ambient _ => addAmbient name .untyped b
  | .named name => (openNamespaces p exported (nameParts name.name) b).2

mutual

def bindStatement (p : Place) : Statement → Bindings → Bindings
  | .variableDecl d, b => bindDeclarators p d.kind (d.modifiers.exported || p.implicitExport) d.declarators b
  | .function d, b => bindFunction p (d.modifiers.exported || p.implicitExport) d b
  | .interface d, b => bindInterface p (d.modifiers.exported || p.implicitExport) d b
  | .typeAlias d, b => bindAlias p (d.modifiers.exported || p.implicitExport) d b
  | .importDecl d, b => bindImport p d b
  | .importEquals d, b => bindImportEquals p d b
  | .exportDecl d, b => bindExport p d b
  | .moduleDecl ⟨modifiers, name, some body, span⟩, b =>
    let exported := modifiers.exported || p.implicitExport
    let ambient := p.implicitExport || modifiers.declared
    let (place, b) := openModule p ⟨.moduleDecl, p.home, span.start⟩ exported ambient name b
    let b := bindLocalExports place body (bindEach place body b)
    addAmbient name ((place.container.map .container).getD .untyped) b
  | .moduleDecl ⟨modifiers, name, none, _⟩, b =>
    bindBodiless p (modifiers.exported || p.implicitExport) name b
  | _, b => b

def bindEach (p : Place) : List Statement → Bindings → Bindings
  | [], b => b
  | s :: rest, b => bindEach p rest (bindStatement p s b)

end

/-- Binds the statements of a body. -/
def bindBody (p : Place) (statements : List Statement) (b : Bindings) : Bindings :=
  bindLocalExports p statements (bindEach p statements b)

/-! ## Whole programs -/

/-- Gives a file its scope: its own if it is a module, else the global one. -/
def openFile (b : Bindings) (unit : SourceUnit) : Bindings :=
  if unit.isModule then
    let (scope, b) := b.newScope globalScope
    { b with
      fileScopes := b.fileScopes.insert unit.path scope
      modules := b.modules.insert unit.path scope }
  else { b with fileScopes := b.fileScopes.insert unit.path globalScope }

def bindFile (b : Bindings) (unit : SourceUnit) : Bindings :=
  let scope := (b.fileScopes.get? unit.path).getD globalScope
  bindBody ⟨scope, b.modules.get? unit.path, unit.path, unit.path, false⟩ unit.tree.statements b

/-- The outermost scopes. -/
def start (program : Program) : Bindings where
  program := program
  main := { Table.empty with
    scopes := #[{ Scope.inside none with values := builtinValues, types := builtinTypes },
      Scope.inside (some libScope)] }
  bodies := .empty
  opened := []
  fileScopes := .empty
  modules := .empty
  ambientModules := []

/-- Binds all files of a program, without looking into functions and blocks. -/
def ofProgram (program : Program) : Bindings :=
  program.units.foldl bindFile (program.units.foldl openFile (start program))

/-! ## Bodies -/

def bindTypeParams (scope : ScopeId) (names : List Ident) (b : Bindings) : Bindings :=
  names.foldl (fun b name => b.putType scope name.name .typeParam) b

def bindParams (site : Site) (params : List Param) (b : Bindings) : Bindings :=
  params.foldl (fun b p => b.putValue site.scope p.name.name (.param p site)) b

/-- Binds a body, whose imports are taken to stand in `importer`. -/
def bindInner (body : Body) (parent : ScopeId) (importer : Path) (b : Bindings) : Bindings :=
  let scope := ScopeId.inner body parent 0
  let b := { b with bodies := b.bodies.insert scope (Table.inside parent) }
  let b := bindParams ⟨body.key.file, scope⟩ body.params (bindTypeParams scope body.typeParams b)
  bindBody ⟨scope, none, body.key.file, importer, false⟩ body.statements b

/-- Binds a body for good, on the first look. -/
def openBody (body : Body) (parent : ScopeId) (importer : Path) (b : Bindings) : Bindings :=
  let scope := ScopeId.inner body parent 0
  if b.opened.contains scope then b
  else { bindInner body parent importer b with opened := scope :: b.opened }

end Bindings

/-- The table of a body that says nothing about other modules. -/
def Table.ofBody (body : Body) (parent : ScopeId) : Table :=
  (Bindings.bindInner body parent body.key.file (Bindings.start default)).tableOf (.inner body parent 0)

mutual

/-- Whether a statement of a body says something about other modules or the scope that all files share. -/
def reachesOut : Statement → Bool
  | .importDecl _ => true
  | .importEquals _ => true
  | .exportDecl ⟨.named _ source, _⟩ => source.isSome
  | .exportDecl ⟨.star _ _, _⟩ => true
  | .moduleDecl ⟨_, .named _, some body, _⟩ => anyReachesOut body
  | .moduleDecl ⟨_, .named _, none, _⟩ => false
  | .moduleDecl _ => true
  | _ => false

def anyReachesOut : List Statement → Bool
  | [] => false
  | s :: rest => reachesOut s || anyReachesOut rest

end

/-- Whether the table of a body follows from the body alone. -/
def Body.isPlain (body : Body) : Bool := !anyReachesOut body.statements

end Recheck.Check
