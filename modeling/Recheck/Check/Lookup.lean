import Recheck.Check.Bindings

/-!
# Looking names up

A name is looked up from its scope outwards, and through imports in what other modules export.
-/

set_option autoImplicit false

namespace Recheck.Check

open Syntax

namespace Bindings

/-! ## In scopes -/

/-- The table that holds a scope. -/
def tableAt (b : Bindings) (id : ScopeId) : Table :=
  match id with
  | .main _ => b.main
  | .inner body parent _ => if body.isPlain then Table.ofBody body parent else b.tableOf id

def scopeAt? (b : Bindings) (id : ScopeId) : Option Scope := (b.tableAt id).scopes[id.index]?

/-- The scope of a module that is declared in a scope. -/
def moduleScope? (b : Bindings) (around : ScopeId) (key : NodeKey) : Option ScopeId :=
  (b.tableAt around).moduleScopes.get? key

/-- Whether a variable of a scope clashes with another one there. -/
def isRedeclared (b : Bindings) (scope : ScopeId) (key : NodeKey) : Bool :=
  (b.tableAt scope).redeclared.contains key

/-- Looks a name up from a scope outwards, at most `n` scopes. -/
def findOutwards {α : Type} (b : Bindings) (get : Scope → Option α) : Nat → ScopeId → Option α
  | 0, _ => none
  | n + 1, id =>
    match b.scopeAt? id with
    | none => none
    | some scope =>
      match get scope, scope.parent with
      | some symbol, _ => some symbol
      | none, some parent => findOutwards b get n parent
      | none, none => none

def lookupValue (b : Bindings) (scope : ScopeId) (name : String) : Option ValueSymbol :=
  b.findOutwards (·.values.get? name) (scope.depth + b.main.scopes.size) scope

def lookupType (b : Bindings) (scope : ScopeId) (name : String) : Option TypeSymbol :=
  b.findOutwards (·.types.get? name) (scope.depth + b.main.scopes.size) scope

/-- The declarations of an interface. -/
def interfaceDecls (b : Bindings) (scope : ScopeId) (name : String) : List (InterfaceDecl × Path) :=
  ((b.scopeAt? scope).bind fun s => s.interfaces.get? name).getD []

/-! ## In modules -/

/-- The later of two patterns when it is no shorter. -/
def moreSpecific (best : Option (String × ModuleRef)) (next : String × ModuleRef) :
    Option (String × ModuleRef) :=
  match best with
  | some b => if next.1.utf8ByteSize < b.1.utf8ByteSize then some b else some next
  | none => some next

/-- The declared module that covers a specifier: the one of this name, else the longest pattern. -/
def ambientModule? (b : Bindings) (specifier : String) : Option ModuleRef :=
  match b.ambientModules.find? (·.1 = specifier) with
  | some (_, ref) => some ref
  | none =>
    ((b.ambientModules.filter fun (name, _) =>
      name.toList.contains '*' && Resolve.ambientMatches name specifier).foldl moreSpecific none).map (·.2)

/-- What a specifier in a file leads to. A file comes before a declared module. -/
def moduleRef (b : Bindings) (importer : Path) (specifier : String) : ModuleRef :=
  match b.program.target? importer specifier with
  | some target =>
    match b.modules.get? target with
    | some scope => .container scope
    | none => if b.fileScopes.contains target then .untyped else .unresolved
  | none => (b.ambientModule? specifier).getD .unresolved

/-- The first answer of a lookup in some modules, asked in order. The modules seen are passed along. -/
def firstAnswer {α : Type} (look : ModuleRef → List ScopeId → Lookup α × List ScopeId) :
    List ModuleRef → List ScopeId → Lookup α × List ScopeId
  | [], seen => (.missing, seen)
  | ref :: rest, seen =>
    match look ref seen with
    | (.missing, seen) => firstAnswer look rest seen
    | answer => answer

/-- How many scopes have been bound. -/
def size (b : Bindings) : Nat :=
  (b.bodies.values.map (·.scopes.size)).foldl (· + ·) b.main.scopes.size

/-- Looks an export up, then in the modules that are passed on if those are to be followed, depth first
and each module once, at most `n` deep. Answers the modules seen as well. -/
def exportLookup {α : Type} (b : Bindings) (get : Exports → Option α) (follow : Bool) :
    Nat → ModuleRef → List ScopeId → Lookup α × List ScopeId
  | 0, _, seen => (.missing, seen)
  | n + 1, .container c, seen =>
    if seen.contains c then (.missing, seen)
    else
      let exports := ((b.scopeAt? c).map (·.exports)).getD Exports.none
      match get exports with
      | some symbol => (.found symbol, c :: seen)
      | none =>
        let stars := if follow then exports.stars.map fun (importer, s) => b.moduleRef importer s else []
        match firstAnswer (exportLookup b get follow n) stars (c :: seen) with
        | (.missing, seen) => (if exports.assigned.isSome then .unknown else .missing, seen)
        | answer => answer
  | _ + 1, _, seen => (.unknown, seen)

/-- The value that a module exports under a name. A default is never passed on. -/
def exportedValue (b : Bindings) (ref : ModuleRef) (name : String) : Lookup ValueSymbol :=
  (exportLookup b (·.values.get? name) (name ≠ "default") (b.size + 1) ref []).1

/-- The type that a module exports under a name. -/
def exportedType (b : Bindings) (ref : ModuleRef) (name : String) : Lookup TypeSymbol :=
  (exportLookup b (·.types.get? name) (name ≠ "default") (b.size + 1) ref []).1

/-- What a module assigns to its exports. -/
def assigned? (b : Bindings) (ref : ModuleRef) : Option (Expr × Site) :=
  match ref with
  | .container scope => (b.scopeAt? scope).bind (·.exports.assigned)
  | _ => none

/-- How many imports of imports are followed. -/
def aliasDepth : Nat := 16

/-- Follows imports of values to a declaration, at most `n` times. -/
def resolveValue (b : Bindings) : Nat → ValueSymbol → Option ValueSymbol
  | 0, _ => none
  | n + 1, .imported binding =>
    let ref := b.moduleRef binding.importer binding.specifier
    match binding.name with
    | .named name => (b.exportedValue ref name).toOption.bind (resolveValue b n)
    | .default =>
      match b.exportedValue ref "default", b.assigned? ref with
      | .found symbol, _ => resolveValue b n symbol
      | _, some (expr, site) => resolveValue b n (.expr expr site)
      | _, none => none
    | .whole => some (.ofModule ref)
    | .equals =>
      match b.assigned? ref with
      | some (expr, site) => resolveValue b n (.expr expr site)
      | none => some (.ofModule ref)
  | _ + 1, symbol => some symbol

/-- Follows imports of types to a declaration, at most `n` times. -/
def resolveType (b : Bindings) : Nat → TypeSymbol → Option TypeSymbol
  | 0, _ => none
  | n + 1, .imported binding =>
    let ref := b.moduleRef binding.importer binding.specifier
    match binding.name with
    | .named name => (b.exportedType ref name).toOption.bind (resolveType b n)
    | .default => (b.exportedType ref "default").toOption.bind (resolveType b n)
    | .whole => some (.ofModule ref)
    | .equals => some (.ofModule ref)
  | _ + 1, symbol => some symbol

end Bindings

end Recheck.Check
