import Recheck.Syntax.Same
import Recheck.Text.Path

/-!
# Symbols

What a name can stand for, as a value and as a type. A symbol holds the declaration itself and the site
it was bound at; nothing is computed before it is asked for. A scope inside a function or a block is
known by the body it belongs to, so that it needs no table to be told from others.
-/

set_option autoImplicit false

namespace Recheck.Check

open Syntax

/-- The kinds of nodes that are told apart by their place. -/
inductive NodeKind where
  | declarator | function | typeAlias | interface | functionExpr | block | moduleDecl | importName
deriving DecidableEq, Repr, Inhabited

/-- The place of a node. -/
structure NodeKey where
  kind : NodeKind
  file : Path
  start : Nat
deriving DecidableEq, Repr, Inhabited

/-- What a node with a scope of its own binds in it: type parameters, parameters, and what the statements
of its body declare. -/
structure Body where
  key : NodeKey
  typeParams : List Ident
  params : List Param
  statements : List Statement

instance : DecidableEq Body := fun a b => withPtrEqDecEq a b fun _ =>
  decidable_of_iff (a.key = b.key ∧ a.typeParams = b.typeParams ∧ a.params = b.params ∧
    a.statements = b.statements) (by cases a; cases b; simp)

/-- A scope: one of those that the files of a program share, or one inside a body, which stands in
another scope. A body holds further scopes if it declares namespaces; `index` tells them apart. -/
inductive ScopeId where
  | main (index : Nat)
  | inner (body : Body) (parent : ScopeId) (index : Nat)
deriving DecidableEq

instance : Inhabited ScopeId := ⟨.main 0⟩

namespace ScopeId

def index : ScopeId → Nat
  | main n => n
  | inner _ _ n => n

/-- The scope of this number beside another one. -/
def beside (n : Nat) : ScopeId → ScopeId
  | main _ => main n
  | inner body parent _ => inner body parent n

/-- At least the number of scopes inside bodies that lie around a scope. -/
def depth : ScopeId → Nat
  | main _ => 0
  | inner _ parent n => n + 1 + parent.depth

end ScopeId

/-- Where a node stands: the file it is written in, and the scope its names are looked up in. -/
structure Site where
  file : Path
  scope : ScopeId
deriving DecidableEq, Inhabited

/-- What a specifier leads to. -/
inductive ModuleRef where
  /-- A module with known exports: those of this scope. -/
  | container (scope : ScopeId)
  /-- Something that exists and of which nothing is known. -/
  | untyped
  | unresolved
deriving DecidableEq, Inhabited

/-- What an import takes from a module. -/
inductive ImportName where
  | named (name : String)
  | default
  /-- The module as a whole. -/
  | whole
  /-- What the module assigns to its exports. -/
  | equals
deriving DecidableEq, Repr, Inhabited

/-- An import: the specifier is looked up from `importer`; `local` is the name it binds, if it binds one,
which is written in the file `home`. -/
structure ImportBinding where
  importer : Path
  specifier : String
  name : ImportName
  localName : Option Ident
  home : Path
deriving DecidableEq, Repr, Inhabited

/-- The identity of an imported name. -/
def importKey (home : Path) (name : Ident) : NodeKey := ⟨.importName, home, name.span.start⟩

/-- What is known without any declaration. -/
inductive Builtin where
  | any
  | undefined
  | array
deriving DecidableEq, Repr, Inhabited

/-- What a name stands for among values. -/
inductive ValueSymbol where
  | declarator (decl : Declarator) (kind : VariableKind) (site : Site)
  | function (decl : FunctionDecl) (site : Site)
  | param (param : Param) (site : Site)
  | imported (binding : ImportBinding)
  | ofModule (ref : ModuleRef)
  | expr (expr : Expr) (site : Site)
  | builtin (builtin : Builtin)

/-- What a name stands for among types. -/
inductive TypeSymbol where
  | interface (name : String) (scope : ScopeId)
  | typeAlias (decl : TypeAlias) (site : Site)
  | typeParam
  | imported (binding : ImportBinding)
  | ofModule (ref : ModuleRef)
  | builtin (builtin : Builtin)

/-- What has a type of its own, which is worked out when it is asked for. -/
inductive Declaration where
  | variable (decl : Declarator) (kind : VariableKind) (site : Site)
  | function (decl : FunctionDecl) (site : Site)
  | param (param : Param) (site : Site)
  /-- An expression that is exported without a name of its own. -/
  | exported (expr : Expr) (site : Site)
  | interface (name : String) (scope : ScopeId)
  | typeAlias (decl : TypeAlias) (site : Site)
  /-- A function expression; the site is the one inside it. -/
  | functionExpr (params : List Param) (returnType : Option TypeNode) (body : FunctionBody) (site : Site)
deriving DecidableEq

/-- The answer to the question for an export. -/
inductive Lookup (α : Type) where
  | found (symbol : α)
  /-- There is no such export. -/
  | missing
  /-- There may be one. -/
  | unknown

namespace Lookup

def isMissing {α : Type} : Lookup α → Bool
  | missing => true
  | _ => false

def toOption {α : Type} : Lookup α → Option α
  | found symbol => some symbol
  | _ => none

end Lookup

end Recheck.Check
