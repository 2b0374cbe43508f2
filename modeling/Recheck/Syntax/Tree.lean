import Recheck.Text.Span

/-!
# The syntax tree

Every node knows its span. Types and expressions contain each other (a parameter has a type and a
default value), so the whole tree is one family of types. What a file does not say is `none`; what could
not be read is an `error` node.
-/

set_option autoImplicit false

namespace Recheck.Syntax

/-! ## Leaves -/

/-- A name and where it is written. -/
structure Ident where
  name : String
  span : Span
deriving DecidableEq, Repr, Inhabited

/-- A string literal, its value with escapes resolved. -/
structure StringLiteral where
  value : String
  span : Span
deriving DecidableEq, Repr, Inhabited

/-- The words in front of a declaration. -/
structure Modifiers where
  exported : Bool
  isDefault : Bool
  declared : Bool
deriving DecidableEq, Repr, Inhabited

namespace Modifiers

def none : Modifiers := ⟨false, false, false⟩

end Modifiers

/-- The name of a member that stands for all names, and of a spread in an object literal. It is no
identifier, so it clashes with no member that a file can write. -/
def indexName : String := "[index]"

/-- The name of an identifier that was expected and not found. -/
def missingName : String := "<missing>"

/-- The words that introduce variables. -/
inductive VariableKind where
  | var
  | let
  | const
deriving DecidableEq, Repr, Inhabited

/-- The types that are written as one word. -/
inductive KeywordType where
  | any | unknown | never | void | undefined | null | string | number | boolean | object | symbol | bigint
deriving DecidableEq, Repr, Inhabited

namespace KeywordType

def name : KeywordType → String
  | any => "any"
  | unknown => "unknown"
  | never => "never"
  | void => "void"
  | undefined => "undefined"
  | null => "null"
  | string => "string"
  | number => "number"
  | boolean => "boolean"
  | object => "object"
  | symbol => "symbol"
  | bigint => "bigint"

def all : List KeywordType :=
  [any, unknown, never, void, undefined, null, string, number, boolean, object, symbol, bigint]

/-- The type of a word. -/
def ofName? (word : String) : Option KeywordType := all.find? (·.name = word)

theorem ofName?_name (k : KeywordType) : ofName? k.name = some k := by cases k <;> rfl

end KeywordType

/-- A type with one value. A number keeps the text it was written with. -/
inductive LiteralType where
  | string (value : String)
  | number (text : String)
  | bool (value : Bool)
deriving DecidableEq, Repr, Inhabited

/-- Operators between two operands. -/
inductive BinaryOp where
  | add | sub | mul | div | rem | eq | strictEq | notEq | strictNotEq | lt | gt | ltEq | gtEq | and | or
  | coalesce | bitAnd | bitOr
deriving DecidableEq, Repr, Inhabited

/-- Operators on one operand. `increment` stands for `++` and `--` on either side. -/
inductive UnaryOp where
  | not | neg | plus | typeof | void | increment
deriving DecidableEq, Repr, Inhabited

/-! ## Imports and export lists -/

/-- One name of an import list. -/
structure ImportSpecifier where
  imported : Ident
  newName : Option Ident
deriving DecidableEq, Repr, Inhabited

/-- The name under which the file knows the import. -/
def ImportSpecifier.localName (s : ImportSpecifier) : Ident := s.newName.getD s.imported

/-- An import with its names: a default, a namespace, and a list. -/
structure ImportDecl where
  default : Option Ident
  star : Option Ident
  named : List ImportSpecifier
  source : StringLiteral
  typeOnly : Bool
  span : Span
deriving DecidableEq, Repr, Inhabited

/-- The names that an import brings in, in order. -/
def ImportDecl.localNames (d : ImportDecl) : List Ident :=
  d.default.toList ++ d.star.toList ++ d.named.map (·.localName)

/-- An import of what a module assigns to its exports. -/
structure ImportEquals where
  name : Ident
  source : StringLiteral
  exported : Bool
  span : Span
deriving DecidableEq, Repr, Inhabited

/-- One name of an export list. -/
structure ExportSpecifier where
  localName : Ident
  newName : Option Ident
deriving DecidableEq, Repr, Inhabited

/-- The name under which others know the export. -/
def ExportSpecifier.exportedName (s : ExportSpecifier) : Ident := s.newName.getD s.localName

/-- What a module declaration declares. -/
inductive ModuleName where
  /-- A namespace; a dotted name is one name. -/
  | named (name : Ident)
  /-- A module of this specifier, declared from outside. -/
  | ambient (specifier : StringLiteral)
  /-- The scope shared by all files. -/
  | global (span : Span)
deriving DecidableEq, Repr, Inhabited

/-! ## Types, expressions and statements -/

mutual

/-- A type as written. -/
structure TypeNode where
  kind : TypeKind
  span : Span

inductive TypeKind where
  | keyword (word : KeywordType)
  | reference (name : List Ident) (args : List TypeNode)
  | union (members : List TypeNode)
  | intersection (members : List TypeNode)
  | array (element : TypeNode)
  | tuple (elements : List TypeNode)
  | literal (value : LiteralType)
  | object (members : List Member)
  | function (params : List Param) (ret : TypeNode)
  | typeof (name : List Ident)
  | error

/-- A member of an object type or an interface. -/
structure Member where
  name : Ident
  optional : Bool
  type : Option TypeNode
  span : Span

/-- A parameter. -/
structure Param where
  name : Ident
  optional : Bool
  rest : Bool
  type : Option TypeNode
  default : Option Expr
  span : Span

/-- An expression. -/
structure Expr where
  kind : ExprKind
  span : Span

inductive ExprKind where
  | ident (name : String)
  | string (value : String)
  | template
  | number (text : String)
  | bool (value : Bool)
  | null
  | this
  | object (properties : List Property)
  | array (items : List Expr)
  | member (object : Expr) (property : Ident)
  | index (object : Expr) (index : Expr)
  | call (callee : Expr) (args : List Expr)
  | new (callee : Expr) (args : List Expr)
  /-- An assignment; `plain` tells `=` from the operators that read the target first. -/
  | assign (target : Expr) (value : Expr) (plain : Bool)
  | binary (op : BinaryOp) (left : Expr) (right : Expr)
  | unary (op : UnaryOp) (operand : Expr)
  | conditional (condition : Expr) (thenValue : Expr) (elseValue : Expr)
  | function (params : List Param) (returnType : Option TypeNode) (body : FunctionBody)
  | cast (expr : Expr) (type : TypeNode)
  | error

/-- The body of a function expression. -/
inductive FunctionBody where
  | expr (value : Expr)
  | block (body : Block)

/-- A property of an object literal. -/
structure Property where
  name : Ident
  value : Expr
  span : Span

/-- Statements between braces. -/
structure Block where
  statements : List Statement
  span : Span

/-- One variable of a declaration. -/
structure Declarator where
  name : Ident
  type : Option TypeNode
  init : Option Expr
  span : Span

structure VariableStatement where
  modifiers : Modifiers
  kind : VariableKind
  keywordSpan : Span
  declarators : List Declarator
  span : Span

/-- A function declaration; only a default export may lack a name. -/
structure FunctionDecl where
  modifiers : Modifiers
  name : Option Ident
  typeParams : List Ident
  params : List Param
  returnType : Option TypeNode
  body : Option Block
  span : Span

structure InterfaceDecl where
  modifiers : Modifiers
  name : Ident
  typeParams : List Ident
  bases : List TypeNode
  members : List Member
  span : Span

structure TypeAlias where
  modifiers : Modifiers
  name : Ident
  typeParams : List Ident
  type : TypeNode
  span : Span

structure ModuleDecl where
  modifiers : Modifiers
  name : ModuleName
  body : Option (List Statement)
  span : Span

structure IfStatement where
  condition : Expr
  thenBranch : Statement
  elseBranch : Option Statement
  span : Span

structure ReturnStatement where
  value : Option Expr
  span : Span

/-- What an export declaration exports. -/
inductive ExportKind where
  | named (specifiers : List ExportSpecifier) (source : Option StringLiteral)
  | star (newName : Option Ident) (source : StringLiteral)
  | default (value : Expr)
  | assignment (value : Expr)

structure ExportDecl where
  kind : ExportKind
  span : Span

inductive Statement where
  | importDecl (decl : ImportDecl)
  | importEquals (decl : ImportEquals)
  | exportDecl (decl : ExportDecl)
  | variableDecl (decl : VariableStatement)
  | function (decl : FunctionDecl)
  | interface (decl : InterfaceDecl)
  | typeAlias (decl : TypeAlias)
  | moduleDecl (decl : ModuleDecl)
  | ifElse (stmt : IfStatement)
  | block (body : Block)
  | expression (expr : Expr)
  | ret (stmt : ReturnStatement)
  | empty (span : Span)
  | error (span : Span)

end

/-- The tree of one file. -/
structure SourceModule where
  statements : List Statement
  span : Span

instance : Inhabited TypeNode := ⟨⟨.error, Span.empty⟩⟩

instance : Inhabited Expr := ⟨⟨.error, Span.empty⟩⟩

instance : Inhabited Statement := ⟨.empty Span.empty⟩

instance : Inhabited Block := ⟨⟨[], Span.empty⟩⟩

instance : Inhabited SourceModule := ⟨⟨[], Span.empty⟩⟩

namespace Statement

def span : Statement → Span
  | importDecl d => d.span
  | importEquals d => d.span
  | exportDecl d => d.span
  | variableDecl d => d.span
  | function d => d.span
  | interface d => d.span
  | typeAlias d => d.span
  | moduleDecl d => d.span
  | ifElse s => s.span
  | block b => b.span
  | expression e => e.span
  | ret s => s.span
  | empty s => s
  | error s => s

/-- The statement with its span replaced. -/
def withSpan (s : Span) : Statement → Statement
  | importDecl d => importDecl { d with span := s }
  | importEquals d => importEquals { d with span := s }
  | exportDecl d => exportDecl { d with span := s }
  | variableDecl d => variableDecl { d with span := s }
  | function d => function { d with span := s }
  | interface d => interface { d with span := s }
  | typeAlias d => typeAlias { d with span := s }
  | moduleDecl d => moduleDecl { d with span := s }
  | ifElse d => ifElse { d with span := s }
  | block b => block { b with span := s }
  | expression e => expression { e with span := s }
  | ret d => ret { d with span := s }
  | empty _ => empty s
  | error _ => error s

/-- The statement stretched to begin with the words in front of it. -/
def stretch (stmt : Statement) (start : Span) : Statement :=
  stmt.withSpan (stmt.span.merge start)

/-- The modifiers of a declaration; other statements have none. -/
def modifiers : Statement → Modifiers
  | variableDecl d => d.modifiers
  | function d => d.modifiers
  | interface d => d.modifiers
  | typeAlias d => d.modifiers
  | moduleDecl d => d.modifiers
  | importEquals d => { Modifiers.none with exported := d.exported }
  | _ => Modifiers.none

end Statement

end Recheck.Syntax
