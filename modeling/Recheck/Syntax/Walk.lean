import Recheck.Syntax.Tree

/-!
# Walking the tree

The nodes of a tree as lists, parents before children, in the order of the text. Statements are
enumerated without those inside function expressions, expressions with all of them; a walk that stops at
the first node of some kind is `List.any` or `List.find?` on the list.
-/

set_option autoImplicit false

namespace Recheck.Syntax

mutual

/-- The statement and the statements inside it, function expressions left aside. -/
def Statement.nested : Statement → List Statement
  | .function d => .function d :: FunctionDecl.nestedBody d
  | .moduleDecl d => .moduleDecl d :: ModuleDecl.nestedBody d
  | .block b => .block b :: Block.nested b
  | .ifElse s => .ifElse s :: IfStatement.nested s
  | stmt => [stmt]

def FunctionDecl.nestedBody : FunctionDecl → List Statement
  | ⟨_, _, _, _, _, some body, _⟩ => Block.nested body
  | _ => []

def ModuleDecl.nestedBody : ModuleDecl → List Statement
  | ⟨_, _, some body, _⟩ => nestedStatements body
  | _ => []

def Block.nested : Block → List Statement
  | ⟨statements, _⟩ => nestedStatements statements

def IfStatement.nested : IfStatement → List Statement
  | ⟨_, thenBranch, some elseBranch, _⟩ => Statement.nested thenBranch ++ Statement.nested elseBranch
  | ⟨_, thenBranch, none, _⟩ => Statement.nested thenBranch

/-- The statements of a list and those inside them. -/
def nestedStatements : List Statement → List Statement
  | [] => []
  | s :: rest => Statement.nested s ++ nestedStatements rest

end

mutual

/-- The expressions of a statement: initial values, conditions, returned and exported values, defaults
of parameters, and all that stands in bodies. -/
def Statement.exprs : Statement → List Expr
  | .variableDecl ⟨_, _, _, declarators, _⟩ => Declarator.exprsOf declarators
  | .expression e => Expr.nested e
  | .ret ⟨some e, _⟩ => Expr.nested e
  | .exportDecl ⟨.default e, _⟩ => Expr.nested e
  | .exportDecl ⟨.assignment e, _⟩ => Expr.nested e
  | .function ⟨_, _, _, params, _, some ⟨body, _⟩, _⟩ => Param.exprsOf params ++ exprsOf body
  | .function ⟨_, _, _, params, _, none, _⟩ => Param.exprsOf params
  | .moduleDecl ⟨_, _, some body, _⟩ => exprsOf body
  | .block ⟨statements, _⟩ => exprsOf statements
  | .ifElse ⟨condition, thenBranch, some elseBranch, _⟩ =>
    Expr.nested condition ++ Statement.exprs thenBranch ++ Statement.exprs elseBranch
  | .ifElse ⟨condition, thenBranch, none, _⟩ => Expr.nested condition ++ Statement.exprs thenBranch
  | _ => []

/-- The expressions of some statements. -/
def exprsOf : List Statement → List Expr
  | [] => []
  | s :: rest => Statement.exprs s ++ exprsOf rest

def Declarator.exprsOf : List Declarator → List Expr
  | [] => []
  | ⟨_, _, some e, _⟩ :: rest => Expr.nested e ++ Declarator.exprsOf rest
  | ⟨_, _, none, _⟩ :: rest => Declarator.exprsOf rest

def Param.exprsOf : List Param → List Expr
  | [] => []
  | ⟨_, _, _, _, some e, _⟩ :: rest => Expr.nested e ++ Param.exprsOf rest
  | ⟨_, _, _, _, none, _⟩ :: rest => Param.exprsOf rest

def Property.exprsOf : List Property → List Expr
  | [] => []
  | ⟨_, e, _⟩ :: rest => Expr.nested e ++ Property.exprsOf rest

def Expr.nestedAll : List Expr → List Expr
  | [] => []
  | e :: rest => Expr.nested e ++ Expr.nestedAll rest

/-- The expression and the expressions inside it. -/
def Expr.nested : Expr → List Expr
  | ⟨kind, span⟩ => ⟨kind, span⟩ :: ExprKind.inner kind

def ExprKind.inner : ExprKind → List Expr
  | .object properties => Property.exprsOf properties
  | .array items => Expr.nestedAll items
  | .member object _ => Expr.nested object
  | .index object index => Expr.nested object ++ Expr.nested index
  | .call callee args => Expr.nested callee ++ Expr.nestedAll args
  | .new callee args => Expr.nested callee ++ Expr.nestedAll args
  | .assign target value _ => Expr.nested target ++ Expr.nested value
  | .binary _ left right => Expr.nested left ++ Expr.nested right
  | .unary _ operand => Expr.nested operand
  | .conditional condition thenValue elseValue =>
    Expr.nested condition ++ Expr.nested thenValue ++ Expr.nested elseValue
  | .function params _ (.expr value) => Param.exprsOf params ++ Expr.nested value
  | .function params _ (.block ⟨statements, _⟩) => Param.exprsOf params ++ exprsOf statements
  | .cast expr _ => Expr.nested expr
  | _ => []

end

mutual

/-- The type and the types inside it. -/
def TypeNode.nested : TypeNode → List TypeNode
  | ⟨kind, span⟩ => ⟨kind, span⟩ :: TypeKind.inner kind

def TypeKind.inner : TypeKind → List TypeNode
  | .reference _ args => TypeNode.nestedAll args
  | .union members => TypeNode.nestedAll members
  | .intersection members => TypeNode.nestedAll members
  | .array element => TypeNode.nested element
  | .tuple elements => TypeNode.nestedAll elements
  | .object members => Member.types members
  | .function params ret => Param.types params ++ TypeNode.nested ret
  | _ => []

def TypeNode.nestedAll : List TypeNode → List TypeNode
  | [] => []
  | t :: rest => TypeNode.nested t ++ TypeNode.nestedAll rest

/-- The types of some members. -/
def Member.types : List Member → List TypeNode
  | [] => []
  | ⟨_, _, some t, _⟩ :: rest => TypeNode.nested t ++ Member.types rest
  | ⟨_, _, none, _⟩ :: rest => Member.types rest

/-- The types of some parameters. -/
def Param.types : List Param → List TypeNode
  | [] => []
  | ⟨_, _, _, some t, _, _⟩ :: rest => TypeNode.nested t ++ Param.types rest
  | ⟨_, _, _, none, _, _⟩ :: rest => Param.types rest

end

/-! ## Whole trees -/

/-- The statements in the body of a function expression. -/
def Expr.bodyStatements (e : Expr) : List Statement :=
  match e.kind with
  | .function _ _ (.block body) => nestedStatements body.statements
  | _ => []

/-- Every statement: first those outside function expressions, then body by body. -/
def everyStatement (statements : List Statement) : List Statement :=
  nestedStatements statements ++ (exprsOf statements).flatMap (·.bodyStatements)

/-- The types written in the head of a statement. -/
def Statement.headTypes : Statement → List TypeNode
  | .variableDecl d => d.declarators.flatMap fun v => TypeNode.nestedAll v.type.toList
  | .function d => Param.types d.params ++ TypeNode.nestedAll d.returnType.toList
  | .interface d => TypeNode.nestedAll d.bases ++ Member.types d.members
  | .typeAlias d => TypeNode.nested d.type
  | _ => []

/-- The types written in an expression itself. -/
def Expr.headTypes (e : Expr) : List TypeNode :=
  match e.kind with
  | .cast _ type => TypeNode.nested type
  | .function params returnType _ => Param.types params ++ TypeNode.nestedAll returnType.toList
  | _ => []

/-- Every type: first those of statements, then those of expressions. -/
def everyType (statements : List Statement) : List TypeNode :=
  (everyStatement statements).flatMap (·.headTypes) ++ (exprsOf statements).flatMap (·.headTypes)

/-! ## What a module is -/

/-- Whether something is declared to exist elsewhere. -/
def SourceModule.hasAmbientDeclaration (m : SourceModule) : Bool :=
  (nestedStatements m.statements).any (·.modifiers.declared)

/-- An assignment to the exports of an older kind of module mentions `exports` or `module.exports`. -/
def Expr.mentionsExports (e : Expr) : Bool :=
  match e.kind with
  | .ident name => name = "exports"
  | .member ⟨.ident object, _⟩ property => property.name = "exports" && object = "module"
  | _ => false

/-- Whether a statement makes its file a module. -/
def Statement.isModuleSyntax : Statement → Bool
  | .importDecl _ => true
  | .importEquals _ => true
  | .exportDecl _ => true
  | stmt => stmt.modifiers.exported

/-- Whether the file is a module. The names of other files' declarations are then not shared. -/
def SourceModule.hasModuleSyntax (m : SourceModule) : Bool :=
  m.statements.any (·.isModuleSyntax) || (exprsOf m.statements).any (·.mentionsExports)

/-! ## Specifiers -/

mutual

/-- The modules that a statement names, those in module declarations included. -/
def Statement.specifiers : Statement → List String
  | .importDecl d => [d.source.value]
  | .importEquals d => [d.source.value]
  | .exportDecl ⟨.named _ (some source), _⟩ => [source.value]
  | .exportDecl ⟨.star _ source, _⟩ => [source.value]
  | .moduleDecl ⟨_, _, some body, _⟩ => specifiersOf body
  | _ => []

def specifiersOf : List Statement → List String
  | [] => []
  | s :: rest => Statement.specifiers s ++ specifiersOf rest

end

/-- The module that a call loads. -/
def Expr.importedSpecifier? (e : Expr) : Option String :=
  match e.kind with
  | .call ⟨.ident "import", _⟩ (⟨.string specifier, _⟩ :: _) => some specifier
  | _ => none

/-- The modules that a file names: in statements first, then in calls. -/
def SourceModule.specifiers (m : SourceModule) : List String :=
  specifiersOf m.statements ++ (exprsOf m.statements).filterMap (·.importedSpecifier?)

end Recheck.Syntax
