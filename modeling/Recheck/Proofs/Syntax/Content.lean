import Recheck.Syntax.Tree

/-!
# What a tree holds

All that can be said against a part of a tree is said at a spot: the span of a name, of an expression, of a row of
arguments. The content of a node lists the spots inside it as often as the check of the node gets to them, beside its
height and the number of nodes whose type is worked out on demand. Where a fault can be found depends on the role that
the span plays, so equal spans in different roles are different spots.
-/

set_option autoImplicit false

namespace Recheck.Syntax

/-- What stands at a span. -/
inductive Role where
  | name | param | member | value | surplus | source | exported | variable | module
deriving DecidableEq

abbrev Spot : Type := Role × Span

structure Content where
  spots : List Spot
  height : Nat
  /-- The nodes with a type of their own: variables, functions, parameters, exported expressions, interfaces, aliases. -/
  declared : Nat

namespace Content

def none : Content := ⟨[], 0, 0⟩

def ofSpots (spots : List Spot) : Content := ⟨spots, 0, 0⟩

instance : Append Content := ⟨fun a b => ⟨a.spots ++ b.spots, max a.height b.height, a.declared + b.declared⟩⟩

/-- One level up. -/
def inside (c : Content) : Content := { c with height := c.height + 1 }

def declaring (c : Content) : Content := { c with declared := c.declared + 1 }

variable (a b c : Content) (spots : List Spot)

@[simp] theorem spots_none : none.spots = [] := rfl

@[simp] theorem height_none : none.height = 0 := rfl

@[simp] theorem declared_none : none.declared = 0 := rfl

@[simp] theorem spots_ofSpots : (ofSpots spots).spots = spots := rfl

@[simp] theorem height_ofSpots : (ofSpots spots).height = 0 := rfl

@[simp] theorem declared_ofSpots : (ofSpots spots).declared = 0 := rfl

@[simp] theorem spots_append : (a ++ b).spots = a.spots ++ b.spots := rfl

@[simp] theorem height_append : (a ++ b).height = max a.height b.height := rfl

@[simp] theorem declared_append : (a ++ b).declared = a.declared + b.declared := rfl

@[simp] theorem spots_inside : c.inside.spots = c.spots := rfl

@[simp] theorem height_inside : c.inside.height = c.height + 1 := rfl

@[simp] theorem declared_inside : c.inside.declared = c.declared := rfl

@[simp] theorem spots_declaring : c.declaring.spots = c.spots := rfl

@[simp] theorem height_declaring : c.declaring.height = c.height := rfl

@[simp] theorem declared_declaring : c.declaring.declared = c.declared + 1 := rfl

end Content

/-! ## Spots of a node itself -/

/-- Of a dotted name the first part is looked up. -/
def headSpots : List Ident → List Spot
  | [] => []
  | first :: _ => [(.name, first.span)]

/-- A variable is looked up. There is always a value of the name `import`. -/
def nameSpots (name : String) (span : Span) : List Spot :=
  if name = "import" then [] else [(.name, span)]

/-- The expression as a name, and as a value that may not fit. -/
def ExprKind.spots (kind : ExprKind) (span : Span) : List Spot :=
  match kind with
  | .error => []
  | .ident name => nameSpots name span ++ [(.value, span)]
  | _ => [(.value, span)]

/-- The expression where nothing is asked of its value. Only names and calls are at fault by themselves. -/
def ExprKind.bareSpots (kind : ExprKind) (span : Span) : List Spot :=
  match kind with
  | .ident name => nameSpots name span
  | .call .. => [(.value, span)]
  | _ => []

/-- From the first of some arguments to the last. -/
def coverSpan (first : Expr) (rest : List Expr) : Span :=
  match rest.getLast? with
  | some last => first.span.merge last.span
  | none => first.span

/-- The name of a variable stands for its value where that does not fit. -/
def declaratorSpots (name : Ident) (initialised : Bool) : List Spot :=
  (.variable, name.span) :: if initialised then [(.value, name.span)] else []

def ImportDecl.spots (d : ImportDecl) : List Spot :=
  (.source, d.source.span) :: d.named.map fun s => (.exported, s.imported.span)

/-- The names that a statement imports. -/
def Statement.importSpots : Statement → List Spot
  | .importDecl d => d.localNames.map fun name => (.variable, name.span)
  | .importEquals d => [(.variable, d.name.span)]
  | _ => []

/-! ## Contents -/

mutual

def TypeNode.content : TypeNode → Content
  | ⟨kind, _⟩ => (TypeKind.content kind).inside

def TypeKind.content : TypeKind → Content
  | .reference name args => .ofSpots (headSpots name) ++ typesContent args
  | .union members => typesContent members
  | .intersection members => typesContent members
  | .array element => TypeNode.content element
  | .tuple elements => typesContent elements
  | .object members => membersContent members
  | .function params ret => annotationsContent params ++ TypeNode.content ret
  | .typeof name => .ofSpots (headSpots name)
  | .keyword _ => .none
  | .literal _ => .none
  | .error => .none

def typesContent : List TypeNode → Content
  | [] => .none
  | type :: rest => TypeNode.content type ++ typesContent rest

def typeContent? : Option TypeNode → Content
  | some type => TypeNode.content type
  | none => .none

def membersContent : List Member → Content
  | [] => .none
  | ⟨_, _, type, _⟩ :: rest => typeContent? type ++ membersContent rest

/-- The parameters of a function type, of which only the types count. -/
def annotationsContent : List Param → Content
  | [] => .none
  | ⟨_, _, _, type, _, _⟩ :: rest => typeContent? type ++ annotationsContent rest

end

mutual

def Expr.content : Expr → Content
  | ⟨kind, span⟩ => (.ofSpots (kind.spots span) ++ ExprKind.content kind).inside

/-- The content of an expression that has to fit nothing: a variable as a property has the span of the property's name,
and the callee of a constructor call may reach as far as the call. -/
def Expr.bareContent : Expr → Content
  | ⟨kind, span⟩ => (.ofSpots (kind.bareSpots span) ++ ExprKind.content kind).inside

def ExprKind.content : ExprKind → Content
  | .object properties => propertiesContent properties
  | .array items => exprsContent items
  | .member object property => Expr.content object ++ .ofSpots [(.member, property.span)]
  | .index object index => Expr.content object ++ Expr.content index
  | .call callee args => Expr.content callee ++ argsContent args
  | .new callee args => Expr.bareContent callee ++ exprsContent args
  | .assign target value _ => Expr.content target ++ Expr.content value
  | .binary _ left right => Expr.content left ++ Expr.content right
  | .unary _ operand => Expr.content operand
  | .conditional condition thenValue elseValue =>
    Expr.content condition ++ (Expr.content thenValue ++ Expr.content elseValue)
  | .function params returnType body =>
    (paramsContent params ++ (typeContent? returnType ++ FunctionBody.content body)).declaring
  | .cast expr type => Expr.content expr ++ TypeNode.content type
  | .ident _ => .none
  | .string _ => .none
  | .template => .none
  | .number _ => .none
  | .bool _ => .none
  | .null => .none
  | .this => .none
  | .error => .none

def exprsContent : List Expr → Content
  | [] => .none
  | e :: rest => Expr.content e ++ exprsContent rest

/-- The arguments of a call. Any number of them at the end may be too many. -/
def argsContent : List Expr → Content
  | [] => .none
  | e :: rest => (.ofSpots [(.surplus, coverSpan e rest)] ++ Expr.content e) ++ argsContent rest

def exprContent? : Option Expr → Content
  | some e => Expr.content e
  | none => .none

def Property.content : Property → Content
  | ⟨name, value, _⟩ => .ofSpots [(.value, name.span)] ++ Expr.bareContent value

def propertiesContent : List Property → Content
  | [] => .none
  | p :: rest => Property.content p ++ propertiesContent rest

def Param.content : Param → Content
  | ⟨name, _, _, type, default, _⟩ =>
    (.ofSpots [(.param, name.span)] ++ (typeContent? type ++ exprContent? default)).declaring

def paramsContent : List Param → Content
  | [] => .none
  | p :: rest => Param.content p ++ paramsContent rest

def FunctionBody.content : FunctionBody → Content
  | .expr value => Expr.content value
  | .block ⟨statements, _⟩ => statementsContent statements

def Declarator.content : Declarator → Content
  | ⟨name, type, init, _⟩ =>
    (.ofSpots (declaratorSpots name init.isSome) ++ (typeContent? type ++ exprContent? init)).declaring

def declaratorsContent : List Declarator → Content
  | [] => .none
  | d :: rest => Declarator.content d ++ declaratorsContent rest

def FunctionDecl.content : FunctionDecl → Content
  | ⟨_, _, _, params, returnType, body, _⟩ =>
    (paramsContent params ++ (typeContent? returnType ++ blockContent? body)).declaring

def blockContent? : Option Block → Content
  | some ⟨statements, _⟩ => statementsContent statements
  | none => .none

def ModuleDecl.content : ModuleDecl → Content
  | ⟨_, _, body, span⟩ => .ofSpots [(.module, ⟨span.start, span.start + 1⟩)] ++ statementsContent? body

def statementsContent? : Option (List Statement) → Content
  | some statements => statementsContent statements
  | none => .none

def ExportKind.content : ExportKind → Content
  | .named specifiers none => .ofSpots (specifiers.map fun s => (.name, s.localName.span))
  | .named specifiers (some source) =>
    .ofSpots ((.source, source.span) :: specifiers.map fun s => (.exported, s.localName.span))
  | .star _ source => .ofSpots [(.source, source.span)]
  | .default value => (Expr.content value).declaring
  | .assignment value => (Expr.content value).declaring

def Statement.content : Statement → Content
  | .importDecl decl => (Content.ofSpots decl.spots).inside
  | .importEquals decl => (Content.ofSpots [(.source, decl.source.span)]).inside
  | .exportDecl ⟨kind, _⟩ => (ExportKind.content kind).inside
  | .variableDecl ⟨_, _, _, declarators, _⟩ => (declaratorsContent declarators).inside
  | .function decl => (FunctionDecl.content decl).inside
  | .interface ⟨_, _, _, bases, members, _⟩ => (typesContent bases ++ membersContent members).declaring.inside
  | .typeAlias ⟨_, _, _, type, _⟩ => (TypeNode.content type).declaring.inside
  | .moduleDecl decl => (ModuleDecl.content decl).inside
  | .ifElse ⟨condition, thenBranch, elseBranch, _⟩ =>
    (Expr.content condition ++ (Statement.content thenBranch ++ statementContent? elseBranch)).inside
  | .block ⟨statements, _⟩ => (statementsContent statements).inside
  | .expression e => (Expr.content e).inside
  | .ret ⟨value, _⟩ => (exprContent? value).inside
  | .empty _ => Content.none.inside
  | .error _ => Content.none.inside

def statementContent? : Option Statement → Content
  | some stmt => Statement.content stmt
  | none => .none

def statementsContent : List Statement → Content
  | [] => .none
  | s :: rest => Statement.content s ++ statementsContent rest

end

/-! ## Nodes and their spans -/

theorem TypeNode.content_eq (type : TypeNode) : type.content = type.kind.content.inside := by
  cases type
  rfl

theorem Expr.content_eq (e : Expr) : e.content = (.ofSpots (e.kind.spots e.span) ++ e.kind.content).inside := by
  cases e
  rfl

theorem Expr.bareContent_eq (e : Expr) :
    e.bareContent = (.ofSpots (e.kind.bareSpots e.span) ++ e.kind.content).inside := by
  cases e
  rfl

/-- Whether no spot of a statement depends on the span of the whole. -/
def Statement.isFixed : Statement → Bool
  | .moduleDecl _ => false
  | .expression _ => false
  | _ => true

theorem Statement.content_withSpan {stmt : Statement} (h : stmt.isFixed = true) (span : Span) :
    (stmt.withSpan span).content = stmt.content := by
  cases stmt with
  | moduleDecl | expression => exact nomatch h
  | empty | error => rfl
  | _ decl => cases decl; rfl

theorem Statement.importSpots_withSpan (stmt : Statement) (span : Span) :
    (stmt.withSpan span).importSpots = stmt.importSpots := by
  cases stmt <;> rfl

theorem FunctionBody.content_block (block : Block) :
    (FunctionBody.block block).content = statementsContent block.statements := by
  cases block
  rfl

theorem blockContent?_some (block : Block) : blockContent? (some block) = statementsContent block.statements := by
  cases block
  rfl

end Recheck.Syntax
