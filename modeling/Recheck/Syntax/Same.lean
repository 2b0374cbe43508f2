import Recheck.Syntax.Tree

/-!
# Equality of trees

Two trees are equal when they have the same nodes with the same spans. `same` compares them along the
family of types, one function for each type, list and option of it, and `same_iff` says that it decides
equality.
-/

set_option autoImplicit false

namespace Recheck.Syntax

/-! ## Comparing -/

mutual

def TypeNode.same : TypeNode → TypeNode → Bool
  | ⟨kind, span⟩, ⟨kind', span'⟩ => kind.same kind' && span == span'

def TypeKind.same : TypeKind → TypeKind → Bool
  | .keyword word, .keyword word' => word == word'
  | .reference name args, .reference name' args' => name == name' && sameTypes args args'
  | .union members, .union members' => sameTypes members members'
  | .intersection members, .intersection members' => sameTypes members members'
  | .array element, .array element' => element.same element'
  | .tuple elements, .tuple elements' => sameTypes elements elements'
  | .literal value, .literal value' => value == value'
  | .object members, .object members' => sameMembers members members'
  | .function params ret, .function params' ret' => sameParams params params' && ret.same ret'
  | .typeof name, .typeof name' => name == name'
  | .error, .error => true
  | _, _ => false

def Member.same : Member → Member → Bool
  | ⟨name, optional, type, span⟩, ⟨name', optional', type', span'⟩ =>
    name == name' && optional == optional' && sameType? type type' && span == span'

def Param.same : Param → Param → Bool
  | ⟨name, optional, rest, type, default, span⟩, ⟨name', optional', rest', type', default', span'⟩ =>
    name == name' && optional == optional' && rest == rest' && sameType? type type' &&
      sameExpr? default default' && span == span'

def Expr.same : Expr → Expr → Bool
  | ⟨kind, span⟩, ⟨kind', span'⟩ => kind.same kind' && span == span'

def ExprKind.same : ExprKind → ExprKind → Bool
  | .ident name, .ident name' => name == name'
  | .string value, .string value' => value == value'
  | .template, .template => true
  | .number text, .number text' => text == text'
  | .bool value, .bool value' => value == value'
  | .null, .null => true
  | .this, .this => true
  | .object properties, .object properties' => sameProperties properties properties'
  | .array items, .array items' => sameExprs items items'
  | .member object property, .member object' property' => object.same object' && property == property'
  | .index object index, .index object' index' => object.same object' && index.same index'
  | .call callee args, .call callee' args' => callee.same callee' && sameExprs args args'
  | .new callee args, .new callee' args' => callee.same callee' && sameExprs args args'
  | .assign target value plain, .assign target' value' plain' =>
    target.same target' && value.same value' && plain == plain'
  | .binary op left right, .binary op' left' right' => op == op' && left.same left' && right.same right'
  | .unary op operand, .unary op' operand' => op == op' && operand.same operand'
  | .conditional condition thenValue elseValue, .conditional condition' thenValue' elseValue' =>
    condition.same condition' && thenValue.same thenValue' && elseValue.same elseValue'
  | .function params returnType body, .function params' returnType' body' =>
    sameParams params params' && sameType? returnType returnType' && body.same body'
  | .cast expr type, .cast expr' type' => expr.same expr' && type.same type'
  | .error, .error => true
  | _, _ => false

def FunctionBody.same : FunctionBody → FunctionBody → Bool
  | .expr value, .expr value' => value.same value'
  | .block body, .block body' => body.same body'
  | _, _ => false

def Property.same : Property → Property → Bool
  | ⟨name, value, span⟩, ⟨name', value', span'⟩ => name == name' && value.same value' && span == span'

def Block.same : Block → Block → Bool
  | ⟨statements, span⟩, ⟨statements', span'⟩ => sameStatements statements statements' && span == span'

def Declarator.same : Declarator → Declarator → Bool
  | ⟨name, type, init, span⟩, ⟨name', type', init', span'⟩ =>
    name == name' && sameType? type type' && sameExpr? init init' && span == span'

def VariableStatement.same : VariableStatement → VariableStatement → Bool
  | ⟨modifiers, kind, keywordSpan, declarators, span⟩,
    ⟨modifiers', kind', keywordSpan', declarators', span'⟩ =>
    modifiers == modifiers' && kind == kind' && keywordSpan == keywordSpan' &&
      sameDeclarators declarators declarators' && span == span'

def FunctionDecl.same : FunctionDecl → FunctionDecl → Bool
  | ⟨modifiers, name, typeParams, params, returnType, body, span⟩,
    ⟨modifiers', name', typeParams', params', returnType', body', span'⟩ =>
    modifiers == modifiers' && name == name' && typeParams == typeParams' && sameParams params params' &&
      sameType? returnType returnType' && sameBlock? body body' && span == span'

def InterfaceDecl.same : InterfaceDecl → InterfaceDecl → Bool
  | ⟨modifiers, name, typeParams, bases, members, span⟩,
    ⟨modifiers', name', typeParams', bases', members', span'⟩ =>
    modifiers == modifiers' && name == name' && typeParams == typeParams' && sameTypes bases bases' &&
      sameMembers members members' && span == span'

def TypeAlias.same : TypeAlias → TypeAlias → Bool
  | ⟨modifiers, name, typeParams, type, span⟩, ⟨modifiers', name', typeParams', type', span'⟩ =>
    modifiers == modifiers' && name == name' && typeParams == typeParams' && type.same type' && span == span'

def ModuleDecl.same : ModuleDecl → ModuleDecl → Bool
  | ⟨modifiers, name, body, span⟩, ⟨modifiers', name', body', span'⟩ =>
    modifiers == modifiers' && name == name' && sameStatements? body body' && span == span'

def IfStatement.same : IfStatement → IfStatement → Bool
  | ⟨condition, thenBranch, elseBranch, span⟩, ⟨condition', thenBranch', elseBranch', span'⟩ =>
    condition.same condition' && thenBranch.same thenBranch' && sameStatement? elseBranch elseBranch' &&
      span == span'

def ReturnStatement.same : ReturnStatement → ReturnStatement → Bool
  | ⟨value, span⟩, ⟨value', span'⟩ => sameExpr? value value' && span == span'

def ExportKind.same : ExportKind → ExportKind → Bool
  | .named specifiers source, .named specifiers' source' => specifiers == specifiers' && source == source'
  | .star newName source, .star newName' source' => newName == newName' && source == source'
  | .default value, .default value' => value.same value'
  | .assignment value, .assignment value' => value.same value'
  | _, _ => false

def ExportDecl.same : ExportDecl → ExportDecl → Bool
  | ⟨kind, span⟩, ⟨kind', span'⟩ => kind.same kind' && span == span'

def Statement.same : Statement → Statement → Bool
  | .importDecl decl, .importDecl decl' => decl == decl'
  | .importEquals decl, .importEquals decl' => decl == decl'
  | .exportDecl decl, .exportDecl decl' => decl.same decl'
  | .variableDecl decl, .variableDecl decl' => decl.same decl'
  | .function decl, .function decl' => decl.same decl'
  | .interface decl, .interface decl' => decl.same decl'
  | .typeAlias decl, .typeAlias decl' => decl.same decl'
  | .moduleDecl decl, .moduleDecl decl' => decl.same decl'
  | .ifElse stmt, .ifElse stmt' => stmt.same stmt'
  | .block body, .block body' => body.same body'
  | .expression expr, .expression expr' => expr.same expr'
  | .ret stmt, .ret stmt' => stmt.same stmt'
  | .empty span, .empty span' => span == span'
  | .error span, .error span' => span == span'
  | _, _ => false

def sameTypes : List TypeNode → List TypeNode → Bool
  | [], [] => true
  | a :: as, b :: bs => a.same b && sameTypes as bs
  | _, _ => false

def sameMembers : List Member → List Member → Bool
  | [], [] => true
  | a :: as, b :: bs => a.same b && sameMembers as bs
  | _, _ => false

def sameParams : List Param → List Param → Bool
  | [], [] => true
  | a :: as, b :: bs => a.same b && sameParams as bs
  | _, _ => false

def sameExprs : List Expr → List Expr → Bool
  | [], [] => true
  | a :: as, b :: bs => a.same b && sameExprs as bs
  | _, _ => false

def sameProperties : List Property → List Property → Bool
  | [], [] => true
  | a :: as, b :: bs => a.same b && sameProperties as bs
  | _, _ => false

def sameDeclarators : List Declarator → List Declarator → Bool
  | [], [] => true
  | a :: as, b :: bs => a.same b && sameDeclarators as bs
  | _, _ => false

def sameStatements : List Statement → List Statement → Bool
  | [], [] => true
  | a :: as, b :: bs => a.same b && sameStatements as bs
  | _, _ => false

def sameType? : Option TypeNode → Option TypeNode → Bool
  | none, none => true
  | some a, some b => a.same b
  | _, _ => false

def sameExpr? : Option Expr → Option Expr → Bool
  | none, none => true
  | some a, some b => a.same b
  | _, _ => false

def sameBlock? : Option Block → Option Block → Bool
  | none, none => true
  | some a, some b => a.same b
  | _, _ => false

def sameStatement? : Option Statement → Option Statement → Bool
  | none, none => true
  | some a, some b => a.same b
  | _, _ => false

def sameStatements? : Option (List Statement) → Option (List Statement) → Bool
  | none, none => true
  | some a, some b => sameStatements a b
  | _, _ => false

end

/-! ## Comparing decides equality -/

mutual

theorem TypeNode.same_iff {a b : TypeNode} : a.same b = true ↔ a = b := by
  cases a; cases b
  simp [TypeNode.same, TypeKind.same_iff]
termination_by structural a

theorem TypeKind.same_iff {a b : TypeKind} : a.same b = true ↔ a = b := by
  cases a <;> cases b <;>
    simp [TypeKind.same, sameTypes_iff, TypeNode.same_iff, sameMembers_iff, sameParams_iff]
termination_by structural a

theorem Member.same_iff {a b : Member} : a.same b = true ↔ a = b := by
  cases a; cases b
  simp [Member.same, sameType?_iff, and_assoc]
termination_by structural a

theorem Param.same_iff {a b : Param} : a.same b = true ↔ a = b := by
  cases a; cases b
  simp [Param.same, sameType?_iff, sameExpr?_iff, and_assoc]
termination_by structural a

theorem Expr.same_iff {a b : Expr} : a.same b = true ↔ a = b := by
  cases a; cases b
  simp [Expr.same, ExprKind.same_iff]
termination_by structural a

theorem ExprKind.same_iff {a b : ExprKind} : a.same b = true ↔ a = b := by
  cases a <;> cases b <;>
    simp [ExprKind.same, sameProperties_iff, sameExprs_iff, Expr.same_iff, sameParams_iff, sameType?_iff,
      FunctionBody.same_iff, TypeNode.same_iff, and_assoc]
termination_by structural a

theorem FunctionBody.same_iff {a b : FunctionBody} : a.same b = true ↔ a = b := by
  cases a <;> cases b <;>
    simp [FunctionBody.same, Expr.same_iff, Block.same_iff]
termination_by structural a

theorem Property.same_iff {a b : Property} : a.same b = true ↔ a = b := by
  cases a; cases b
  simp [Property.same, Expr.same_iff, and_assoc]
termination_by structural a

theorem Block.same_iff {a b : Block} : a.same b = true ↔ a = b := by
  cases a; cases b
  simp [Block.same, sameStatements_iff]
termination_by structural a

theorem Declarator.same_iff {a b : Declarator} : a.same b = true ↔ a = b := by
  cases a; cases b
  simp [Declarator.same, sameType?_iff, sameExpr?_iff, and_assoc]
termination_by structural a

theorem VariableStatement.same_iff {a b : VariableStatement} : a.same b = true ↔ a = b := by
  cases a; cases b
  simp [VariableStatement.same, sameDeclarators_iff, and_assoc]
termination_by structural a

theorem FunctionDecl.same_iff {a b : FunctionDecl} : a.same b = true ↔ a = b := by
  cases a; cases b
  simp [FunctionDecl.same, sameParams_iff, sameType?_iff, sameBlock?_iff, and_assoc]
termination_by structural a

theorem InterfaceDecl.same_iff {a b : InterfaceDecl} : a.same b = true ↔ a = b := by
  cases a; cases b
  simp [InterfaceDecl.same, sameTypes_iff, sameMembers_iff, and_assoc]
termination_by structural a

theorem TypeAlias.same_iff {a b : TypeAlias} : a.same b = true ↔ a = b := by
  cases a; cases b
  simp [TypeAlias.same, TypeNode.same_iff, and_assoc]
termination_by structural a

theorem ModuleDecl.same_iff {a b : ModuleDecl} : a.same b = true ↔ a = b := by
  cases a; cases b
  simp [ModuleDecl.same, sameStatements?_iff, and_assoc]
termination_by structural a

theorem IfStatement.same_iff {a b : IfStatement} : a.same b = true ↔ a = b := by
  cases a; cases b
  simp [IfStatement.same, Expr.same_iff, Statement.same_iff, sameStatement?_iff, and_assoc]
termination_by structural a

theorem ReturnStatement.same_iff {a b : ReturnStatement} : a.same b = true ↔ a = b := by
  cases a; cases b
  simp [ReturnStatement.same, sameExpr?_iff]
termination_by structural a

theorem ExportKind.same_iff {a b : ExportKind} : a.same b = true ↔ a = b := by
  cases a <;> cases b <;>
    simp [ExportKind.same, Expr.same_iff]
termination_by structural a

theorem ExportDecl.same_iff {a b : ExportDecl} : a.same b = true ↔ a = b := by
  cases a; cases b
  simp [ExportDecl.same, ExportKind.same_iff]
termination_by structural a

theorem Statement.same_iff {a b : Statement} : a.same b = true ↔ a = b := by
  cases a <;> cases b <;>
    simp [Statement.same, ExportDecl.same_iff, VariableStatement.same_iff, FunctionDecl.same_iff,
      InterfaceDecl.same_iff, TypeAlias.same_iff, ModuleDecl.same_iff, IfStatement.same_iff, Block.same_iff,
      Expr.same_iff, ReturnStatement.same_iff]
termination_by structural a

theorem sameTypes_iff {as bs : List TypeNode} : sameTypes as bs = true ↔ as = bs := by
  cases as <;> cases bs <;> simp [sameTypes, TypeNode.same_iff, sameTypes_iff]
termination_by structural as

theorem sameMembers_iff {as bs : List Member} : sameMembers as bs = true ↔ as = bs := by
  cases as <;> cases bs <;> simp [sameMembers, Member.same_iff, sameMembers_iff]
termination_by structural as

theorem sameParams_iff {as bs : List Param} : sameParams as bs = true ↔ as = bs := by
  cases as <;> cases bs <;> simp [sameParams, Param.same_iff, sameParams_iff]
termination_by structural as

theorem sameExprs_iff {as bs : List Expr} : sameExprs as bs = true ↔ as = bs := by
  cases as <;> cases bs <;> simp [sameExprs, Expr.same_iff, sameExprs_iff]
termination_by structural as

theorem sameProperties_iff {as bs : List Property} : sameProperties as bs = true ↔ as = bs := by
  cases as <;> cases bs <;> simp [sameProperties, Property.same_iff, sameProperties_iff]
termination_by structural as

theorem sameDeclarators_iff {as bs : List Declarator} : sameDeclarators as bs = true ↔ as = bs := by
  cases as <;> cases bs <;> simp [sameDeclarators, Declarator.same_iff, sameDeclarators_iff]
termination_by structural as

theorem sameStatements_iff {as bs : List Statement} : sameStatements as bs = true ↔ as = bs := by
  cases as <;> cases bs <;> simp [sameStatements, Statement.same_iff, sameStatements_iff]
termination_by structural as

theorem sameType?_iff {a b : Option TypeNode} : sameType? a b = true ↔ a = b := by
  cases a <;> cases b <;> simp [sameType?, TypeNode.same_iff]
termination_by structural a

theorem sameExpr?_iff {a b : Option Expr} : sameExpr? a b = true ↔ a = b := by
  cases a <;> cases b <;> simp [sameExpr?, Expr.same_iff]
termination_by structural a

theorem sameBlock?_iff {a b : Option Block} : sameBlock? a b = true ↔ a = b := by
  cases a <;> cases b <;> simp [sameBlock?, Block.same_iff]
termination_by structural a

theorem sameStatement?_iff {a b : Option Statement} : sameStatement? a b = true ↔ a = b := by
  cases a <;> cases b <;> simp [sameStatement?, Statement.same_iff]
termination_by structural a

theorem sameStatements?_iff {a b : Option (List Statement)} : sameStatements? a b = true ↔ a = b := by
  cases a <;> cases b <;> simp [sameStatements?, sameStatements_iff]
termination_by structural a

end

/-! ## Instances

A tree is mostly compared with itself, which takes no look inside.
-/

instance : DecidableEq TypeNode := fun a b =>
  withPtrEqDecEq a b fun _ => decidable_of_iff _ TypeNode.same_iff

instance : DecidableEq FunctionBody := fun a b =>
  withPtrEqDecEq a b fun _ => decidable_of_iff _ FunctionBody.same_iff

instance : DecidableEq Param := fun a b =>
  withPtrEqDecEq a b fun _ => decidable_of_iff _ Param.same_iff

instance : DecidableEq Expr := fun a b =>
  withPtrEqDecEq a b fun _ => decidable_of_iff _ Expr.same_iff

instance : DecidableEq Declarator := fun a b =>
  withPtrEqDecEq a b fun _ => decidable_of_iff _ Declarator.same_iff

instance : DecidableEq FunctionDecl := fun a b =>
  withPtrEqDecEq a b fun _ => decidable_of_iff _ FunctionDecl.same_iff

instance : DecidableEq TypeAlias := fun a b =>
  withPtrEqDecEq a b fun _ => decidable_of_iff _ TypeAlias.same_iff

instance : DecidableEq Statement := fun a b =>
  withPtrEqDecEq a b fun _ => decidable_of_iff _ Statement.same_iff

end Recheck.Syntax
