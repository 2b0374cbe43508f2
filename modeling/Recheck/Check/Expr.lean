import Recheck.Check.Assign
import Recheck.Check.Declaration

/-!
# Types of expressions

The type of an expression is worked out from its parts, whose faults are reported on the way. The type
that is expected, where there is one, decides which literals are kept and whether parameters need types.
-/

set_option autoImplicit false

namespace Recheck.Check

open Syntax

/-! ## Operators -/

def binaryType (op : BinaryOp) (left right : Ty) : Ty :=
  match op with
  | .add =>
    if left.isStringLike || right.isStringLike then .string
    else if left.isNumberLike && right.isNumberLike then .number
    else .any
  | .sub | .mul | .div | .rem | .bitAnd | .bitOr => .number
  | .eq | .strictEq | .notEq | .strictNotEq | .lt | .gt | .ltEq | .gtEq => .boolean
  | .and => right
  | .or | .coalesce => Ty.unionOf [left.nonNullable, right]

def unaryType : UnaryOp → Ty
  | .not => .boolean
  | .neg | .plus | .increment => .number
  | .typeof => .string
  | .void => .undefined

/-! ## Names and members -/

/-- The type of a variable. A name that is only a type is no fault. -/
def identType (name : String) (span : Span) (site : Site) : CheckM Ty := do
  match ← lookupValue site.scope name with
  | some symbol => valueType symbol
  | none =>
    if ((← bindings).lookupType site.scope name).isNone then report (.unknownName name) span
    return .any

/-- The type of a member. Of types that are no object types nothing is known. -/
def propertyType (object : Ty) (property : Ident) : CheckM Ty := do
  let target := object.nonNullable
  match target with
  | .object _ =>
    match target.property? property.name with
    | some type => return type
    | none =>
      report (.unknownProperty property.name target.text) property.span
      return .any
  | _ => return .any

/-- The type of a member of a variable, which may be a module. -/
def memberOfSymbol (symbol : ValueSymbol) (property : Ident) : CheckM Ty := do
  match ← resolveValue symbol with
  | some (.ofModule ref) =>
    match (← bindings).exportedValue ref property.name with
    | .found symbol => valueType symbol
    | _ => return .any
  | _ => propertyType (← valueType symbol) property

def memberExprType (object : Expr) (property : Ident) (site : Site) : CheckM Ty := do
  let found ← match object.kind with
    | .ident name => lookupValue site.scope name
    | _ => pure none
  match found with
  | some symbol => memberOfSymbol symbol property
  | none => propertyType (← exprType object site none) property

/-- The type of what an index gives. -/
def indexedType : Ty → Ty
  | .array element => element
  | .tuple elements => Ty.unionOf elements
  | .object o => o.index.getD .any
  | _ => .any

/-! ## Literals -/

/-- The type that is expected of the items of an array. -/
def elementContext? : Option Ty → Option Ty
  | some (.array element) => some element
  | _ => none

def arrayType (items : List Expr) (site : Site) (expected : Option Ty) : CheckM Ty := do
  let types ← items.mapM fun item => do return (← exprType item site (elementContext? expected)).widen
  if types.isEmpty then return .array .any else return .array (Ty.unionOf types)

/-- The type that is expected of a property. -/
def propertyContext? (expected : Option Ty) (name : String) : Option Ty :=
  match expected with
  | some (.object o) => (o.property? name).map (·.type)
  | _ => none

/-- Adds a property of an object literal to its type, or all that is known of a spread value. A literal
is kept where one is expected. -/
def addProperty (expected : Option Ty) (site : Site) (object : ObjectTy) (p : Property) :
    CheckM ObjectTy := do
  if p.name.name = indexName then
    match ← exprType p.value site none with
    | .object spread => return spread.properties.foldl (·.insert ·) object
    | _ => return object
  else
    let context := propertyContext? expected p.name.name
    let type ← exprType p.value site context
    let type := if context.any (·.hasLiteral) then type else type.widen
    return object.insert ⟨p.name.name, type, false⟩

def objectLiteralType (properties : List Property) (site : Site) (expected : Option Ty) : CheckM Ty := do
  return .object (← properties.foldlM (addProperty expected site) ObjectTy.empty)

/-! ## Calls -/

/-- Where the wrong number of arguments shows: at those beyond the last parameter, else at the call. -/
def argumentSpan (call : Span) (extra : List Expr) : Span :=
  match extra with
  | [] => call
  | first :: rest => match rest.getLast? with
    | some last => first.span.merge last.span
    | none => first.span

/-- The finding about the number of arguments. -/
def arityFault? (f : FunctionTy) (given : Nat) : Option Fault :=
  match f.maxArgs? with
  | some most =>
    if given < f.minArgs || most < given then some (.argumentCount f.minArgs most given) else none
  | none => none

def checkArity (f : FunctionTy) (call : Span) (args : List Expr) : CheckM Unit := do
  match arityFault? f args.length with
  | some fault => report fault (argumentSpan call (args.drop (f.maxArgs?.getD args.length)))
  | none => return

/-- Checks an argument against the parameter it is for, if there is one. -/
def checkArgument (f : FunctionTy) (site : Site) (arg : Expr × Nat) : CheckM Unit := do
  let (arg, i) := arg
  match f.paramType? i with
  | some expected =>
    let actual ← exprType arg site (some expected)
    checkAssignable arg actual expected arg.span .argument
  | none => discard (exprType arg site (some .any))

def callType (call : Span) (callee : Expr) (args : List Expr) (site : Site) : CheckM Ty := do
  let type ← exprType callee site none
  match type.nonNullable with
  | .function f =>
    checkArity f call args
    args.zipIdx.forM (checkArgument f site)
    return f.ret
  | _ =>
    args.forM fun arg => discard (exprType arg site (some .any))
    return .any

/-! ## Functions -/

/-- The finding about a parameter of which nothing says what it is. -/
def untyped? (noImplicitAny contextual : Bool) (param : Param) : Bool :=
  param.type.isNone && param.default.isNone && !param.rest && !contextual && noImplicitAny

def checkParam (contextual : Bool) (site : Site) (param : Param) : CheckM Unit := do
  let declared ← param.type.mapM (typeMeaning · site)
  if let some value := param.default then
    let actual ← exprType value site declared
    if let some declared := declared then checkAssignable value actual declared value.span .assignment
  if untyped? (← options).noImplicitAny contextual param then
    report (.untypedParameter param.name.name) param.name.span

def checkParams (params : List Param) (contextual : Bool) (site : Site) : CheckM Unit :=
  params.forM (checkParam contextual site)

/-- Checks a value against the type it is declared to have, if it is declared. -/
def checkAgainst (value : Expr) (declared : Option Ty) (site : Site) (span : Span) : CheckM Unit := do
  let actual ← exprType value site declared
  if let some declared := declared then checkAssignable value actual declared span .assignment

/-- The statements of a function body in braces. -/
def bodyStatements : FunctionBody → List Statement
  | .block block => block.statements
  | .expr _ => []

/-- Checks what a function expression says in itself. -/
def checkFunctionExpr (params : List Param) (returnType : Option TypeNode) (body : FunctionBody)
    (contextual : Bool) (inner : Site) : CheckM Unit := do
  checkParams params contextual inner
  let declared ← returnType.mapM (typeMeaning · inner)
  match body with
  | .block block => block.statements.forM (checkStatement · inner declared)
  | .expr value => checkAgainst value declared inner value.span

/-- The type of a function expression. Its body is checked each time the expression is looked at, its
type is worked out once. -/
def functionExprType (start : Nat) (params : List Param) (returnType : Option TypeNode)
    (body : FunctionBody) (site : Site) (expected : Option Ty) : CheckM Ty := do
  let inner ← functionSite .functionExpr start site [] params (bodyStatements body)
  unless ← isQuiet do checkFunctionExpr params returnType body expected.isSome inner
  declared (.functionExpr params returnType body inner)

/-! ## All expressions -/

def exprRule (expr : Expr) (site : Site) (expected : Option Ty) : CheckM Ty := do
  match expr.kind with
  | .ident name => identType name expr.span site
  | .string value => return .literal (.string value)
  | .template => return .string
  | .number text => return .literal (.number text)
  | .bool value => return .literal (.bool value)
  | .null => return .null
  | .this | .error => return .any
  | .object properties => objectLiteralType properties site expected
  | .array items => arrayType items site expected
  | .member object property => memberExprType object property site
  | .index object index =>
    let type ← exprType object site none
    discard (exprType index site none)
    return indexedType type
  | .call callee args => callType expr.span callee args site
  | .new callee args =>
    discard (exprType callee site none)
    args.forM fun arg => discard (exprType arg site (some .any))
    return .any
  | .assign target value plain =>
    let targetType ← exprType target site none
    let valueType ← exprType value site (some targetType)
    if plain then checkAssignable value valueType targetType target.span .assignment
    return valueType
  | .binary op left right =>
    let leftType ← exprType left site none
    let rightType ← exprType right site none
    return binaryType op leftType rightType
  | .unary op operand =>
    discard (exprType operand site none)
    return unaryType op
  | .conditional condition thenValue elseValue =>
    discard (exprType condition site none)
    let thenType ← exprType thenValue site expected
    let elseType ← exprType elseValue site expected
    return Ty.unionOf [thenType, elseType]
  | .function params returnType body =>
    functionExprType expr.span.start params returnType body site expected
  | .cast value type =>
    discard (exprType value site none)
    typeMeaning type site

end Recheck.Check
