import Recheck.Check.Question

/-!
# Types of declarations and annotations

The type of a declaration is computed when it is first asked for, from its annotation or else from its
initial value, default or returned values.
-/

set_option autoImplicit false

namespace Recheck.Check

open Syntax

/-! ## Values -/

/-- The type of a variable. Only a constant keeps its literals, and only a constant can be known to be
`null` or `undefined`. -/
def variableType (decl : Declarator) (kind : VariableKind) (site : Site) : CheckM Ty := do
  match decl.type, decl.init with
  | some type, _ => typeMeaning type site
  | none, none => return .any
  | none, some init =>
    let type ← exprType init site none
    if kind = .const then return type
    else if type.isNullish then return .any
    else return type.widen

def paramType (param : Param) (site : Site) : CheckM Ty := do
  match param.type, param.default with
  | some type, _ => typeMeaning type site
  | none, some value => return (← exprType value site none).widen
  | none, none => return .any

/-- The type of one argument for a parameter of this type. -/
def argumentType (rest : Bool) (type : Ty) : Ty :=
  if rest then
    match type with
    | .array element => element
    | _ => .any
  else type

def signatureParam (param : Param) (site : Site) : CheckM ParamTy := do
  let type ← paramType param site
  return ⟨param.name.name, argumentType param.rest type, param.optional || param.default.isSome, param.rest⟩

/-- What a function returns, from the values it returns. -/
def inferReturn (statements : List Statement) (site : Site) : CheckM Ty := do
  let types := (← statements.mapM (returnTypes · site)).flatten
  if types.isEmpty then return .void else return (Ty.unionOf types).widen

/-- The type of a function, seen from inside. -/
def signature (params : List Param) (returnType : Option TypeNode) (body : Option FunctionBody)
    (site : Site) : CheckM Ty := do
  let params ← params.mapM (signatureParam · site)
  let ret ← match returnType, body with
    | some type, _ => typeMeaning type site
    | none, some (.expr value) => do pure (← exprType value site none).widen
    | none, some (.block block) => inferReturn block.statements site
    | none, none => pure .any
  return .function ⟨params, ret⟩

/-- The scope of a function declaration. -/
def functionDeclSite (decl : FunctionDecl) (site : Site) : CheckM Site :=
  functionSite .function decl.span.start site decl.typeParams decl.params
    ((decl.body.map (·.statements)).getD [])

def functionDeclType (decl : FunctionDecl) (site : Site) : CheckM Ty := do
  let inner ← functionDeclSite decl site
  signature decl.params decl.returnType (decl.body.map .block) inner

/-- The type of what a value stands for, imports aside. -/
def declaredValueType (symbol : ValueSymbol) : CheckM Ty :=
  match symbol with
  | .declarator decl kind site => declared (.variable decl kind site)
  | .function decl site => declared (.function decl site)
  | .param param site => declared (.param param site)
  | .expr expr site => declared (.exported expr site)
  | .builtin .undefined => return .undefined
  | .builtin _ => return .any
  | .ofModule _ => return .any
  | .imported _ => return .any

/-- The type of what a value stands for. -/
def valueType (symbol : ValueSymbol) : CheckM Ty := do
  match symbol with
  | .imported _ =>
    match ← resolveValue symbol with
    | some target => declaredValueType target
    | none => return .any
  | _ => declaredValueType symbol

/-! ## Interfaces and aliases -/

/-- Adds a member to an object type. -/
def addMember (object : ObjectTy) (member : Member) (site : Site) : CheckM ObjectTy := do
  let type ← match member.type with
    | some type => typeMeaning type site
    | none => pure .any
  if member.name.name = indexName then return { object with index := some type }
  else return object.insert ⟨member.name.name, type, member.optional⟩

/-- Adds what an interface takes over from another. Of a base that is no object type nothing is known, so
it could declare anything. -/
def addBase (object : ObjectTy) (base : Ty) : ObjectTy :=
  match base with
  | .object base =>
    let object := base.properties.foldl (·.insertNew ·) object
    { object with index := object.index.or base.index }
  | _ => { object with index := some .any }

/-- Adds one declaration of an interface. -/
def addDeclaration (scope : ScopeId) (object : ObjectTy) (decl : InterfaceDecl × Path) : CheckM ObjectTy := do
  let (decl, file) := decl
  let inner := typeParamSite .interface decl.span.start ⟨file, scope⟩ decl.typeParams
  let object ← decl.bases.foldlM (fun object base => do return addBase object (← typeMeaning base inner)) object
  decl.members.foldlM (addMember · · inner) object

/-- The type of an interface: its declarations together. -/
def interfaceType (name : String) (scope : ScopeId) : CheckM Ty := do
  let decls := (← bindings).interfaceDecls scope name
  return .object (← decls.foldlM (addDeclaration scope) { ObjectTy.empty with name := some name })

def aliasType (decl : TypeAlias) (site : Site) : CheckM Ty :=
  typeMeaning decl.type (typeParamSite .typeAlias decl.span.start site decl.typeParams)

/-- The type of what a name stands for, imports aside. Only arrays look at their arguments. -/
def declaredType (symbol : TypeSymbol) (args : List Ty) : CheckM Ty := do
  match symbol with
  | .interface name scope =>
    if ((← bindings).interfaceDecls scope name).isEmpty then return .any
    else declared (.interface name scope)
  | .typeAlias decl site => declared (.typeAlias decl site)
  | .builtin .array => return .array (args.head?.getD .any)
  | .builtin _ => return .any
  | .typeParam => return .any
  | .ofModule _ => return .any
  | .imported _ => return .any

/-- The type of what a name stands for. -/
def symbolType (symbol : TypeSymbol) (args : List Ty) : CheckM Ty := do
  match symbol with
  | .imported _ =>
    match ← resolveTypeSymbol symbol with
    | some target => declaredType target args
    | none => return .any
  | _ => declaredType symbol args

/-! ## Annotations -/

/-- The type of a dotted name inside a module. -/
def memberType (b : Bindings) : ModuleRef → List Ident → Option TypeSymbol
  | _, [] => none
  | ref, [last] => (b.exportedType ref last.name).toOption
  | ref, part :: rest =>
    match b.exportedType ref part.name with
    | .found (.ofModule next) => memberType b next rest
    | _ => none

/-- The meaning of a named type. -/
def referenceType (name : List Ident) (args : List TypeNode) (site : Site) : CheckM Ty := do
  let args ← args.mapM (typeMeaning · site)
  match name with
  | [] => return .any
  | first :: rest =>
    match ← lookupType site.scope first.name with
    | none =>
      report (.unknownName first.name) first.span
      return .any
    | some symbol =>
      if rest.isEmpty then symbolType symbol args
      else
        match ← resolveTypeSymbol symbol with
        | some (.ofModule ref) =>
          match memberType (← bindings) ref rest with
          | some symbol => symbolType symbol args
          | none => return .any
        | _ => return .any

/-- The meaning of the type of a value. -/
def typeofType (name : List Ident) (site : Site) : CheckM Ty := do
  match name with
  | [] => return .any
  | first :: rest =>
    match ← lookupValue site.scope first.name with
    | none =>
      report (.unknownName first.name) first.span
      return .any
    | some symbol => if rest.isEmpty then valueType symbol else return .any

/-- The parameters of a function type; the type of a rest parameter is taken as written. -/
def annotatedParam (param : Param) (site : Site) : CheckM ParamTy := do
  let type ← match param.type with
    | some type => typeMeaning type site
    | none => pure .any
  return ⟨param.name.name, type, param.optional, param.rest⟩

/-- The properties of all members together, if all are object types. -/
def intersect (members : List Ty) : Ty :=
  let merged := members.foldlM (fun (out : ObjectTy) member =>
    match member with
    | .object o =>
      let out := o.properties.foldl (·.insert ·) out
      some { out with index := out.index.or o.index }
    | _ => none) ObjectTy.empty
  match merged with
  | some o => .object o
  | none => .any

/-- The meaning of a type. -/
def typeRule (node : TypeNode) (site : Site) : CheckM Ty := do
  match node.kind with
  | .keyword word => return .keyword word
  | .literal value => return .literal value
  | .reference name args => referenceType name args site
  | .union members => return Ty.unionOf (← members.mapM (typeMeaning · site))
  | .intersection members => return intersect (← members.mapM (typeMeaning · site))
  | .array element => return .array (← typeMeaning element site)
  | .tuple elements => return .tuple (← elements.mapM (typeMeaning · site))
  | .object members => return .object (← members.foldlM (addMember · · site) ObjectTy.empty)
  | .function params ret =>
    let params ← params.mapM (annotatedParam · site)
    return .function ⟨params, ← typeMeaning ret site⟩
  | .typeof name => typeofType name site
  | .error => return .any

/-- The types that a statement returns from its function. -/
def returnsRule (stmt : Statement) (site : Site) : CheckM (List Ty) := do
  match stmt with
  | .ret s =>
    match s.value with
    | some value => return [← exprType value site none]
    | none => return [.undefined]
  | .block block =>
    let inner ← blockSite block site
    return (← block.statements.mapM (returnTypes · inner)).flatten
  | .ifElse s =>
    let types ← returnTypes s.thenBranch site
    match s.elseBranch with
    | some stmt => return types ++ (← returnTypes stmt site)
    | none => return types
  | _ => return []

/-! ## All declarations -/

/-- How the type of a declaration is worked out. -/
def declarationRule : Declaration → CheckM Ty
  | .variable decl kind site => variableType decl kind site
  | .function decl site => functionDeclType decl site
  | .param param site => paramType param site
  | .exported expr site => exprType expr site none
  | .interface name scope => interfaceType name scope
  | .typeAlias decl site => aliasType decl site
  | .functionExpr params returnType body site => signature params returnType (some body) site

end Recheck.Check
