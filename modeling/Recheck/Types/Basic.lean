import Recheck.Syntax.Tree

/-!
# Types

What an expression or an annotation means. Object types list their properties in the order in which they
were declared, which is how they are shown; for equality the order does not count.
-/

set_option autoImplicit false

namespace Recheck

open Syntax (KeywordType LiteralType)

mutual

inductive Ty where
  /-- A type that is written as one word. -/
  | keyword (word : KeywordType)
  /-- The type of one value. -/
  | literal (value : LiteralType)
  | array (element : Ty)
  | tuple (elements : List Ty)
  | union (members : List Ty)
  | object (type : ObjectTy)
  | function (type : FunctionTy)

/-- An object type. `index` is the type of all properties that are not listed; an interface has a name. -/
structure ObjectTy where
  name : Option String
  properties : List PropertyTy
  index : Option Ty

/-- A property of an object type. -/
structure PropertyTy where
  name : String
  type : Ty
  optional : Bool

structure FunctionTy where
  params : List ParamTy
  ret : Ty

/-- A parameter of a function type. The type of a rest parameter is that of one argument. -/
structure ParamTy where
  name : String
  type : Ty
  optional : Bool
  rest : Bool

end

namespace Ty

@[match_pattern] abbrev any : Ty := keyword .any
@[match_pattern] abbrev unknown : Ty := keyword .unknown
@[match_pattern] abbrev never : Ty := keyword .never
@[match_pattern] abbrev void : Ty := keyword .void
@[match_pattern] abbrev undefined : Ty := keyword .undefined
@[match_pattern] abbrev null : Ty := keyword .null
@[match_pattern] abbrev string : Ty := keyword .string
@[match_pattern] abbrev number : Ty := keyword .number
@[match_pattern] abbrev boolean : Ty := keyword .boolean
/-- The type of all values that are no primitives. -/
@[match_pattern] abbrev nonPrimitive : Ty := keyword .object

instance : Inhabited Ty := ⟨any⟩

end Ty

namespace ObjectTy

/-- The object type without properties. -/
def empty : ObjectTy := ⟨none, [], none⟩

instance : Inhabited ObjectTy := ⟨empty⟩

end ObjectTy

/-! ## Equality -/

/-- The property of this name. -/
def PropertyTy.find? (properties : List PropertyTy) (name : String) : Option PropertyTy :=
  properties.find? (·.name = name)

mutual

/-- Whether two types are equal. Properties may come in any order. -/
def Ty.same : Ty → Ty → Bool
  | .keyword a, .keyword b => a = b
  | .literal a, .literal b => a = b
  | .array a, .array b => Ty.same a b
  | .tuple as, .tuple bs => Ty.sameAll as bs
  | .union as, .union bs => Ty.sameAll as bs
  | .object a, .object b => ObjectTy.same a b
  | .function a, .function b => FunctionTy.same a b
  | _, _ => false

def Ty.sameAll : List Ty → List Ty → Bool
  | [], [] => true
  | a :: as, b :: bs => Ty.same a b && Ty.sameAll as bs
  | _, _ => false

def Ty.same? : Option Ty → Option Ty → Bool
  | none, none => true
  | some a, some b => Ty.same a b
  | _, _ => false

def ObjectTy.same : ObjectTy → ObjectTy → Bool
  | ⟨name, properties, index⟩, b =>
    name = b.name && properties.length = b.properties.length &&
      PropertyTy.within properties b.properties && Ty.same? index b.index

/-- Whether each of some properties has an equal one among others. -/
def PropertyTy.within : List PropertyTy → List PropertyTy → Bool
  | [], _ => true
  | ⟨name, type, optional⟩ :: rest, others =>
    (match PropertyTy.find? others name with
      | some p => Ty.same type p.type && optional = p.optional
      | none => false) && PropertyTy.within rest others

def FunctionTy.same : FunctionTy → FunctionTy → Bool
  | ⟨params, ret⟩, b => ParamTy.sameAll params b.params && Ty.same ret b.ret

def ParamTy.sameAll : List ParamTy → List ParamTy → Bool
  | [], [] => true
  | ⟨name, type, optional, rest⟩ :: as, b :: bs =>
    name = b.name && Ty.same type b.type && optional = b.optional && rest = b.rest &&
      ParamTy.sameAll as bs
  | _, _ => false

end

instance : BEq Ty := ⟨Ty.same⟩

/-! ## Parts of object and function types -/

namespace ObjectTy

def property? (o : ObjectTy) (name : String) : Option PropertyTy := PropertyTy.find? o.properties name

def hasProperty (o : ObjectTy) (name : String) : Bool := (o.property? name).isSome

/-- Sets a property; a new one comes last. -/
def put (p : PropertyTy) : List PropertyTy → List PropertyTy
  | [] => [p]
  | q :: rest => if q.name = p.name then p :: rest else q :: put p rest

def insert (o : ObjectTy) (p : PropertyTy) : ObjectTy := { o with properties := put p o.properties }

/-- Adds a property unless there is one of this name. -/
def insertNew (o : ObjectTy) (p : PropertyTy) : ObjectTy :=
  if o.hasProperty p.name then o else o.insert p

/-- The first property that the target requires and the source lacks. -/
def missing? (source target : ObjectTy) : Option String :=
  (target.properties.find? fun p => !p.optional && !source.hasProperty p.name).map (·.name)

end ObjectTy

namespace FunctionTy

/-- The least number of arguments. -/
def minArgs (f : FunctionTy) : Nat := f.params.countP fun p => !p.optional && !p.rest

/-- The greatest number of arguments, if there is one. -/
def maxArgs? (f : FunctionTy) : Option Nat :=
  if f.params.any (·.rest) then none else some f.params.length

/-- The type of the argument at this place. A rest parameter at the end takes all that follow. -/
def paramType? (f : FunctionTy) (i : Nat) : Option Ty :=
  match f.params[i]? with
  | some p => some p.type
  | none => f.params.getLast?.bind fun p => if p.rest then some p.type else none

end FunctionTy

/-- The type of a property of this name. -/
def Ty.property? (t : Ty) (name : String) : Option Ty :=
  match t with
  | .object o =>
    match o.property? name with
    | some p => some p.type
    | none => o.index
  | _ => none

end Recheck
