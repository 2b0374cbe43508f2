import Recheck.Types.Union

/-!
# Assignability

Whether a value of one type may stand where another is expected. The rules are one step that compares
parts through a given relation; the checker iterates the step to a fixed depth, below which it takes
everything for assignable.
-/

set_option autoImplicit false

namespace Recheck

namespace Ty

/-- The depth to which types are compared. -/
def comparisonDepth : Nat := 8

/-- Functions: parameters are compared in both directions, and a result is of no interest to a caller
that expects none. -/
def functionStep (part : Ty → Ty → Bool) (source target : FunctionTy) : Bool :=
  !(target.params.length < source.minArgs && target.maxArgs?.isSome) &&
    source.params.zipIdx.all (fun (p, i) =>
      match target.paramType? i with
      | some t => part t p.type || part p.type t
      | none => true) &&
    (target.ret matches void || part source.ret target.ret)

/-- Object types: nothing required is missing, what both have fits, and so does every property under an
index of the target. -/
def objectStep (part : Ty → Ty → Bool) (source target : ObjectTy) : Bool :=
  (source.missing? target).isNone &&
    target.properties.all (fun p =>
      match source.property? p.name with
      | some q => part q.type p.type
      | none => true) &&
    (match target.index with
      | some index => source.properties.all fun p => part p.type index
      | none => true)

def isStructured : Ty → Bool
  | object _ => true
  | array _ => true
  | tuple _ => true
  | function _ => true
  | _ => false

/-- Whether an object type says nothing about its values. -/
def isOpen (o : ObjectTy) : Bool := o.properties.isEmpty && o.index.isNone

/-- Types that are no unions. -/
def plainStep (part : Ty → Ty → Bool) (source target : Ty) : Bool :=
  match source, target with
  | undefined, void => true
  | literal value, keyword word => ofLiteral value == keyword word
  | s, nonPrimitive => s.isStructured
  | array s, array t => part s t
  | tuple ss, array t => ss.all (part · t)
  | tuple ss, tuple ts => ss.length = ts.length && (ss.zip ts).all fun (s, t) => part s t
  | s, object t =>
    if isOpen t then !(s.isNullish || s matches void)
    else match s with
      | object s => objectStep part s t
      | _ => false
  | function s, function t => functionStep part s t
  | _, _ => false

/-- One step of the comparison of types that are not equal. -/
def assignableStep (strict : Bool) (part : Ty → Ty → Bool) (source target : Ty) : Bool :=
  if target matches any || target matches unknown then true
  else if source matches any || source matches never then true
  else match source with
    | union members => members.all (part · target)
    | s =>
      if s.isNullish && !strict then true
      else match target with
        | union members => members.any (part s ·)
        | t => plainStep part s t

/-- The comparison with so many steps left. -/
def assignableWithin (strict : Bool) : Nat → Ty → Ty → Bool
  | 0, _, _ => true
  | n + 1, source, target =>
    source == target || assignableStep strict (assignableWithin strict n) source target

/-- Whether a value of the source type may stand for one of the target type. With `strict`, `null` and
`undefined` are types of their own. -/
def isAssignable (strict : Bool) (source target : Ty) : Bool :=
  assignableWithin strict (comparisonDepth + 1) source target

end Ty

end Recheck
