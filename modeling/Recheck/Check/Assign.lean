import Recheck.Check.Question

/-!
# Checking assignments

A value that does not fit is reported once, as closely as it can be said: a property that an object
literal should not have, one that does not fit, one that is missing, or else the types as a whole.
-/

set_option autoImplicit false

namespace Recheck.Check

open Syntax

/-- Why a value has to fit a type. -/
inductive Relationship where
  | assignment
  | argument
deriving DecidableEq, Repr, Inhabited

/-- The property of an object literal that its target does not know. Targets that take any property, or
list none, know all. -/
def excessProperty? (properties : List Property) (target : ObjectTy) : Option Property :=
  if target.index.isNone && !target.properties.isEmpty then
    properties.find? fun p => p.name.name ≠ indexName && !target.hasProperty p.name.name
  else none

/-- The property of an object literal whose value does not fit, with both types. -/
def unfitProperty? (strict : Bool) (properties : List Property) (source target : ObjectTy) :
    Option (Property × Ty × Ty) :=
  properties.findSome? fun p =>
    match source.property? p.name.name, target.property? p.name.name with
    | some actual, some expected =>
      if Ty.isAssignable strict actual.type expected.type then none
      else some (p, actual.type, expected.type)
    | _, _ => none

/-- The finding about an object literal for an object type, and its place. -/
def literalFault? (strict : Bool) (properties : List Property) (source : Ty) (target : ObjectTy)
    (relationship : Relationship) : Option (Fault × Span) :=
  match excessProperty? properties target with
  | some p => some (.excessProperty p.name.name (Ty.object target).text, p.name.span)
  | none =>
    match source, relationship with
    | .object source, .assignment =>
      (unfitProperty? strict properties source target).map fun (p, actual, expected) =>
        (.notAssignable (actual.textAgainst expected) expected.text, p.name.span)
    | _, _ => none

/-- The finding about types that do not fit as a whole. -/
def mismatch (source target : Ty) (relationship : Relationship) : Fault :=
  let missing := match source, target, relationship with
    | .object s, .object t, .assignment => s.missing? t
    | _, _, _ => none
  match missing, relationship with
  | some name, _ => .missingProperty name source.text target.text
  | none, .assignment => .notAssignable (source.textAgainst target) target.text
  | none, .argument => .argumentNotAssignable (source.textAgainst target) target.text

/-- The finding about a value of one type where another is expected, and its place: `span`, or a property
of the value if that is an object literal. -/
def assignFault? (strict : Bool) (value : Expr) (source target : Ty) (span : Span)
    (relationship : Relationship) : Option (Fault × Span) :=
  let inLiteral := match value.kind, target with
    | .object properties, .object t => literalFault? strict properties source t relationship
    | _, _ => none
  match inLiteral with
  | some found => some found
  | none =>
    if Ty.isAssignable strict source target then none
    else some (mismatch source target relationship, span)

/-- Checks that a value fits. -/
def checkAssignable (value : Expr) (source target : Ty) (span : Span) (relationship : Relationship) :
    CheckM Unit := do
  match assignFault? (← options).strictNullChecks value source target span relationship with
  | some (fault, span) => report fault span
  | none => return

end Recheck.Check
