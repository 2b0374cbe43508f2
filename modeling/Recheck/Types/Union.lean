import Recheck.Types.Basic

/-!
# Unions and literals

`Ty.unionOf` is the only way in which unions are made, so no union holds a union, two equal members, or a
literal beside its own primitive. Widening forgets which literal a value was.
-/

set_option autoImplicit false

namespace Recheck

open Syntax (KeywordType LiteralType)

namespace Ty

/-- The primitive type of a literal. -/
def ofLiteral : LiteralType → Ty
  | .string _ => string
  | .number _ => number
  | .bool _ => boolean

/-- The primitive type of a literal type. -/
def primitive? : Ty → Option Ty
  | literal value => some (ofLiteral value)
  | _ => none

/-- The type behind the others, unless it is among them. -/
def pushNew (types : List Ty) (t : Ty) : List Ty := if types.any (· == t) then types else types ++ [t]

/-- Adds a member to a flat list: `never` adds nothing, a union its members. -/
def addMember (types : List Ty) : Ty → List Ty
  | never => types
  | union members => members.foldl pushNew types
  | t => pushNew types t

/-- The members of a union, flat and each once. -/
def flatten (types : List Ty) : List Ty := types.foldl addMember []

/-- Whether a literal stands beside its own primitive and so adds nothing. -/
def isAbsorbed (types : List Ty) (t : Ty) : Bool :=
  match t.primitive? with
  | some base => types.any (base == ·)
  | none => false

/-- The union of some types. -/
def unionOf (types : List Ty) : Ty :=
  if types.any (· matches any) then any
  else
    let flat := flatten types
    match flat.filter fun t => !isAbsorbed flat t with
    | [] => never
    | [t] => t
    | members => union members

mutual

/-- The type with its literals replaced by their primitives. Parts of objects, arrays and functions keep
theirs. -/
def widen : Ty → Ty
  | literal value => ofLiteral value
  | union members => unionOf (widenAll members)
  | t => t

def widenAll : List Ty → List Ty
  | [] => []
  | t :: rest => widen t :: widenAll rest

end

mutual

/-- Whether the type is a literal or a union with one. -/
def hasLiteral : Ty → Bool
  | literal _ => true
  | union members => anyLiteral members
  | _ => false

def anyLiteral : List Ty → Bool
  | [] => false
  | t :: rest => hasLiteral t || anyLiteral rest

end

mutual

/-- Whether all values of the type are strings, as far as it shows. -/
def isStringLike : Ty → Bool
  | string => true
  | literal (.string _) => true
  | union members => allStringLike members
  | _ => false

def allStringLike : List Ty → Bool
  | [] => true
  | t :: rest => isStringLike t && allStringLike rest

end

mutual

/-- Whether all values of the type are numbers, as far as it shows. -/
def isNumberLike : Ty → Bool
  | number => true
  | literal (.number _) => true
  | union members => allNumberLike members
  | _ => false

def allNumberLike : List Ty → Bool
  | [] => true
  | t :: rest => isNumberLike t && allNumberLike rest

end

def isNullish : Ty → Bool
  | null => true
  | undefined => true
  | _ => false

/-- A union without `null` and `undefined`. -/
def nonNullable : Ty → Ty
  | union members => unionOf (members.filter fun m => !m.isNullish)
  | t => t

@[simp] theorem widenAll_eq_map (types : List Ty) : widenAll types = types.map widen := by
  induction types with
  | nil => rfl
  | cons t rest ih => simp [widenAll, ih]

@[simp] theorem anyLiteral_eq_any (types : List Ty) : anyLiteral types = types.any hasLiteral := by
  induction types with
  | nil => rfl
  | cons t rest ih => simp [anyLiteral, ih]

end Ty

end Recheck
