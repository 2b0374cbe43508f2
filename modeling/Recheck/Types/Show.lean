import Recheck.Text.Chars
import Recheck.Types.Union

/-!
# Types as text

The form in which messages show types. It can be read as a type again, names of interfaces and strings
with quotes aside.
-/

set_option autoImplicit false

namespace Recheck

open Syntax (KeywordType LiteralType)

/-- The text of a literal type. Characters of a string are not escaped. -/
def showLiteral : LiteralType → String
  | .string value => "\"" ++ value ++ "\""
  | .number text => text
  | .bool value => if value then "true" else "false"

/-- The text with parentheses around it when asked. -/
def enclosed (inParens : Bool) (text : String) : String :=
  if inParens then "(" ++ text ++ ")" else text

def Ty.isFunction : Ty → Bool
  | .function _ => true
  | _ => false

def Ty.isUnion : Ty → Bool
  | .union _ => true
  | _ => false

mutual

/-- The text of a type. -/
def Ty.text : Ty → String
  | .keyword word => word.name
  | .literal value => showLiteral value
  | .array element => enclosed (element.isUnion || element.isFunction) (Ty.text element) ++ "[]"
  | .tuple elements => "[" ++ Chars.intercalate ", " (Ty.texts elements) ++ "]"
  | .union members => Chars.intercalate " | " (Ty.memberTexts members)
  | .object type => ObjectTy.text type
  | .function type => FunctionTy.text type

def Ty.texts : List Ty → List String
  | [] => []
  | t :: rest => Ty.text t :: Ty.texts rest

/-- The members of a union; functions stand in parentheses. -/
def Ty.memberTexts : List Ty → List String
  | [] => []
  | t :: rest => enclosed t.isFunction (Ty.text t) :: Ty.memberTexts rest

/-- The text of an object type: its name, or its index and properties in braces. -/
def ObjectTy.text : ObjectTy → String
  | ⟨some name, _, _⟩ => name
  | ⟨none, [], none⟩ => "\x7b\x7d"
  | ⟨none, properties, none⟩ => "\x7b " ++ PropertyTy.texts properties ++ "\x7d"
  | ⟨none, properties, some index⟩ =>
    "\x7b [x: string]: " ++ Ty.text index ++ "; " ++ PropertyTy.texts properties ++ "\x7d"

def PropertyTy.texts : List PropertyTy → String
  | [] => ""
  | ⟨name, type, optional⟩ :: rest =>
    name ++ (if optional then "?" else "") ++ ": " ++ Ty.text type ++ "; " ++ PropertyTy.texts rest

def FunctionTy.text : FunctionTy → String
  | ⟨params, ret⟩ => "(" ++ Chars.intercalate ", " (ParamTy.texts params) ++ ") => " ++ Ty.text ret

/-- The parameters; a rest parameter shows the type of all its arguments together. -/
def ParamTy.texts : List ParamTy → List String
  | [] => []
  | ⟨name, type, optional, rest⟩ :: others =>
    ((if rest then "..." else "") ++ name ++ (if optional then "?" else "") ++ ": " ++ Ty.text type ++
      (if rest then "[]" else "")) :: ParamTy.texts others

end

/-- The text of a type beside one it does not fit: literals are shown only where the other type has
some. -/
def Ty.textAgainst (source target : Ty) : String :=
  if target.hasLiteral then source.text else source.widen.text

end Recheck
