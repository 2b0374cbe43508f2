import Recheck.Diagnostic.Basic

/-!
# Semantic faults

What the checker has to say about a program whose text is well formed. Types appear as they are shown.
-/

set_option autoImplicit false

namespace Recheck.Check

/-- A finding of the checker. -/
inductive Fault where
  | unknownName (name : String)
  | unknownModule (specifier : String)
  | notExported (specifier : String) (name : String)
  | unknownProperty (name : String) (type : String)
  | notAssignable (source : String) (target : String)
  | argumentNotAssignable (source : String) (target : String)
  /-- An object literal names a property that its target does not have. -/
  | excessProperty (name : String) (target : String)
  | missingProperty (name : String) (source : String) (target : String)
  | redeclared (name : String)
  /-- A call has too few or too many arguments. -/
  | argumentCount (least : Nat) (most : Nat) (given : Nat)
  | untypedVariable (name : String)
  | untypedParameter (name : String)
  | unused (name : String)
deriving DecidableEq, Repr, Inhabited

namespace Fault

/-- The number under which a finding is reported. -/
def code : Fault → Nat
  | unknownName _ => 2304
  | unknownModule _ => 2307
  | notExported .. => 2305
  | unknownProperty .. => 2339
  | notAssignable .. => 2322
  | argumentNotAssignable .. => 2345
  | excessProperty .. => 2353
  | missingProperty .. => 2741
  | redeclared _ => 2451
  | argumentCount .. => 2554
  | untypedVariable _ => 7005
  | untypedParameter _ => 7006
  | unused _ => 6133

/-- All findings are errors, but for names that are only superfluous. -/
def severity : Fault → Severity
  | unused _ => .suggestion
  | _ => .error

/-- A text between quotes. -/
def quote (text : String) : String := "'" ++ text ++ "'"

/-- The number of arguments that a function takes. -/
def countText (least most : Nat) : String :=
  if least = most then toString least else toString least ++ "-" ++ toString most

def message : Fault → String
  | unknownName name => "Cannot find name " ++ quote name ++ "."
  | unknownModule specifier =>
    "Cannot find module " ++ quote specifier ++ " or its corresponding type declarations."
  | notExported specifier name =>
    "Module '\"" ++ specifier ++ "\"' has no exported member " ++ quote name ++ "."
  | unknownProperty name type => "Property " ++ quote name ++ " does not exist on type " ++ quote type ++ "."
  | notAssignable source target =>
    "Type " ++ quote source ++ " is not assignable to type " ++ quote target ++ "."
  | argumentNotAssignable source target =>
    "Argument of type " ++ quote source ++ " is not assignable to parameter of type " ++ quote target ++ "."
  | excessProperty name target =>
    "Object literal may only specify known properties, and " ++ quote name ++
      " does not exist in type " ++ quote target ++ "."
  | missingProperty name source target =>
    "Property " ++ quote name ++ " is missing in type " ++ quote source ++ " but required in type " ++
      quote target ++ "."
  | redeclared name => "Cannot redeclare block-scoped variable " ++ quote name ++ "."
  | argumentCount least most given =>
    "Expected " ++ countText least most ++ " arguments, but got " ++ toString given ++ "."
  | untypedVariable name => "Variable " ++ quote name ++ " implicitly has an 'any' type."
  | untypedParameter name => "Parameter " ++ quote name ++ " implicitly has an 'any' type."
  | unused name => quote name ++ " is declared but its value is never read."

end Fault

/-- A finding and its place in the file under check. -/
structure Report where
  fault : Fault
  span : Span
deriving DecidableEq, Repr, Inhabited

/-- The diagnostic of a finding. -/
def Report.toDiagnostic (r : Report) (source : Source) : Diagnostic :=
  (Diagnostic.ofMessage r.fault.severity r.fault.code r.fault.message).locate source r.span

end Recheck.Check
