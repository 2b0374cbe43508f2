import Recheck.Diagnostic.Basic

/-!
# Syntax faults

What can be wrong with a text before anything is known about its names and types. A fault is found at a
span; it becomes a diagnostic once the source is at hand.
-/

set_option autoImplicit false

namespace Recheck.Syntax

/-- A reason why a text is not well formed. -/
inductive Fault where
  /-- A block comment runs to the end of the text. -/
  | openComment
  /-- A string literal meets the end of its line. -/
  | openString
  /-- A template literal runs to the end of the text. -/
  | openTemplate
  /-- A character that begins no token. -/
  | strayCharacter
  /-- Some token had to stand here. -/
  | expected (what : String)
  | identifierExpected
  | stringExpected
  | expressionExpected
  | typeExpected
  | statementExpected
deriving DecidableEq, Repr, Inhabited

namespace Fault

/-- The number under which a fault is reported. -/
def code : Fault → Nat
  | openComment => 1010
  | openString => 1002
  | openTemplate => 1160
  | strayCharacter => 1127
  | expected _ => 1005
  | identifierExpected => 1003
  | stringExpected => 1141
  | expressionExpected => 1109
  | typeExpected => 1110
  | statementExpected => 1128

def message : Fault → String
  | openComment => "'*/' expected."
  | openString => "Unterminated string literal."
  | openTemplate => "Unterminated template literal."
  | strayCharacter => "Invalid character."
  | expected what => "'" ++ what ++ "' expected."
  | identifierExpected => "Identifier expected."
  | stringExpected => "String literal expected."
  | expressionExpected => "Expression expected."
  | typeExpected => "Type expected."
  | statementExpected => "Declaration or statement expected."

end Fault

/-- A fault and where it was found. -/
structure Report where
  fault : Fault
  span : Span
deriving DecidableEq, Repr, Inhabited

/-- The diagnostic of a fault; every one is an error. -/
def Report.toDiagnostic (r : Report) (source : Source) : Diagnostic :=
  (Diagnostic.ofMessage .error r.fault.code r.fault.message).locate source r.span

end Recheck.Syntax
