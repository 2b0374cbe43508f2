import Recheck.Syntax.Parser.Basic

/-!
# The grammar as open recursion

Types, expressions and statements contain each other to any depth. Each production is a plain function
of a `Grammar`, which reads the parts one level further down; `Parser/Program` ties the knot. A
production turns to its `Grammar` only after it has read a token of its own, so as many levels as there
are tokens are enough.

Here are the productions that types, expressions and declarations share.
-/

set_option autoImplicit false

namespace Recheck.Syntax.Parser

/-- The parts that may occur inside others. -/
structure Grammar where
  /-- A whole type. -/
  type : Parse TypeNode
  /-- A type without unions, intersections or function arrows of its own. -/
  postfixType : Parse TypeNode
  /-- An expression as it stands between commas. -/
  expr : Parse Expr
  /-- An expression whose operators bind at least this tightly. -/
  binary : Nat → Parse Expr
  /-- An operand. -/
  unary : Parse Expr
  statement : Parse Statement

namespace Grammar

/-- Reads nothing. -/
def exhausted : Grammar where
  type := return default
  postfixType := return default
  expr := return default
  binary _ := return default
  unary := return default
  statement := return default

end Grammar

variable (g : Grammar)

/-- A type behind a token that announces it. -/
def typeAfter (k : TokenKind) : Parse (Option TypeNode) := do
  if ← eat k then return some (← g.type) else return none

/-- An expression behind a token that announces it. -/
def exprAfter (k : TokenKind) : Parse (Option Expr) := do
  if ← eat k then return some (← g.expr) else return none

/-- One type parameter. Its bound and its default are read and forgotten. -/
def typeParam : Parse Ident := do
  discard (eatWord "const")
  let name ← expectIdent
  if ← eatWord "extends" then discard g.type
  discard (typeAfter g .eq)
  return name

/-- The names of type parameters between angle brackets, if there are any. -/
def typeParams : Parse (List Ident) := do
  if ← eat .lt then
    let names ← commaList .gt (typeParam g)
    expect .gt
    return names
  else return []

/-- One parameter. -/
def param : Parse Param := do
  let start ← currentSpan
  let rest ← eat .dotDotDot
  let name ← if ← atKind .this then takeIdent else expectIdent
  let optional ← eat .question
  let type ← typeAfter g .colon
  let default ← exprAfter g .eq
  return ⟨name, optional, rest, type, default, ← spanFrom start⟩

/-- Parameters in parentheses. -/
def params : Parse (List Param) := do
  expect .lParen
  let items ← commaList .rParen (param g)
  expect .rParen
  return items

/-- One statement, unless a closing brace follows. -/
def statementStep (items : List Statement) : Parse (Step (List Statement)) := do
  if (← atEnd) || (← atKind .rBrace) then return .done items
  return .more ((← g.statement) :: items)

/-- Statements up to a closing brace, which is read too. -/
def statementList : Parse (List Statement) := do
  let items ← repeating (statementStep g) []
  expect .rBrace
  return items.reverse

def block : Parse Block := do
  let start ← currentSpan
  expect .lBrace
  let statements ← statementList g
  return ⟨statements, ← spanFrom start⟩

end Recheck.Syntax.Parser
