import Recheck.Syntax.Parser.Grammar

/-!
# Reading types

Unions of intersections of types with brackets behind them. Some type forms have no meaning to the
checker: they are read and stand for `any` or `string`.
-/

set_option autoImplicit false

namespace Recheck.Syntax.Parser

variable (g : Grammar)

/-- Names with dots between them; words are names behind a dot. -/
def dottedName : Parse (List Ident) := do
  let first ← expectIdent
  separated .dot expectPropertyName first

/-- A named type with its arguments. -/
def typeReference : Parse TypeKind := do
  let name ← dottedName
  if (← atKind .lt) && !(← newlineBefore) then
    advance
    let args ← commaList .gt g.type
    expect .gt
    return .reference name args
  else return .reference name []

/-- Whether an opening parenthesis begins a function type. -/
def atFunctionType : Parse Bool := do
  let s ← get
  match s.kindAt 1 with
  | .rParen | .dotDotDot | .this => return true
  | .identifier =>
    match s.kindAt 2 with
    | .colon | .comma | .question => return true
    | .rParen => return s.kindAt 3 = .arrow
    | _ => return false
  | _ => return false

/-- Parameters, an arrow and the type of the result. -/
def functionType : Parse TypeKind := do
  let ps ← params g
  expect .arrow
  return .function ps (← g.type)

/-- A member that stands for all names: `[key: string]: T`. -/
def indexMember (start : Span) : Parse Member := do
  discard expectIdent
  expect .colon
  discard g.type
  expect .rBracket
  expect .colon
  let type ← g.type
  return ⟨⟨indexName, start⟩, true, some type, ← spanFrom start⟩

/-- A method signature, as a member of function type. -/
def methodType : Parse TypeNode := do
  let start ← currentSpan
  discard (typeParams g)
  let ps ← params g
  let ret := (← typeAfter g .colon).getD ⟨.keyword .any, start⟩
  return ⟨.function ps ret, ← spanFrom start⟩

/-- A member with a name; `none` when no token was read. -/
def namedMember (start : Span) : Parse (Option Member) := do
  let before ← remaining
  let name ← expectPropertyName
  let optional ← eat .question
  let type ← do
    if (← atKind .lParen) || (← atKind .lt) then pure (some (← methodType g))
    else typeAfter g .colon
  if (← remaining) = before then return none
  return some ⟨name, optional, type, ← spanFrom start⟩

/-- What separates two members. Anything else is skipped. -/
def memberEnd : Parse Unit := do
  if ← eat .semicolon then return
  if ← eat .comma then return
  if (← atKind .rBrace) || (← newlineBefore) then return
  report (.expected ";")
  advance

/-- Skips `readonly` in front of a member. -/
def skipReadonly : Parse Unit := do
  if ← atWord "readonly" then
    match ← kindAt 1 with
    | .colon | .question | .lParen => pure ()
    | _ => advance

/-- One member with what separates it from the next. Where none begins, a token is skipped. -/
def memberStep (items : List Member) : Parse (Step (List Member)) := do
  if (← atEnd) || (← atKind .rBrace) then return .done items
  let start ← currentSpan
  skipReadonly
  if ← eat .lBracket then
    let m ← indexMember g start
    memberEnd
    return .more (m :: items)
  else
    match ← namedMember g start with
    | some m =>
      memberEnd
      return .more (m :: items)
    | none =>
      advance
      return .more items

/-- The members of an object type or an interface, between braces. -/
def typeMembers : Parse (List Member) := do
  expect .lBrace
  let items ← repeating (memberStep g) []
  expect .rBrace
  return items.reverse

/-- One element of a tuple type. -/
def tupleElement : Parse TypeNode := do
  discard (eat .dotDotDot)
  let type ← g.type
  discard (eat .question)
  return type

/-- Whether a word stands in front of the type it changes, rather than for a type of its own. -/
def isTypeOperator (word : String) (next : TokenKind) : Bool :=
  word ∈ ["keyof", "readonly", "unique"] && !(next = .dot || next = .comma)

/-- A type that begins with a word. -/
def wordType (start : Span) : Parse TypeNode := do
  let word ← currentText
  match KeywordType.ofName? word with
  | some keyword =>
    advance
    return ⟨.keyword keyword, ← spanFrom start⟩
  | none =>
    if isTypeOperator word (← kindAt 1) then
      advance
      let inner ← g.postfixType
      if word = "keyof" then return ⟨.keyword .string, ← spanFrom start⟩ else return inner
    else
      let kind ← typeReference g
      return ⟨kind, ← spanFrom start⟩

/-- A type that is neither a word nor in parentheses. -/
def otherType : Parse TypeKind := do
  match ← current with
  | .void => advance; return .keyword .void
  | .null => advance; return .keyword .null
  | .true => advance; return .literal (.bool true)
  | .false => advance; return .literal (.bool false)
  | .stringLiteral => return .literal (.string (← expectString).value)
  | .templateLiteral => advance; return .keyword .string
  | .numberLiteral =>
    let text ← currentText
    advance
    return .literal (.number text)
  | .minus =>
    if (← kindAt 1) = .numberLiteral then
      advance
      let text ← currentText
      advance
      return .literal (.number ("-" ++ text))
    else
      report .typeExpected
      return .error
  | .typeof =>
    advance
    return .typeof (← dottedName)
  | .lBrace => return .object (← typeMembers g)
  | .lBracket =>
    advance
    let elements ← commaList .rBracket (tupleElement g)
    expect .rBracket
    return .tuple elements
  | .lt =>
    discard (typeParams g)
    functionType g
  | .new =>
    advance
    discard (typeParams g)
    functionType g
  | _ =>
    report .typeExpected
    return .error

/-- A type without brackets behind it. -/
def primaryType : Parse TypeNode := do
  let start ← currentSpan
  match ← current with
  | .identifier => wordType g start
  | .lParen =>
    if ← atFunctionType then
      let kind ← functionType g
      return ⟨kind, ← spanFrom start⟩
    else
      advance
      let inner ← g.type
      expect .rParen
      return ⟨inner.kind, ← spanFrom start⟩
  | _ =>
    let kind ← otherType g
    return ⟨kind, ← spanFrom start⟩

/-- One pair of brackets behind a type. -/
def bracketStep (start : Span) (type : TypeNode) : Parse (Step TypeNode) := do
  if (← atKind .lBracket) && !(← newlineBefore) then
    advance
    if ← eat .rBracket then return .more ⟨.array type, ← spanFrom start⟩
    else
      discard g.type
      expect .rBracket
      return .more ⟨.keyword .any, ← spanFrom start⟩
  else return .done type

/-- A type with brackets behind it: arrays, and indexed types, which stand for `any`. -/
def postfixType : Parse TypeNode := do
  let start ← currentSpan
  repeating (bracketStep g start) (← primaryType g)

/-- Types joined by an operator, which may also stand in front. One type alone is itself. -/
def joined (operator : TokenKind) (part : Parse TypeNode) (join : List TypeNode → TypeKind) :
    Parse TypeNode := do
  let start ← currentSpan
  discard (eat operator)
  let first ← part
  if ← atKind operator then
    let members ← separated operator part first
    return ⟨join members, ← spanFrom start⟩
  else return first

def intersectionType : Parse TypeNode := joined .amp (postfixType g) .intersection

/-- A whole type. -/
def typeNode : Parse TypeNode := joined .pipe (intersectionType g) .union

end Recheck.Syntax.Parser
