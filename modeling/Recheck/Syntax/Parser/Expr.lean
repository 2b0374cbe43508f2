import Recheck.Syntax.Parser.TypeNode

/-!
# Reading expressions

Binary operators are read by binding power: an operator is taken as long as it binds at least as tightly
as asked, and its right operand is asked for one step tighter, so equal operators group to the left.
Whether a parenthesis or an angle bracket begins an arrow function is decided by looking ahead.
-/

set_option autoImplicit false

namespace Recheck.Syntax.Parser

variable (g : Grammar)

/-! ## Binding powers -/

/-- The operator of a token and how tightly it binds, from 1 for the loosest. -/
def binaryOp? : TokenKind → Option (BinaryOp × Nat)
  | .questionQuestion => some (.coalesce, 1)
  | .pipePipe => some (.or, 3)
  | .ampAmp => some (.and, 5)
  | .pipe => some (.bitOr, 7)
  | .amp => some (.bitAnd, 9)
  | .eqEq => some (.eq, 11)
  | .eqEqEq => some (.strictEq, 11)
  | .bangEq => some (.notEq, 11)
  | .bangEqEq => some (.strictNotEq, 11)
  | .lt => some (.lt, 13)
  | .gt => some (.gt, 13)
  | .ltEq => some (.ltEq, 13)
  | .gtEq => some (.gtEq, 13)
  | .plus => some (.add, 15)
  | .minus => some (.sub, 15)
  | .star => some (.mul, 17)
  | .slash => some (.div, 17)
  | .percent => some (.rem, 17)
  | _ => none

/-- A cast binds as tightly as a comparison. -/
def castPower : Nat := 13

/-- The operator that a token in front of an operand stands for. -/
def prefixOp? : TokenKind → Option UnaryOp
  | .bang => some .not
  | .minus => some .neg
  | .plus => some .plus
  | .typeof => some .typeof
  | .void => some .void
  | .increment => some .increment
  | _ => none

/-! ## Looking ahead for an arrow -/

/-- The tokens behind the parenthesis that closes `depth` open ones. -/
def afterParens : Nat → List Token → Option (List Token)
  | _, [] => none
  | depth, t :: rest =>
    match t.kind with
    | .lParen => afterParens (depth + 1) rest
    | .rParen => if depth ≤ 1 then some rest else afterParens (depth - 1) rest
    | .eof => none
    | _ => afterParens depth rest

/-- Whether a type and then an arrow follow. The type is skipped by counting its brackets. -/
def arrowAfterType : Nat → List Token → Bool
  | _, [] => false
  | depth, t :: rest =>
    match t.kind with
    | .arrow => depth = 0 || arrowAfterType depth rest
    | .lParen | .lBracket | .lBrace | .lt => arrowAfterType (depth + 1) rest
    | .rParen | .rBracket | .rBrace | .gt => depth ≠ 0 && arrowAfterType (depth - 1) rest
    | .semicolon | .comma | .eq => depth ≠ 0 && arrowAfterType depth rest
    | .eof => false
    | _ => arrowAfterType depth rest

/-- Whether an arrow function begins at the first of these tokens. -/
def startsArrow : List Token → Bool
  | ⟨.identifier, _, _, _⟩ :: next :: _ => next.kind = .arrow && !next.newlineBefore
  | ⟨.lt, _, _, _⟩ :: next :: _ => next.kind = .identifier
  | tokens@(⟨.lParen, _, _, _⟩ :: _) =>
    match afterParens 0 tokens with
    | some (⟨.arrow, _, _, _⟩ :: _) => true
    | some (⟨.colon, _, _, _⟩ :: rest) => arrowAfterType 0 rest
    | _ => false
  | _ => false

/-! ## Operands -/

/-- One argument; a spread counts as one. -/
def argument : Parse Expr := do
  discard (eat .dotDotDot)
  g.expr

/-- Arguments in parentheses. -/
def arguments : Parse (List Expr) := do
  expect .lParen
  let args ← commaList .rParen (argument g)
  expect .rParen
  return args

/-- One item of an array literal with the comma behind it; holes are skipped. -/
def itemStep (items : List Expr) : Parse (Step (List Expr)) := do
  if (← atEnd) || (← atKind .rBracket) then return .done items
  if ← eat .comma then return .more items
  let items := (← argument g) :: items
  if ← eat .comma then return .more items else return .done items

/-- The items of an array literal up to the closing bracket. -/
def arrayItems : Parse (List Expr) := do
  let items ← repeating (itemStep g) []
  expect .rBracket
  return items.reverse

/-- The part of a function that begins with its type parameters and ends with a body in braces. -/
def functionRest : Parse ExprKind := do
  discard (typeParams g)
  let ps ← params g
  let ret ← typeAfter g .colon
  return .function ps ret (.block (← block g))

/-- The value of a property whose name has been read: behind a colon, a method, or the variable of that
name. -/
def propertyValue (name : Ident) : Parse Expr := do
  if ← eat .colon then g.expr
  else if (← atKind .lParen) || (← atKind .lt) then
    let start ← currentSpan
    let kind ← functionRest g
    return ⟨kind, ← spanFrom start⟩
  else return ⟨.ident name.name, name.span⟩

/-- One property or spread; `none` when no token was read. -/
def property : Parse (Option Property) := do
  let start ← currentSpan
  if ← eat .dotDotDot then
    let value ← g.expr
    return some ⟨⟨indexName, start⟩, value, ← spanFrom start⟩
  else
    let before ← remaining
    let name ← expectPropertyName
    if (← remaining) = before then return none
    let value ← propertyValue g name
    return some ⟨name, value, ← spanFrom start⟩

/-- One property with the comma behind it. Where none begins, a token is skipped. -/
def propertyStep (items : List Property) : Parse (Step (List Property)) := do
  if (← atEnd) || (← atKind .rBrace) then return .done items
  match ← property g with
  | none =>
    advance
    return .more items
  | some p => if ← eat .comma then return .more (p :: items) else return .done (p :: items)

/-- The properties of an object literal, between braces. -/
def objectLiteral : Parse (List Property) := do
  expect .lBrace
  let items ← repeating (propertyStep g) []
  expect .rBrace
  return items.reverse

/-- The kind of an operand, parentheses aside. -/
def primaryKind : Parse ExprKind := do
  match ← current with
  | .identifier =>
    let name ← currentText
    advance
    return .ident name
  | .import => advance; return .ident "import"
  | .stringLiteral =>
    let value := unquote (← currentText)
    advance
    return .string value
  | .templateLiteral => advance; return .template
  | .numberLiteral =>
    let text ← currentText
    advance
    return .number text
  | .true => advance; return .bool true
  | .false => advance; return .bool false
  | .null => advance; return .null
  | .this => advance; return .this
  | .lBracket =>
    advance
    return .array (← arrayItems g)
  | .lBrace => return .object (← objectLiteral g)
  | .function =>
    advance
    discard (eat .star)
    discard (eat .identifier)
    functionRest g
  | _ =>
    report .expressionExpected
    return .error

/-- An operand without anything behind it. -/
def primary : Parse Expr := do
  let start ← currentSpan
  if ← eat .lParen then
    let inner ← g.expr
    expect .rParen
    return ⟨inner.kind, ← spanFrom start⟩
  else
    let kind ← primaryKind g
    return ⟨kind, ← spanFrom start⟩

/-- One member behind a dot. -/
def chainStep (start : Span) (expr : Expr) : Parse (Step Expr) := do
  if ← eat .dot then
    let name ← expectPropertyName
    return .more ⟨.member expr name, ← spanFrom start⟩
  else return .done expr

/-- Members of an expression, as long as dots follow. -/
def memberChain (start : Span) (first : Expr) : Parse Expr := repeating (chainStep start) first

/-- A constructor call. The callee takes members but no calls. -/
def newExpr : Parse Expr := do
  let start ← currentSpan
  advance
  let callee ← memberChain start (← primary g)
  let args ← do if ← atKind .lParen then arguments g else pure []
  return ⟨.new callee args, ← spanFrom start⟩

/-- An index up to the closing bracket. -/
def indexRest : Parse Expr := do
  let index ← g.expr
  expect .rBracket
  return index

/-- One access, call or step behind an operand. -/
def postfixStep (start : Span) (expr : Expr) : Parse (Step Expr) := do
  match ← current with
  | .dot =>
    advance
    let name ← expectPropertyName
    return .more ⟨.member expr name, ← spanFrom start⟩
  | .questionDot =>
    advance
    if ← atKind .lParen then
      let args ← arguments g
      return .more ⟨.call expr args, ← spanFrom start⟩
    else if ← eat .lBracket then
      let index ← indexRest g
      return .more ⟨.index expr index, ← spanFrom start⟩
    else
      let name ← expectPropertyName
      return .more ⟨.member expr name, ← spanFrom start⟩
  | .lBracket =>
    advance
    let index ← indexRest g
    return .more ⟨.index expr index, ← spanFrom start⟩
  | .lParen =>
    let args ← arguments g
    return .more ⟨.call expr args, ← spanFrom start⟩
  | .bang =>
    if ← newlineBefore then return .done expr
    advance
    return .more expr
  | .increment =>
    if ← newlineBefore then return .done expr
    advance
    return .more ⟨.unary .increment expr, ← spanFrom start⟩
  | _ => return .done expr

/-- An operand with what follows it. -/
def postfixExpr : Parse Expr := do
  let start ← currentSpan
  let first ← if ← atKind .new then newExpr g else primary g
  repeating (postfixStep g start) first

/-- An operand with its prefix operators; `await` leaves no trace. -/
def unaryExpr : Parse Expr := do
  let start ← currentSpan
  match prefixOp? (← current) with
  | some op =>
    advance
    let operand ← g.unary
    return ⟨.unary op operand, ← spanFrom start⟩
  | none =>
    if (← atWord "await") && !(← get).newlineAt 1 then
      advance
      g.unary
    else postfixExpr g

/-! ## Operators -/

/-- The type of a cast; a constant cast stands for `any`. -/
def castType : Parse TypeNode := do
  if ← eatWord "const" then return ⟨.keyword .any, (← get).previousSpan⟩ else typeNode g

/-- One operator with its right operand, or a cast. -/
def binaryStep (power : Nat) (start : Span) (left : Expr) : Parse (Step Expr) := do
  if (← atWord "as") && !(← newlineBefore) && power ≤ castPower then
    advance
    let type ← castType g
    return .more ⟨.cast left type, ← spanFrom start⟩
  else
    match binaryOp? (← current) with
    | none => return .done left
    | some (op, strength) =>
      if strength < power then return .done left
      advance
      let right ← g.binary (strength + 1)
      return .more ⟨.binary op left right, ← spanFrom start⟩

/-- Operands joined by operators that bind at least as tightly as `power`. -/
def binaryExpr (power : Nat) : Parse Expr := do
  let start ← currentSpan
  repeating (binaryStep g power start) (← unaryExpr g)

def conditionalExpr : Parse Expr := do
  let start ← currentSpan
  let condition ← binaryExpr g 0
  if ← eat .question then
    let thenValue ← g.expr
    expect .colon
    let elseValue ← g.expr
    return ⟨.conditional condition thenValue elseValue, ← spanFrom start⟩
  else return condition

/-- The parameters of an arrow function: one name, or a list in parentheses. -/
def arrowParams : Parse (List Param) := do
  if ← atKind .identifier then
    let name ← takeIdent
    return [⟨name, false, false, none, none, name.span⟩]
  else
    discard (typeParams g)
    params g

def arrowFunction : Parse Expr := do
  let start ← currentSpan
  let ps ← arrowParams g
  let ret ← typeAfter g .colon
  expect .arrow
  let body ← if ← atKind .lBrace then pure (.block (← block g)) else pure (.expr (← g.expr))
  return ⟨.function ps ret body, ← spanFrom start⟩

/-- Skips `async` in front of a function. -/
def skipAsync : Parse Unit := do
  let s ← get
  if (← atWord "async") && !s.newlineAt 1 then
    match s.kindAt 1 with
    | .lParen | .identifier | .function => advance
    | _ => return

/-- A whole expression. -/
def exprNode : Parse Expr := do
  skipAsync
  if startsArrow (← get).rest then arrowFunction g
  else
    let start ← currentSpan
    let target ← conditionalExpr g
    let plain ← atKind .eq
    if plain || (← atKind .compoundAssign) then
      advance
      let value ← g.expr
      return ⟨.assign target value plain, ← spanFrom start⟩
    else return target

end Recheck.Syntax.Parser
