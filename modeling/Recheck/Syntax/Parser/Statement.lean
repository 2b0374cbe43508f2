import Recheck.Syntax.Parser.Expr

/-!
# Reading statements

A statement that cannot be read becomes an error node, and the rest of its line is skipped; so reading a
statement always reads a token, and a list of statements always ends.
-/

set_option autoImplicit false

namespace Recheck.Syntax.Parser

variable (g : Grammar)

/-! ## Imports -/

/-- The module at the end of an import or export, behind `from`. -/
def fromSource : Parse StringLiteral := do
  expectWord "from"
  expectString

/-- Skips `type` in front of a name. -/
def skipType : Parse Unit := do
  if (← atWord "type") && (← kindAt 1) = .identifier then advance

def importSpecifier : Parse ImportSpecifier := do
  skipType
  let imported ← expectPropertyName
  let newName ← do if ← eatWord "as" then pure (some (← expectIdent)) else pure none
  return ⟨imported, newName⟩

/-- Whether `type` stands in front of what is imported, rather than for a name. -/
def atTypeImport : Parse Bool := do
  let s ← get
  if ← atWord "type" then
    match s.kindAt 1 with
    | .lBrace | .star => return true
    | .identifier => return s.textAt 1 ≠ "from"
    | _ => return false
  else return false

/-- The module of an import with an equals sign. -/
def requireCall : Parse StringLiteral := do
  expectWord "require"
  expect .lParen
  let source ← expectString
  expect .rParen
  return source

/-- The namespace or the list of an import. -/
def importNames : Parse (Option Ident × List ImportSpecifier) := do
  if ← eat .star then
    expectWord "as"
    return (some (← expectIdent), [])
  else if ← eat .lBrace then
    let named ← commaList .rBrace importSpecifier
    expect .rBrace
    return (none, named)
  else
    report (.expected "\x7b")
    return (none, [])

/-- An import, which begins with the word itself. -/
def importStatement (exported : Bool) : Parse Statement := do
  let start ← currentSpan
  advance
  let typeOnly ← atTypeImport
  if typeOnly then advance
  if ← atKind .stringLiteral then
    let source ← expectString
    expectSemicolon
    return .importDecl ⟨none, none, [], source, typeOnly, ← spanFrom start⟩
  let finish (default star : Option Ident) (named : List ImportSpecifier) : Parse Statement := do
    let source ← fromSource
    expectSemicolon
    return .importDecl ⟨default, star, named, source, typeOnly, ← spanFrom start⟩
  if ← atKind .identifier then
    let name ← takeIdent
    if ← eat .eq then
      let source ← requireCall
      expectSemicolon
      return .importEquals ⟨name, source, exported, ← spanFrom start⟩
    else if ← eat .comma then
      let (star, named) ← importNames
      finish (some name) star named
    else finish (some name) none []
  else
    let (star, named) ← importNames
    finish none star named

/-! ## Declarations -/

/-- One variable with its type and initial value. -/
def declarator : Parse Declarator := do
  let start ← currentSpan
  let name ← expectIdent
  discard (eat .bang)
  let type ← typeAfter g .colon
  let init ← exprAfter g .eq
  return ⟨name, type, init, ← spanFrom start⟩

def variableStatement (modifiers : Modifiers) : Parse VariableStatement := do
  let start ← currentSpan
  let kind : VariableKind := match ← current with
    | .const => .const
    | .let => .let
    | _ => .var
  advance
  let declarators ← separated .comma (declarator g) (← declarator g)
  expectSemicolon
  return ⟨modifiers, kind, start, declarators, ← spanFrom start⟩

/-- The name of a function, which only a default export may lack. -/
def functionName (modifiers : Modifiers) : Parse (Option Ident) := do
  if ← atKind .identifier then return some (← takeIdent)
  unless modifiers.isDefault do discard expectIdent
  return none

def functionDecl (modifiers : Modifiers) : Parse FunctionDecl := do
  let start ← currentSpan
  expect .function
  discard (eat .star)
  let name ← functionName modifiers
  let names ← typeParams g
  let ps ← params g
  let ret ← typeAfter g .colon
  let body ← do
    if ← atKind .lBrace then pure (some (← block g))
    else
      expectSemicolon
      pure none
  return ⟨modifiers, name, names, ps, ret, body, ← spanFrom start⟩

def interfaceDecl (modifiers : Modifiers) : Parse InterfaceDecl := do
  let start ← currentSpan
  expect .interface
  let name ← expectIdent
  let names ← typeParams g
  let bases ← do
    if ← eatWord "extends" then separated .comma (typeNode g) (← typeNode g) else pure []
  let members ← typeMembers g
  return ⟨modifiers, name, names, bases, members, ← spanFrom start⟩

def typeAlias (modifiers : Modifiers) : Parse TypeAlias := do
  let start ← currentSpan
  advance
  let name ← expectIdent
  let names ← typeParams g
  expect .eq
  let type ← typeNode g
  expectSemicolon
  return ⟨modifiers, name, names, type, ← spanFrom start⟩

/-- One more part of a dotted name. -/
def nameStep (name : Ident) : Parse (Step Ident) := do
  if ← eat .dot then
    let next ← expectIdent
    return .more ⟨name.name ++ "." ++ next.name, name.span.merge next.span⟩
  else return .done name

/-- The name of a namespace. Dots make one name of several. -/
def namespaceName : Parse Ident := do
  repeating nameStep (← expectIdent)

def moduleName : Parse ModuleName := do
  if ← atWord "global" then
    let span ← currentSpan
    advance
    return .global span
  else
    advance
    if ← atKind .stringLiteral then return .ambient (← expectString)
    else return .named (← namespaceName)

def moduleDecl (modifiers : Modifiers) : Parse ModuleDecl := do
  let start ← currentSpan
  let name ← moduleName
  let body ← do
    if ← eat .lBrace then pure (some (← statementList g))
    else
      expectSemicolon
      pure none
  return ⟨modifiers, name, body, ← spanFrom start⟩

/-- A declaration behind the words in front of it, the first of which begins at `start`. -/
def declaration (modifiers : Modifiers) (start : Span) : Parse Statement := do
  let modifiers := if ← eatWord "declare" then { modifiers with declared := true } else modifiers
  let failed : Parse Statement := do
    report .statementExpected
    recoverStatement
    return .error (← spanFrom start)
  match ← current with
  | .const | .let | .var => return (.variableDecl (← variableStatement g modifiers) : Statement).stretch start
  | .function => return (.function (← functionDecl g modifiers) : Statement).stretch start
  | .interface => return (.interface (← interfaceDecl g modifiers) : Statement).stretch start
  | .identifier =>
    let word ← currentText
    if word = "type" then return (.typeAlias (← typeAlias g modifiers) : Statement).stretch start
    else if word = "namespace" || word = "module" || (modifiers.declared && word = "global") then
      return (.moduleDecl (← moduleDecl g modifiers) : Statement).stretch start
    else failed
  | _ => failed

/-- Whether the current identifier begins a declaration. -/
def atDeclarationWord : Parse Bool := do
  let s ← get
  let next := s.kindAt 1
  if s.rest[1]?.all (·.newlineBefore) then return false
  match s.textAt 0 with
  | "declare" =>
    match next with
    | .const | .let | .var | .function | .interface => return true
    | .identifier => return s.textAt 1 ∈ ["module", "namespace", "global", "type"]
    | _ => return false
  | "type" => return next = .identifier
  | "namespace" => return next = .identifier
  | "module" => return next = .identifier || next = .stringLiteral
  | _ => return false

/-! ## Exports -/

def exportSpecifier : Parse ExportSpecifier := do
  skipType
  let localName ← expectPropertyName
  let newName ← do if ← eatWord "as" then pure (some (← expectPropertyName)) else pure none
  return ⟨localName, newName⟩

/-- A list of exports, possibly of another module. -/
def exportList : Parse ExportKind := do
  expect .lBrace
  let specifiers ← commaList .rBrace exportSpecifier
  expect .rBrace
  let source ← do if ← eatWord "from" then pure (some (← expectString)) else pure none
  return .named specifiers source

/-- All exports of another module, possibly under one name. -/
def exportStar : Parse ExportKind := do
  advance
  let newName ← do if ← eatWord "as" then pure (some (← expectPropertyName)) else pure none
  let source ← fromSource
  return .star newName source

/-- The modifiers of a default export. -/
def defaultModifiers : Modifiers := ⟨true, true, false⟩

/-- An export, which begins with the word itself. -/
def exportStatement : Parse Statement := do
  let start ← currentSpan
  advance
  let finish (kind : ExportKind) : Parse Statement := do
    expectSemicolon
    return .exportDecl ⟨kind, ← spanFrom start⟩
  match ← current with
  | .star => finish (← exportStar)
  | .lBrace => finish (← exportList)
  | .eq =>
    advance
    finish (.assignment (← exprNode g))
  | .default =>
    advance
    match ← current with
    | .function =>
      let decl ← functionDecl g defaultModifiers
      return .function { decl with span := ← spanFrom start }
    | .interface =>
      let decl ← interfaceDecl g defaultModifiers
      return .interface { decl with span := ← spanFrom start }
    | _ => finish (.default (← exprNode g))
  | .import => return (← importStatement true).stretch start
  | _ =>
    if (← atWord "type") && (← kindAt 1) = .lBrace then
      advance
      finish (← exportList)
    else declaration g { Modifiers.none with exported := true } start

/-! ## Statements -/

def ifStatement : Parse IfStatement := do
  let start ← currentSpan
  advance
  expect .lParen
  let condition ← exprNode g
  expect .rParen
  let thenBranch ← g.statement
  let elseBranch ← do if ← eat .else then pure (some (← g.statement)) else pure none
  return ⟨condition, thenBranch, elseBranch, ← spanFrom start⟩

def returnStatement : Parse ReturnStatement := do
  let start ← currentSpan
  advance
  let bare := (← atKind .semicolon) || (← atKind .rBrace) || (← atEnd) || (← newlineBefore)
  let value ← if bare then pure none else some <$> exprNode g
  expectSemicolon
  return ⟨value, ← spanFrom start⟩

def expressionStatement : Parse Statement := do
  let before ← remaining
  let expr ← exprNode g
  if (← remaining) = before then return .error expr.span
  expectSemicolon
  return .expression expr

/-- A statement by its first token. Nothing may be read when none begins here. -/
def statementForm : Parse Statement := do
  match ← current with
  | .import =>
    match ← kindAt 1 with
    | .lParen | .dot => expressionStatement g
    | _ => importStatement false
  | .export => exportStatement g
  | .const | .let | .var => return .variableDecl (← variableStatement g Modifiers.none)
  | .function => return .function (← functionDecl g Modifiers.none)
  | .interface => return .interface (← interfaceDecl g Modifiers.none)
  | .if => return .ifElse (← ifStatement g)
  | .lBrace => return .block (← block g)
  | .return => return .ret (← returnStatement g)
  | .semicolon =>
    let span ← currentSpan
    advance
    return .empty span
  | .identifier =>
    if ← atDeclarationWord then
      let start ← currentSpan
      let declared ← eatWord "declare"
      declaration g { Modifiers.none with declared := declared } start
    else expressionStatement g
  | _ => expressionStatement g

/-- A statement, or an error node for what is skipped. -/
def statementNode : Parse Statement := do
  let before ← remaining
  let stmt ← statementForm g
  if (← remaining) = before then
    let span ← currentSpan
    report .statementExpected
    recoverStatement
    return .error span
  else return stmt

end Recheck.Syntax.Parser
