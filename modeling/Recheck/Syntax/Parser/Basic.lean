import Recheck.Syntax.Lexer
import Recheck.Syntax.Tree

/-!
# Reading tokens

The parser is a state machine over the tokens that are left. It only ever drops tokens from the front,
and never the last one, which is the end of the text. This file holds the state, the questions and steps
on it, and the two loops that all lists of the grammar are built from.
-/

set_option autoImplicit false

namespace Recheck.Syntax.Parser

universe u

/-- The tokens that are left, the span of the token before them, where the last fault was reported, and
the faults found so far, the newest first. -/
structure State where
  rest : List Token
  previous : Option Span
  lastFault : Option Nat
  reports : List Report
deriving Repr, Inhabited

namespace State

def ofTokens (tokens : List Token) : State := ⟨tokens, none, none, []⟩

def kindAt (s : State) (n : Nat) : TokenKind := (s.rest[n]?.map (·.kind)).getD .eof

def textAt (s : State) (n : Nat) : String := (s.rest[n]?.map (·.text)).getD ""

def newlineAt (s : State) (n : Nat) : Bool := s.rest[n]?.any (·.newlineBefore)

/-- The span of the current token. -/
def span (s : State) : Span := (s.rest.head?.map (·.span)).getD Span.empty

/-- The span of the last token read, or of the first token when none was read. -/
def previousSpan (s : State) : Span := s.previous.getD s.span

/-- Drops the current token, unless it is the end of the text. -/
def advance (s : State) : State :=
  match s.rest with
  | t :: rest => if t.kind = .eof then s else { s with rest := rest, previous := some t.span }
  | [] => s

/-- Reports a fault at the current token. A second fault at the same token says nothing new. -/
def report (s : State) (fault : Fault) : State :=
  if s.lastFault = some s.span.start then s
  else { s with lastFault := some s.span.start, reports := ⟨fault, s.span⟩ :: s.reports }

end State

/-- A step of the parser with its result. -/
abbrev Parse (α : Type) : Type := StateM State α

/-! ## Questions -/

def kindAt (n : Nat) : Parse TokenKind := return (← get).kindAt n

def current : Parse TokenKind := kindAt 0

def textAt (n : Nat) : Parse String := return (← get).textAt n

def currentText : Parse String := textAt 0

def currentSpan : Parse Span := return (← get).span

def atKind (k : TokenKind) : Parse Bool := return (← get).kindAt 0 = k

def atEnd : Parse Bool := atKind .eof

/-- Whether the current token is an identifier with this text. -/
def atWord (word : String) : Parse Bool := do
  let s ← get
  return s.kindAt 0 = .identifier && s.textAt 0 = word

/-- Whether the current token begins a line. -/
def newlineBefore : Parse Bool := return (← get).newlineAt 0

/-- How many tokens are left. -/
def remaining : Parse Nat := return (← get).rest.length

/-- From the start of a node to the last token read. -/
def spanFrom (start : Span) : Parse Span := return start.merge (← get).previousSpan

/-! ## Steps -/

def advance : Parse Unit := modify State.advance

def report (fault : Fault) : Parse Unit := modify (·.report fault)

/-- Reads a token of this kind, if it is the current one. -/
def eat (k : TokenKind) : Parse Bool := do
  if ← atKind k then
    advance
    return true
  else return false

/-- Reads an identifier with this text, if it is the current token. -/
def eatWord (word : String) : Parse Bool := do
  if ← atWord word then
    advance
    return true
  else return false

def expect (k : TokenKind) : Parse Unit := do
  unless ← eat k do report (.expected k.describe)

def expectWord (word : String) : Parse Unit := do
  unless ← eatWord word do report (.expected word)

/-- The current token as a name. -/
def takeIdent : Parse Ident := do
  let ident : Ident := ⟨← currentText, ← currentSpan⟩
  advance
  return ident

def expectIdent : Parse Ident := do
  if ← atKind .identifier then takeIdent
  else
    report .identifierExpected
    return ⟨missingName, ← currentSpan⟩

/-! ## String literals -/

/-- The value of the characters between two quotes. -/
def unescape : List Char → List Char
  | [] => []
  | ['\\'] => []
  | '\\' :: 'n' :: cs => '\n' :: unescape cs
  | '\\' :: 't' :: cs => '\t' :: unescape cs
  | '\\' :: 'r' :: cs => '\r' :: unescape cs
  | '\\' :: '0' :: cs => '\x00' :: unescape cs
  | '\\' :: c :: cs => c :: unescape cs
  | c :: cs => c :: unescape cs

/-- The value of a string literal. A literal that is not closed loses its last byte instead of the
quote, and has no value when that would cut a character. -/
def unquote (text : String) : String :=
  match text.toList.drop 1 with
  | [] => ""
  | inner =>
    if (inner.getLast?.map Char.utf8Size) = some 1 then String.ofList (unescape inner.dropLast) else ""

def expectString : Parse StringLiteral := do
  let span ← currentSpan
  if ← atKind .stringLiteral then
    let value := unquote (← currentText)
    advance
    return ⟨value, span⟩
  else
    report .stringExpected
    return ⟨"", span⟩

/-- A name where words, strings and numbers may stand for names. -/
def expectPropertyName : Parse Ident := do
  let kind ← current
  if kind = .stringLiteral then
    let literal ← expectString
    return ⟨literal.value, literal.span⟩
  else if kind = .numberLiteral || kind.isReservedWord then takeIdent
  else expectIdent

/-- The end of a statement: a semicolon, or a place where one can be left out. -/
def expectSemicolon : Parse Unit := do
  if ← eat .semicolon then return
  if (← atKind .rBrace) || (← atEnd) || (← newlineBefore) then return
  report (.expected ";")

/-! ## Loops -/

/-- What a step of a loop says: go on or stop, with what has been read. -/
inductive Step (σ : Type u) where
  | more (acc : σ)
  | done (acc : σ)

/-- Runs a step at most `n` times. -/
def runSteps {σ : Type} (step : σ → Parse (Step σ)) : Nat → σ → Parse σ
  | 0, acc => return acc
  | n + 1, acc => do
    match ← step acc with
    | .more acc => runSteps step n acc
    | .done acc => return acc

/-- Repeats a step until it is done. A step that goes on has read a token, so the tokens left bound the
number of rounds. -/
def repeating {σ : Type} (step : σ → Parse (Step σ)) (acc : σ) : Parse σ := do
  runSteps step ((← remaining) + 1) acc

/-- One item of a list, with the comma behind it. -/
def commaStep {α : Type} (close : TokenKind) (item : Parse α) (items : List α) : Parse (Step (List α)) := do
  if (← atEnd) || (← atKind close) then return .done items
  let items := (← item) :: items
  if ← eat .comma then return .more items else return .done items

/-- Items separated by commas up to a closing token, which is left in place. A comma may stand at the
end. -/
def commaList {α : Type} (close : TokenKind) (item : Parse α) : Parse (List α) := do
  let items ← repeating (commaStep close item) []
  return items.reverse

/-- One item behind a separator. -/
def separatedStep {α : Type} (separator : TokenKind) (item : Parse α) (items : List α) :
    Parse (Step (List α)) := do
  if ← eat separator then return .more ((← item) :: items) else return .done items

/-- Items that follow the first one, each behind a separator. -/
def separated {α : Type} (separator : TokenKind) (item : Parse α) (first : α) : Parse (List α) := do
  let items ← repeating (separatedStep separator item) [first]
  return items.reverse

/-- Skips a token, unless what stands there can be read again. -/
def skipStep (_ : Unit) : Parse (Step Unit) := do
  if (← atEnd) || (← atKind .rBrace) || (← newlineBefore) || (← atKind .semicolon) then
    return .done ()
  advance
  return .more ()

/-- Skips what cannot be read: the current token and the rest of its line, up to a semicolon or a
closing brace. -/
def recoverStatement : Parse Unit := do
  advance
  repeating skipStep ()
  discard (eat .semicolon)

end Recheck.Syntax.Parser
