import Recheck.Text.Span

/-!
# Tokens

A token carries its own text, so that what follows never looks into the source again. Words such as
`type`, `as` or `declare` are identifiers to the lexer; the parser knows where they mean more.
-/

set_option autoImplicit false

namespace Recheck.Syntax

/-- What a token is. Operators that only change a variable in place share one kind, and so do the two
that step it by one. -/
inductive TokenKind where
  -- Reserved words.
  | const | default | else | export | false | function | if | import | interface | let | new | null
  | return | this | true | typeof | var | void
  -- Names and literals.
  | identifier | stringLiteral | templateLiteral | numberLiteral
  -- Brackets and separators.
  | lBrace | rBrace | lParen | rParen | lBracket | rBracket | semicolon | comma | colon | dot | dotDotDot
  | question | questionDot | arrow
  -- Operators.
  | eq | compoundAssign | increment | eqEq | eqEqEq | bangEq | bangEqEq | lt | gt | ltEq | gtEq | plus
  | minus | star | slash | percent | bang | ampAmp | pipePipe | questionQuestion | amp | pipe | at
  -- A character that begins no token, and the end of the text.
  | error | eof
deriving DecidableEq, Repr, Inhabited

namespace TokenKind

/-- The words that are never names, with their kinds. -/
def reserved : List (String × TokenKind) :=
  [("const", .const), ("default", .default), ("else", .else), ("export", .export), ("false", .false),
   ("function", .function), ("if", .if), ("import", .import), ("interface", .interface), ("let", .let),
   ("new", .new), ("null", .null), ("return", .return), ("this", .this), ("true", .true),
   ("typeof", .typeof), ("var", .var), ("void", .void)]

/-- The kind of a reserved word. -/
def ofWord? (word : String) : Option TokenKind := reserved.lookup word

def isReservedWord (k : TokenKind) : Bool := reserved.any (·.2 = k)

/-- What an error message calls the kind. -/
def describe : TokenKind → String
  | lBrace => "\x7b"
  | rBrace => "\x7d"
  | lParen => "("
  | rParen => ")"
  | lBracket => "["
  | rBracket => "]"
  | semicolon => ";"
  | comma => ","
  | colon => ":"
  | eq => "="
  | arrow => "=>"
  | gt => ">"
  | identifier => "identifier"
  | stringLiteral => "string literal"
  | _ => "token"

end TokenKind

/-- A token with its place and text. `newlineBefore` says whether the gap in front of it breaks the
line. -/
structure Token where
  kind : TokenKind
  span : Span
  newlineBefore : Bool
  text : String
deriving DecidableEq, Repr, Inhabited

end Recheck.Syntax
