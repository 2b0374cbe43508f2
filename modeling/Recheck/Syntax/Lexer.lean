import Recheck.Text.Chars
import Recheck.Syntax.Fault
import Recheck.Syntax.Token

/-!
# From text to tokens

The text is a sequence of gaps and tokens. A scanner looks at the front of the remaining characters and
says how many of them its token takes; cutting them off is done in one place, so every token is a piece
of the text and every piece between two tokens is a gap of blanks and comments.
-/

set_option autoImplicit false

namespace Recheck.Syntax

/-! ## Character classes -/

/-- Blanks between tokens. A vertical tab is none. -/
def isBlank (c : Char) : Bool :=
  c = ' ' || c = '\t' || c = '\n' || c = '\x0c' || c = '\r'

def isDigit (c : Char) : Bool := c.isDigit

/-- Letters, `_`, `$` and everything beyond ASCII begin a name. -/
def isNameStart (c : Char) : Bool := c.isAlpha || c = '_' || c = '$' || 0x80 ≤ c.toNat

def isNamePart (c : Char) : Bool := isNameStart c || isDigit c

def isDigitOrUnderscore (c : Char) : Bool := isDigit c || c = '_'

def isRadixDigit (c : Char) : Bool := c.isAlphanum || c = '_'

/-! ## Scanners -/

/-- How many characters of a list satisfy `p` before the first that does not. -/
def runLength (p : Char → Bool) (cs : List Char) : Nat := (cs.takeWhile p).length

/-- The rest of a block comment: its length, and whether it is closed. -/
def blockComment : List Char → Nat × Bool
  | [] => (0, false)
  | '*' :: '/' :: _ => (2, true)
  | _ :: cs => let (n, closed) := blockComment cs; (n + 1, closed)

/-- The rest of a quoted literal up to and including the quote: its length, and whether it is closed. A
backslash takes the next character along, even a line end. -/
def quoted (quote : Char) : List Char → Nat × Bool
  | [] => (0, false)
  | ['\\'] => (1, false)
  | '\\' :: _ :: cs => let (n, closed) := quoted quote cs; (n + 2, closed)
  | c :: cs =>
    if c = '\n' then (0, false)
    else if c = quote then (1, true)
    else let (n, closed) := quoted quote cs; (n + 1, closed)

/-- The rest of a template literal inside `depth` open substitutions. Braces and backquotes within a
substitution belong to it; one counter serves them all. -/
def template : Nat → List Char → Nat × Bool
  | _, [] => (0, false)
  | _, ['\\'] => (1, false)
  | depth, '\\' :: _ :: cs => let (n, closed) := template depth cs; (n + 2, closed)
  | depth, '$' :: '\x7b' :: cs => let (n, closed) := template (depth + 1) cs; (n + 2, closed)
  | 0, '\x60' :: _ => (1, true)
  | depth, c :: cs =>
    let (n, closed) := template (if c = '\x7d' then depth - 1 else depth) cs
    (n + 1, closed)

/-- The length of an exponent at the front, which needs a digit behind its sign. -/
def exponentLength : List Char → Nat
  | e :: s :: cs =>
    if e = 'e' || e = 'E' then
      if s = '+' || s = '-' then
        match runLength isDigit cs with
        | 0 => 0
        | n => n + 2
      else
        match runLength isDigit (s :: cs) with
        | 0 => 0
        | n => n + 1
    else 0
  | _ => 0

/-- The length of a fraction at the front: a point and digits, unless the point begins a range or a
spread. -/
def fractionLength : List Char → Nat
  | '.' :: '.' :: _ => 0
  | '.' :: cs => 1 + runLength isDigitOrUnderscore cs
  | _ => 0

/-- The length of a decimal number, with fraction, exponent and the suffix of big integers. -/
def decimalLength (cs : List Char) : Nat :=
  let whole := runLength isDigitOrUnderscore cs
  let n := whole + fractionLength (cs.drop whole)
  let n := n + exponentLength (cs.drop n)
  if (cs.drop n).head? = some 'n' then n + 1 else n

def isRadixMark (c : Char) : Bool := c ∈ ['x', 'X', 'b', 'B', 'o', 'O']

/-- The length of a number at the front. -/
def numberLength (cs : List Char) : Nat :=
  match cs with
  | '0' :: mark :: rest => if isRadixMark mark then 2 + runLength isRadixDigit rest else decimalLength cs
  | _ => decimalLength cs

/-- What a scanner found: a kind, the number of characters, and a fault. -/
structure Lexeme where
  kind : TokenKind
  length : Nat
  fault : Option Fault
deriving DecidableEq, Repr, Inhabited

/-- Separators and operators, of those that begin alike the longest. -/
def punctuation : List Char → TokenKind × Nat
  | '\x7b' :: _ => (.lBrace, 1)
  | '\x7d' :: _ => (.rBrace, 1)
  | '(' :: _ => (.lParen, 1)
  | ')' :: _ => (.rParen, 1)
  | '[' :: _ => (.lBracket, 1)
  | ']' :: _ => (.rBracket, 1)
  | ';' :: _ => (.semicolon, 1)
  | ',' :: _ => (.comma, 1)
  | ':' :: _ => (.colon, 1)
  | '@' :: _ => (.at, 1)
  | '.' :: '.' :: '.' :: _ => (.dotDotDot, 3)
  | '.' :: _ => (.dot, 1)
  | '?' :: '?' :: '=' :: _ => (.compoundAssign, 3)
  | '?' :: '?' :: _ => (.questionQuestion, 2)
  -- `a?.5:b` is a conditional, not a member.
  | '?' :: '.' :: cs => if cs.head?.any isDigit then (.question, 1) else (.questionDot, 2)
  | '?' :: _ => (.question, 1)
  | '=' :: '>' :: _ => (.arrow, 2)
  | '=' :: '=' :: '=' :: _ => (.eqEqEq, 3)
  | '=' :: '=' :: _ => (.eqEq, 2)
  | '=' :: _ => (.eq, 1)
  | '!' :: '=' :: '=' :: _ => (.bangEqEq, 3)
  | '!' :: '=' :: _ => (.bangEq, 2)
  | '!' :: _ => (.bang, 1)
  | '<' :: '=' :: _ => (.ltEq, 2)
  | '<' :: _ => (.lt, 1)
  -- `>>` stays two tokens, so that nested type arguments close.
  | '>' :: '=' :: _ => (.gtEq, 2)
  | '>' :: _ => (.gt, 1)
  | '+' :: '+' :: _ => (.increment, 2)
  | '+' :: '=' :: _ => (.compoundAssign, 2)
  | '+' :: _ => (.plus, 1)
  | '-' :: '-' :: _ => (.increment, 2)
  | '-' :: '=' :: _ => (.compoundAssign, 2)
  | '-' :: _ => (.minus, 1)
  | '*' :: '=' :: _ => (.compoundAssign, 2)
  | '*' :: _ => (.star, 1)
  | '/' :: '=' :: _ => (.compoundAssign, 2)
  | '/' :: _ => (.slash, 1)
  | '%' :: '=' :: _ => (.compoundAssign, 2)
  | '%' :: _ => (.percent, 1)
  | '&' :: '&' :: _ => (.ampAmp, 2)
  | '&' :: _ => (.amp, 1)
  | '|' :: '|' :: _ => (.pipePipe, 2)
  | '|' :: _ => (.pipe, 1)
  | _ => (.error, 1)

/-- Whether a number stands at the front. -/
def startsNumber : List Char → Bool
  | '.' :: d :: _ => isDigit d
  | d :: _ => isDigit d
  | [] => false

/-- The token at the front of the characters, of which `c` is the first. -/
def scan (c : Char) (cs : List Char) : Lexeme :=
  if isNameStart c then
    let n := 1 + runLength isNamePart cs
    let word := String.ofList ((c :: cs).take n)
    ⟨(TokenKind.ofWord? word).getD .identifier, n, none⟩
  else if startsNumber (c :: cs) then ⟨.numberLiteral, max 1 (numberLength (c :: cs)), none⟩
  else if c = '"' || c = '\'' then
    let (n, closed) := quoted c cs
    ⟨.stringLiteral, 1 + n, if closed then none else some .openString⟩
  else if c = '\x60' then
    let (n, closed) := template 0 cs
    ⟨.templateLiteral, 1 + n, if closed then none else some .openTemplate⟩
  else
    let (kind, n) := punctuation (c :: cs)
    ⟨kind, n, if kind = .error then some .strayCharacter else none⟩

theorem punctuation_pos (cs : List Char) : 0 < (punctuation cs).2 := by
  unfold punctuation
  split <;> first | decide | (split <;> decide)

theorem scan_pos (c : Char) (cs : List Char) : 0 < (scan c cs).length := by
  unfold scan
  have := punctuation_pos (c :: cs)
  split
  · exact Nat.lt_add_right _ Nat.one_pos
  · split
    · exact Nat.lt_of_lt_of_le Nat.one_pos (Nat.le_max_left ..)
    · split
      · exact Nat.lt_add_right _ Nat.one_pos
      · split
        · exact Nat.lt_add_right _ Nat.one_pos
        · exact this

/-! ## Gaps -/

/-- What stands between two tokens: how many characters, whether they break the line, and where a
comment begins that is never closed. -/
structure Gap where
  length : Nat
  newline : Bool
  openAt : Option Nat
deriving DecidableEq, Repr, Inhabited

namespace Gap

/-- The gap with some characters in front of it. -/
def behind (g : Gap) (n : Nat) (newline : Bool) : Gap :=
  ⟨n + g.length, newline || g.newline, g.openAt.map (n + ·)⟩

end Gap

/-- The gap at the front of the characters. -/
def gap : List Char → Gap
  | [] => ⟨0, false, none⟩
  | c :: cs =>
    if isBlank c then (gap cs).behind 1 (c = '\n')
    else if c = '/' && cs.head? = some '/' then
      let n := runLength (· ≠ '\n') cs
      (gap (cs.drop n)).behind (n + 1) false
    else if c = '/' && cs.head? = some '*' then
      let (n, closed) := blockComment (cs.drop 1)
      let newline := (cs.take (n + 1)).any (· = '\n')
      if closed then (gap (cs.drop (n + 1))).behind (n + 2) newline
      else ⟨n + 2, newline, some 0⟩
    else ⟨0, false, none⟩
termination_by cs => cs.length
decreasing_by all_goals simp only [List.length_drop, List.length_cons]; omega

/-! ## The whole text -/

/-- The tokens and faults of a text, in order. -/
structure Lexed where
  tokens : List Token
  reports : List Report
deriving DecidableEq, Repr, Inhabited

/-- The tokens of the characters that begin at a byte offset. -/
def lexFrom (offset : Nat) (cs : List Char) : Lexed :=
  let g := gap cs
  let start := offset + Chars.byteLength (cs.take g.length)
  let inGap : List Report := match g.openAt with
    | none => []
    | some n => [⟨.openComment, ⟨offset + Chars.byteLength (cs.take n), start⟩⟩]
  match _h : cs.drop g.length with
  | [] => ⟨[⟨.eof, ⟨start, start⟩, true, ""⟩], inGap⟩
  | d :: ds =>
    let lexeme := scan d ds
    let text := (d :: ds).take lexeme.length
    let stop := start + Chars.byteLength text
    let span : Span := ⟨start, stop⟩
    let found : List Report := lexeme.fault.toList.map (⟨·, span⟩)
    let rest := lexFrom stop ((d :: ds).drop lexeme.length)
    ⟨⟨lexeme.kind, span, g.newline, String.ofList text⟩ :: rest.tokens, inGap ++ found ++ rest.reports⟩
termination_by cs.length
decreasing_by
  have h1 := scan_pos d ds
  have h2 : (cs.drop g.length).length = ds.length + 1 := by rw [_h]; rfl
  simp only [List.length_drop, List.length_cons] at h2 ⊢
  omega

/-- The tokens of a text. The last one is always the end of the text, which counts as standing on a
line of its own. -/
def lex (text : String) : Lexed := lexFrom 0 text.toList

end Recheck.Syntax
