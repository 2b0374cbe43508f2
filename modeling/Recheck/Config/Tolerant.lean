import Recheck.Text.Chars

/-!
# JSON with comments

Project files may hold comments, and a comma behind the last member. `Tolerant.strip` writes blanks over
both, byte for byte, so that what is left is strict JSON with everything at its place. Strings are left
alone.
-/

set_option autoImplicit false

namespace Recheck.Tolerant

/-- As many blanks as a character has bytes. A line feed stays. -/
def blank (c : Char) : List Char := if c = '\n' then [c] else List.replicate c.utf8Size ' '

/-- Where in a text a character stands. -/
inductive Place where
  | code
  | string
  /-- Behind a backslash in a string. -/
  | escape
  | lineComment
  | blockComment
deriving DecidableEq, Repr

/-- Writes blanks over comments. A comment that is not closed reaches to the end of the text. -/
def blankComments : Place → List Char → List Char
  | _, [] => []
  | .code, '/' :: '/' :: rest => ' ' :: ' ' :: blankComments .lineComment rest
  | .code, '/' :: '*' :: rest => ' ' :: ' ' :: blankComments .blockComment rest
  | .code, c :: rest => c :: blankComments (if c = '"' then .string else .code) rest
  | .string, c :: rest =>
    c :: blankComments (if c = '\\' then .escape else if c = '"' then .code else .string) rest
  | .escape, c :: rest => c :: blankComments .string rest
  | .lineComment, c :: rest =>
    blank c ++ blankComments (if c = '\n' then .code else .lineComment) rest
  | .blockComment, '*' :: '/' :: rest => ' ' :: ' ' :: blankComments .code rest
  | .blockComment, c :: rest => blank c ++ blankComments .blockComment rest

/-- Blanks in front of which a comma can be the last one. -/
def isGap (c : Char) : Bool := c = ' ' || c = '\t' || c = '\n' || c.toNat = 12 || c = '\r'

/-- Whether the next character that is no blank closes an object or an array. -/
def closesNext (cs : List Char) : Bool :=
  match cs.dropWhile isGap with
  | c :: _ => c = '\x7d' || c = ']'
  | [] => false

/-- Writes blanks over commas behind the last member. -/
def blankCommas : Place → List Char → List Char
  | _, [] => []
  | .string, c :: rest =>
    c :: blankCommas (if c = '\\' then .escape else if c = '"' then .code else .string) rest
  | .escape, c :: rest => c :: blankCommas .string rest
  | _, c :: rest =>
    (if c = ',' && closesNext rest then ' ' else c) :: blankCommas (if c = '"' then .string else .code) rest

/-- The text without comments and without commas behind the last member. -/
def strip (text : String) : String :=
  String.ofList (blankCommas .code (blankComments .code text.toList))

end Recheck.Tolerant
