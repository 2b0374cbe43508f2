import Recheck.Data.Toml.Basic

/-!
# Reading TOML

The lines of a document, and the values on them. A reader answers what it has read and the text behind it,
or `none` when the text is not of its form.
-/

set_option autoImplicit false

namespace Recheck.Toml

/-- Reads a part of a text: what it says, and the text behind it. -/
abbrev Reader (α : Type) := List Char → Option (α × List Char)

/-! ## Blanks, comments and line ends -/

def isBlank (c : Char) : Bool := c = ' ' || c = '\t'

def skipBlanks (cs : List Char) : List Char := cs.dropWhile isBlank

/-- The characters of comments and strings: all but the control characters, of which the tab is allowed. -/
def isText (c : Char) : Bool := c = '\t' || (32 ≤ c.toNat && c.toNat ≠ 127)

/-- The text behind a line end, if there is one here. -/
def afterLineEnd? : List Char → Option (List Char)
  | '\n' :: rest => some rest
  | '\r' :: '\n' :: rest => some rest
  | _ => none

/-- The text without a comment in front. -/
def skipComment : List Char → List Char
  | '#' :: rest => rest.dropWhile isText
  | cs => cs

/-- Skips blanks, comments and line ends, at most `n` lines. A comment ends with its line. -/
def skipLines : Nat → List Char → List Char
  | 0, cs => cs
  | n + 1, cs =>
    let cs := skipBlanks cs
    match afterLineEnd? (skipComment cs) with
    | some rest => skipLines n rest
    | none => cs

/-- The end of a line of the document: blanks, a comment, and a line end or the end of the text. -/
def endLine? (cs : List Char) : Option (List Char) :=
  match skipComment (skipBlanks cs) with
  | [] => some []
  | rest => afterLineEnd? rest

/-! ## Strings -/

def hexValue? (c : Char) : Option Nat :=
  if c.isDigit then some (c.toNat - 48)
  else if 'a' ≤ c && c ≤ 'f' then some (c.toNat - 87)
  else if 'A' ≤ c && c ≤ 'F' then some (c.toNat - 55)
  else none

/-- A character by its number, written with this many hexadecimal digits. -/
def readCodePoint (size : Nat) (cs : List Char) : Option (Char × List Char) := do
  let digits ← (cs.take size).mapM hexValue?
  guard (digits.length = size)
  let n := digits.foldl (fun n d => 16 * n + d) 0
  guard (n < 0xD800 || (0xDFFF < n && n < 0x110000))
  some (Char.ofNat n, cs.drop size)

/-- The character of an escape, read behind the backslash. -/
def readEscape (cs : List Char) : Option (Char × List Char) :=
  match cs with
  | [] => none
  | c :: rest =>
    if c = '"' || c = '\\' then some (c, rest)
    else if c = 'b' then some (Char.ofNat 8, rest)
    else if c = 't' then some ('\t', rest)
    else if c = 'n' then some ('\n', rest)
    else if c = 'f' then some (Char.ofNat 12, rest)
    else if c = 'r' then some ('\r', rest)
    else if c = 'u' then readCodePoint 4 rest
    else if c = 'U' then readCodePoint 8 rest
    else none

/-- A string on one line, read behind its opening quote. Only between double quotes has a backslash a
meaning. -/
def readLineString (quote : Char) : Nat → Reader (List Char)
  | 0, _ => none
  | n + 1, cs =>
    match cs with
    | [] => none
    | c :: rest =>
      if c = quote then some ([], rest)
      else if c = '\\' && quote = '"' then do
        let (c, rest) ← readEscape rest
        let (more, rest) ← readLineString quote n rest
        some (c :: more, rest)
      else if isText c then do
        let (more, rest) ← readLineString quote n rest
        some (c :: more, rest)
      else none

/-- The text behind blanks and line ends. -/
def skipGap : List Char → List Char
  | '\r' :: '\n' :: rest => skipGap rest
  | '\n' :: rest => skipGap rest
  | c :: rest => if isBlank c then skipGap rest else c :: rest
  | [] => []

/-- The text behind a backslash that joins lines, if it is one: blanks, a line end, and all blanks and line
ends behind it. -/
def afterJoint? (cs : List Char) : Option (List Char) :=
  (afterLineEnd? (skipBlanks cs)).map skipGap

/-- A string over several lines, read behind its opening quotes. Up to two quotes may stand in front of
the three that close it. -/
def readLongString (quote : Char) : Nat → Reader (List Char)
  | 0, _ => none
  | n + 1, cs =>
    match cs with
    | [] => none
    | c :: rest =>
      if c = quote then
        let count := (cs.takeWhile (· = quote)).length
        if 3 ≤ count then
          some (List.replicate (min count 5 - 3) quote, cs.drop (min count 5))
        else do
          let (more, rest) ← readLongString quote n rest
          some (c :: more, rest)
      else if c = '\\' && quote = '"' then
        match afterJoint? rest with
        | some rest => readLongString quote n rest
        | none => do
          let (c, rest) ← readEscape rest
          let (more, rest) ← readLongString quote n rest
          some (c :: more, rest)
      else match afterLineEnd? cs with
        | some rest => do
          let (more, rest) ← readLongString quote n rest
          some ('\n' :: more, rest)
        | none =>
          if isText c then do
            let (more, rest) ← readLongString quote n rest
            some (c :: more, rest)
          else none

/-- A string, read behind its first quote. Three quotes begin a string over several lines; a line end right
behind them does not count. -/
def readString (quote : Char) (cs : List Char) : Option (String × List Char) := do
  let (text, rest) ←
    if cs.take 2 = [quote, quote] then
      let body := cs.drop 2
      readLongString quote (cs.length + 1) ((afterLineEnd? body).getD body)
    else readLineString quote (cs.length + 1) cs
  some (String.ofList text, rest)

/-! ## Numbers and words -/

def isWordChar (c : Char) : Bool := c.isAlphanum || c = '_' || c = '+' || c = '-'

/-- The value of a digit in a base. -/
def digitValue? (base : Nat) (c : Char) : Option Nat := (hexValue? c).filter (· < base)

/-- Digits of a base with underscores between them. -/
def digits? (base : Nat) (cs : List Char) : Option Nat := do
  let apart := cs.zip cs.tail |>.all fun (a, b) => !(a = '_' && b = '_')
  guard (apart && cs.head? ≠ some '_' && cs.getLast? ≠ some '_' && !cs.isEmpty)
  let digits ← (cs.filter (· ≠ '_')).mapM (digitValue? base)
  some (digits.foldl (fun n d => base * n + d) 0)

/-- Decimal digits that do not begin with a zero, unless they are a zero. -/
def decimal? (cs : List Char) : Option Nat :=
  if cs.head? = some '0' && cs.length ≠ 1 then none else digits? 10 cs

/-- A whole number, which has to fit 64 bits with a sign. -/
def integer? (cs : List Char) : Option Int := do
  let n : Int ← match cs with
    | '0' :: 'x' :: rest => (digits? 16 rest).map Int.ofNat
    | '0' :: 'o' :: rest => (digits? 8 rest).map Int.ofNat
    | '0' :: 'b' :: rest => (digits? 2 rest).map Int.ofNat
    | '+' :: rest => (decimal? rest).map Int.ofNat
    | '-' :: rest => (decimal? rest).map fun n => -Int.ofNat n
    | _ => (decimal? cs).map Int.ofNat
  guard (Int64.minValue.toInt ≤ n && n ≤ Int64.maxValue.toInt)
  some n

/-- A truth value or a whole number. -/
def readWord (cs : List Char) : Option (Toml × List Char) :=
  let word := cs.takeWhile isWordChar
  let rest := cs.dropWhile isWordChar
  if word = "true".toList then some (.bool true, rest)
  else if word = "false".toList then some (.bool false, rest)
  else (integer? word).map fun n => (.integer n, rest)

/-! ## Keys -/

def isKeyChar (c : Char) : Bool := c.isAlphanum || c = '_' || c = '-'

/-- One part of a key: bare, or a string on one line. -/
def readKeyPart (cs : List Char) : Option (String × List Char) :=
  match cs with
  | [] => none
  | c :: rest =>
    if c = '"' || c = '\'' then
      (readLineString c (rest.length + 1) rest).map fun (text, rest) => (String.ofList text, rest)
    else
      let part := cs.takeWhile isKeyChar
      if part.isEmpty then none else some (String.ofList part, cs.dropWhile isKeyChar)

/-- A key of at most `n` parts with dots between them. -/
def readKey : Nat → Reader (List String)
  | 0, _ => none
  | n + 1, cs => do
    let (part, rest) ← readKeyPart (skipBlanks cs)
    match skipBlanks rest with
    | '.' :: rest =>
      let (more, rest) ← readKey n rest
      some (part :: more, rest)
    | rest => some ([part], rest)

/-- A key, the sign behind it and a value. -/
def readPair (value : Reader Toml) (cs : List Char) : Option ((List String × Toml) × List Char) := do
  let (key, rest) ← readKey (cs.length + 1) cs
  match rest with
  | '=' :: rest =>
    let (v, rest) ← value (skipBlanks rest)
    some ((key, v), rest)
  | _ => none

/-! ## Values -/

/-- Items up to the closing bracket. There may be a comma in front of it, and lines may end anywhere. -/
def readItems (value : Reader Toml) : Nat → Reader (List Toml)
  | 0, _ => none
  | n + 1, cs =>
    match skipLines cs.length cs with
    | ']' :: rest => some ([], rest)
    | cs => do
      let (item, rest) ← value cs
      match skipLines rest.length rest with
      | ',' :: rest =>
        let (more, rest) ← readItems value n rest
        some (item :: more, rest)
      | ']' :: rest => some ([item], rest)
      | _ => none

/-- Pairs up to the closing brace, at least one. -/
def readPairs (value : Reader Toml) : Nat → Reader (List (List String × Toml))
  | 0, _ => none
  | n + 1, cs => do
    let (pair, rest) ← readPair value cs
    match skipBlanks rest with
    | ',' :: rest =>
      let (more, rest) ← readPairs value n rest
      some (pair :: more, rest)
    | '\x7d' :: rest => some ([pair], rest)
    | _ => none

/-- A value that is nested to at most this depth. -/
def readValue : Nat → Reader Toml
  | 0, _ => none
  | n + 1, cs =>
    match cs with
    | [] => none
    | c :: rest =>
      if c = '"' || c = '\'' then (readString c rest).map fun (s, rest) => (.string s, rest)
      else if c = '[' then
        (readItems (readValue n) (rest.length + 1) rest).map fun (items, rest) => (.array items, rest)
      else if c = '\x7b' then
        match skipBlanks rest with
        | '\x7d' :: rest => some (.table [], rest)
        | _ => do
          let (pairs, rest) ← readPairs (readValue n) (rest.length + 1) rest
          some (← ofPairs pairs, rest)
      else readWord cs

/-! ## Documents -/

/-- The path of a header, read behind its brackets and up to as many of them. -/
def readHeader (closing : List Char) (cs : List Char) : Option (List String × List Char) := do
  let (path, rest) ← readKey (cs.length + 1) cs
  guard (closing.isPrefixOf rest)
  some (path, rest.drop closing.length)

/-- What a line says. -/
def readStatement (cs : List Char) : Option (Statement × List Char) :=
  match cs with
  | '[' :: '[' :: rest => (readHeader [']', ']'] rest).map fun (path, rest) => (.rowHeader path, rest)
  | '[' :: rest => (readHeader [']'] rest).map fun (path, rest) => (.header path, rest)
  | _ => (readPair (readValue cs.length) cs).map fun ((path, v), rest) => (.entry path v, rest)

/-- The lines of a document, at most `n` of them. -/
def readStatements : Nat → List Char → Option (List Statement)
  | 0, _ => none
  | n + 1, cs =>
    match skipLines cs.length cs with
    | [] => some []
    | cs =>
      if (skipComment cs).isEmpty then some []
      else do
        let (statement, rest) ← readStatement cs
        let rest ← endLine? rest
        let more ← readStatements n rest
        some (statement :: more)

/-- Reads a document. A byte order mark in front of it does not count. -/
def parse? (text : String) : Option (List (String × Toml)) :=
  let cs := text.toList
  let cs := if cs.head? = some '\uFEFF' then cs.tail else cs
  (readStatements (cs.length + 1) cs).bind ofStatements

end Recheck.Toml
