import Recheck.Data.Json.Basic
import Recheck.Text.Chars

/-!
# Reading JSON

The strict format: one value with blanks around it. There are two ways to fail. A text is unfinished when
it ends too early, and malformed when a character cannot stand where it stands; the first failure in the
order of the text counts. Values may be nested to a depth of 127.
-/

set_option autoImplicit false

namespace Recheck.Json

/-- Why a text is not a value. -/
inductive Fault where
  /-- The text ended before the value did. -/
  | unfinished
  /-- Something stands where it must not. -/
  | malformed
deriving DecidableEq, Repr

/-- Reads a part of a text: what it says, and the text behind it. -/
abbrev Reader (α : Type) := List Char → Except Fault (α × List Char)

def isBlank (c : Char) : Bool := c = ' ' || c = '\n' || c = '\t' || c = '\r'

def skipBlanks (cs : List Char) : List Char := cs.dropWhile isBlank

/-- The failure at this place: nothing that is left would help, or the next character is wrong. -/
def failAt {α : Type} (cs : List Char) : Except Fault α :=
  .error (if cs.isEmpty then .unfinished else .malformed)

/-! ## Strings -/

def hexValue? (c : Char) : Option Nat :=
  if c.isDigit then some (c.toNat - 48)
  else if 'a' ≤ c && c ≤ 'f' then some (c.toNat - 87)
  else if 'A' ≤ c && c ≤ 'F' then some (c.toNat - 55)
  else none

/-- Four hexadecimal digits. A text with fewer than four bytes left is unfinished, whatever they are. -/
def readHex (cs : List Char) : Except Fault (Nat × List Char) :=
  if Chars.byteLength (cs.take 4) < 4 then .error .unfinished
  else match (cs.take 4).mapM hexValue? with
    | some digits => .ok (digits.foldl (fun n d => 16 * n + d) 0, cs.drop 4)
    | none => .error .malformed

/-- The second half of a character that takes two escapes. -/
def readLowHalf (high : Nat) (cs : List Char) : Except Fault (Char × List Char) :=
  match cs with
  | '\\' :: 'u' :: rest => do
    let (low, rest) ← readHex rest
    if 0xDC00 ≤ low && low ≤ 0xDFFF then
      .ok (Char.ofNat (0x10000 + (high - 0xD800) * 0x400 + (low - 0xDC00)), rest)
    else .error .malformed
  | '\\' :: rest => failAt rest
  | rest => failAt rest

/-- The number of a character, or the two halves of one. -/
def readUnicode (cs : List Char) : Except Fault (Char × List Char) := do
  let (n, rest) ← readHex cs
  if 0xD800 ≤ n && n ≤ 0xDBFF then readLowHalf n rest
  else if 0xDC00 ≤ n && n ≤ 0xDFFF then .error .malformed
  else .ok (Char.ofNat n, rest)

/-- The character of an escape, read behind the backslash. -/
def readEscape (cs : List Char) : Except Fault (Char × List Char) :=
  match cs with
  | [] => .error .unfinished
  | c :: rest =>
    if c = '"' || c = '\\' || c = '/' then .ok (c, rest)
    else if c = 'b' then .ok (Char.ofNat 8, rest)
    else if c = 'f' then .ok (Char.ofNat 12, rest)
    else if c = 'n' then .ok ('\n', rest)
    else if c = 'r' then .ok ('\r', rest)
    else if c = 't' then .ok ('\t', rest)
    else if c = 'u' then readUnicode rest
    else .error .malformed

/-- The characters of a string up to its closing quote, at most `n` of them. -/
def readChars : Nat → Reader (List Char)
  | 0, _ => .error .unfinished
  | n + 1, cs =>
    match cs with
    | [] => .error .unfinished
    | c :: rest =>
      if c = '"' then .ok ([], rest)
      else if c = '\\' then do
        let (c, rest) ← readEscape rest
        let (more, rest) ← readChars n rest
        .ok (c :: more, rest)
      else if c.toNat < 32 then .error .malformed
      else do
        let (more, rest) ← readChars n rest
        .ok (c :: more, rest)

/-- A string, read behind its opening quote. -/
def readString (cs : List Char) : Except Fault (String × List Char) := do
  let (text, rest) ← readChars (cs.length + 1) cs
  .ok (String.ofList text, rest)

/-! ## Numbers -/

/-- The value of some decimal digits. -/
def digitsValue (digits : List Char) : Nat := digits.foldl (fun n c => 10 * n + (c.toNat - 48)) 0

/-- Whether digits, shifted by a power of ten, reach the first number that rounds to infinity as a
floating point number of 64 bits: 2^1024 - 2^970. A shift that is out of all proportion decides without
computing the power. -/
def isTooLarge (digits : List Char) (shift : Int) : Bool :=
  let digits := digits.dropWhile (· = '0')
  let bound := Nat.pow 2 1024 - Nat.pow 2 970
  if digits.isEmpty then false
  else
    let size := digits.length + shift
    if size < 309 then false
    else if 309 < size then true
    else if 0 ≤ shift then bound ≤ digitsValue digits * Nat.pow 10 shift.toNat
    else bound * Nat.pow 10 (-shift).toNat ≤ digitsValue digits

/-- At least one digit. -/
def readDigits (cs : List Char) : Except Fault (List Char × List Char) :=
  let digits := cs.takeWhile Char.isDigit
  let rest := cs.dropWhile Char.isDigit
  if digits.isEmpty then failAt rest else .ok (digits, rest)

/-- The digits behind a point, if there is one. -/
def readFraction (cs : List Char) : Except Fault (Option (List Char) × List Char) :=
  match cs with
  | '.' :: rest => do
    let (digits, rest) ← readDigits rest
    .ok (some digits, rest)
  | _ => .ok (none, cs)

/-- The power of ten behind an `e`, if there is one. -/
def readExponent (cs : List Char) : Except Fault (Option Int × List Char) :=
  match cs with
  | [] => .ok (none, cs)
  | c :: rest =>
    if c = 'e' || c = 'E' then do
      let negative := rest.head? = some '-'
      let signed := negative || rest.head? = some '+'
      let (digits, rest) ← readDigits (if signed then rest.tail else rest)
      let n : Int := digitsValue digits
      .ok (some (if negative then -n else n), rest)
    else .ok (none, cs)

/-- The digits in front of the point. A zero stands alone. -/
def readWhole (cs : List Char) : Except Fault (List Char × List Char) := do
  let (digits, rest) ← readDigits cs
  if digits.head? = some '0' && digits.length ≠ 1 then .error .malformed else .ok (digits, rest)

/-- A number. Numbers beyond the range of a floating point number of 64 bits are malformed. -/
def readNumber (cs : List Char) : Except Fault (Json × List Char) := do
  let negative := cs.head? = some '-'
  let (whole, rest) ← readWhole (if negative then cs.tail else cs)
  let (fraction, rest) ← readFraction rest
  let (exponent, rest) ← readExponent rest
  let places := (fraction.getD []).length
  if isTooLarge (whole ++ fraction.getD []) (exponent.getD 0 - places) then .error .malformed
  else if !negative && fraction.isNone && exponent.isNone && digitsValue whole ≤ maxUInt64 then
    .ok (natural (digitsValue whole), rest)
  else .ok (number (String.ofList (cs.take (cs.length - rest.length))), rest)

/-! ## Values -/

/-- A word that is a value. -/
def readWord (value : Json) : List Char → Reader Json
  | [], cs => .ok (value, cs)
  | w :: word, c :: cs => if c = w then readWord value word cs else .error .malformed
  | _ :: _, [] => .error .unfinished

/-- A value that holds no other. -/
def readScalar (cs : List Char) : Except Fault (Json × List Char) :=
  match cs with
  | [] => .error .unfinished
  | c :: rest =>
    if c = '"' then do
      let (s, rest) ← readString rest
      .ok (string s, rest)
    else if c = '-' || c.isDigit then readNumber cs
    else if c = 'n' then readWord null "ull".toList rest
    else if c = 't' then readWord (bool true) "rue".toList rest
    else if c = 'f' then readWord (bool false) "alse".toList rest
    else .error .malformed

/-- Items up to the closing bracket, at most `n` of them. There is at least one. -/
def readItems (value : Reader Json) : Nat → Reader (List Json)
  | 0, _ => .error .unfinished
  | n + 1, cs => do
    let (item, rest) ← value cs
    match skipBlanks rest with
    | ',' :: rest =>
      let (more, rest) ← readItems value n rest
      .ok (item :: more, rest)
    | ']' :: rest => .ok ([item], rest)
    | rest => failAt rest

/-- A key and the colon behind it. -/
def readKey (cs : List Char) : Except Fault (String × List Char) :=
  match skipBlanks cs with
  | '"' :: rest => do
    let (key, rest) ← readString rest
    match skipBlanks rest with
    | ':' :: rest => .ok (key, rest)
    | rest => failAt rest
  | rest => failAt rest

/-- Entries up to the closing brace, at most `n` of them. There is at least one. -/
def readEntries (value : Reader Json) : Nat → Reader (List (String × Json))
  | 0, _ => .error .unfinished
  | n + 1, cs => do
    let (key, rest) ← readKey cs
    let (item, rest) ← value rest
    match skipBlanks rest with
    | ',' :: rest =>
      let (more, rest) ← readEntries value n rest
      .ok ((key, item) :: more, rest)
    | '\x7d' :: rest => .ok ([(key, item)], rest)
    | rest => failAt rest

/-- An array, read behind its bracket. -/
def readArray (value : Reader Json) (cs : List Char) : Except Fault (Json × List Char) :=
  match skipBlanks cs with
  | ']' :: rest => .ok (array [], rest)
  | _ => do
    let (items, rest) ← readItems value (cs.length + 1) cs
    .ok (array items, rest)

/-- An object, read behind its brace. -/
def readObject (value : Reader Json) (cs : List Char) : Except Fault (Json × List Char) :=
  match skipBlanks cs with
  | '\x7d' :: rest => .ok (object [], rest)
  | _ => do
    let (entries, rest) ← readEntries value (cs.length + 1) cs
    .ok (object entries, rest)

/-- A value that is nested to at most this depth. -/
def readValue : Nat → Reader Json
  | 0, cs => readScalar (skipBlanks cs)
  | n + 1, cs =>
    match skipBlanks cs with
    | '[' :: rest => readArray (readValue n) rest
    | '\x7b' :: rest => readObject (readValue n) rest
    | rest => readScalar rest

/-- How deep values may be nested. -/
def maxDepth : Nat := 127

/-- Reads a text that is one value. -/
def parse (text : String) : Except Fault Json := do
  let (value, rest) ← readValue maxDepth text.toList
  if (skipBlanks rest).isEmpty then .ok value else .error .malformed

end Recheck.Json
