/-!
# JSON values

A value as a text says it: the entries of an object keep their order, and a key may come twice. Whole
numbers from 0 to 2^64 - 1 are numbers; of any other number only the text is kept. `Json.render` writes a
value on one line.
-/

set_option autoImplicit false

namespace Recheck

/-- A JSON value. -/
inductive Json where
  | null
  | bool (value : Bool)
  /-- A whole number that needs at most 64 bits. -/
  | natural (value : Nat)
  /-- Any other number, as written. -/
  | number (text : String)
  | string (value : String)
  | array (items : List Json)
  | object (entries : List (String × Json))
deriving Repr, Inhabited

namespace Json

/-! ## Looking inside -/

def asString? : Json → Option String
  | string s => some s
  | _ => none

def asBool? : Json → Option Bool
  | bool b => some b
  | _ => none

def asArray? : Json → Option (List Json)
  | array items => some items
  | _ => none

/-- The whole number that a value is, if it is at most `bound`. -/
def asNat? (bound : Nat) : Json → Option Nat
  | natural n => if n ≤ bound then some n else none
  | _ => none

/-- The largest number of 32 bits. -/
def maxUInt32 : Nat := UInt32.size - 1

/-- The largest number of 64 bits. -/
def maxUInt64 : Nat := UInt64.size - 1

/-- An array of strings. -/
def asStrings? (j : Json) : Option (List String) := do
  (← j.asArray?).mapM asString?

/-! ## Writing -/

def hexDigit (n : Nat) : Char := Char.ofNat (if n < 10 then 48 + n else 87 + n)

/-- How a character is written inside a string. Only quotes, backslashes and control characters need
an escape. -/
def escapeChar (c : Char) : List Char :=
  if c = '"' then ['\\', '"']
  else if c = '\\' then ['\\', '\\']
  else if c = '\n' then ['\\', 'n']
  else if c = '\r' then ['\\', 'r']
  else if c = '\t' then ['\\', 't']
  else if c.toNat = 8 then ['\\', 'b']
  else if c.toNat = 12 then ['\\', 'f']
  else if c.toNat < 32 then ['\\', 'u', '0', '0', hexDigit (c.toNat / 16), hexDigit (c.toNat % 16)]
  else [c]

/-- A string between quotes. -/
def quote (s : String) : List Char := '"' :: s.toList.flatMap escapeChar ++ ['"']

mutual

/-- The characters of a value. -/
def chars : Json → List Char
  | null => "null".toList
  | bool true => "true".toList
  | bool false => "false".toList
  | natural n => Nat.toDigits 10 n
  | number text => text.toList
  | string s => quote s
  | array items => '[' :: itemChars items
  | object entries => '\x7b' :: entryChars entries

/-- The characters of the items of an array and the bracket behind them. -/
def itemChars : List Json → List Char
  | [] => [']']
  | [v] => v.chars ++ [']']
  | v :: rest => v.chars ++ ',' :: itemChars rest

/-- The characters of the entries of an object and the brace behind them. -/
def entryChars : List (String × Json) → List Char
  | [] => ['\x7d']
  | [(k, v)] => quote k ++ ':' :: v.chars ++ ['\x7d']
  | (k, v) :: rest => quote k ++ ':' :: v.chars ++ ',' :: entryChars rest

end

/-- A new line, indented by this many steps. -/
def newline (depth : Nat) : List Char := '\n' :: List.replicate (2 * depth) ' '

mutual

/-- The characters of a value over several lines; `depth` counts the brackets around it. -/
def prettyChars (depth : Nat) : Json → List Char
  | array (v :: rest) => '[' :: prettyItems (depth + 1) (v :: rest)
  | object (e :: rest) => '\x7b' :: prettyEntries (depth + 1) (e :: rest)
  | j => j.chars

def prettyItems (depth : Nat) : List Json → List Char
  | [] => newline (depth - 1) ++ [']']
  | v :: rest =>
    newline depth ++ prettyChars depth v ++ (if rest.isEmpty then [] else [',']) ++ prettyItems depth rest

def prettyEntries (depth : Nat) : List (String × Json) → List Char
  | [] => newline (depth - 1) ++ ['\x7d']
  | (k, v) :: rest =>
    newline depth ++ quote k ++ [':', ' '] ++ prettyChars depth v ++ (if rest.isEmpty then [] else [',']) ++
      prettyEntries depth rest

end

/-- A value over several lines. -/
def pretty (j : Json) : String := String.ofList (j.prettyChars 0)

/-- A value on one line. -/
def render (j : Json) : String := String.ofList j.chars

end Json

end Recheck
