import Recheck.Text.Chars

/-!
# Texts between quotes

How a list of texts is shown in a message: between brackets, each text between double quotes, with
everything escaped that could not be seen. Escapes are the usual letters, or the number of the character
between braces.
-/

set_option autoImplicit false

namespace Recheck.Quoted

/-- Characters that have no picture of their own: controls, formats, blanks other than the space,
unassigned and private ones, and marks that join the character in front of them. The list holds the
ranges that occur in text files. -/
def hidden : List (Nat × Nat) :=
  [(0x0, 0x1F), (0x7F, 0xA0), (0xAD, 0xAD), (0x300, 0x36F), (0x483, 0x489), (0x591, 0x5BD), (0x600, 0x605),
   (0x610, 0x61A), (0x61C, 0x61C), (0x64B, 0x65F), (0x6DD, 0x6DD), (0x70F, 0x70F), (0x1680, 0x1680),
   (0x180B, 0x180F), (0x1AB0, 0x1ACE), (0x1DC0, 0x1DFF), (0x2000, 0x200F), (0x2028, 0x202F),
   (0x205F, 0x206F), (0x20D0, 0x20F0), (0x3000, 0x3000), (0x302A, 0x302F), (0x3099, 0x309A),
   (0xD800, 0xF8FF), (0xFE00, 0xFE0F), (0xFE20, 0xFE2F), (0xFEFF, 0xFEFF), (0xFFF0, 0xFFFB),
   (0xFFFE, 0xFFFF), (0x1D165, 0x1D169), (0xE0000, 0x10FFFF)]

def isHidden (c : Char) : Bool := hidden.any fun (lo, hi) => lo ≤ c.toNat && c.toNat ≤ hi

def escape (c : Char) : List Char :=
  if c = '"' then ['\\', '"']
  else if c = '\\' then ['\\', '\\']
  else if c = '\n' then ['\\', 'n']
  else if c = '\r' then ['\\', 'r']
  else if c = '\t' then ['\\', 't']
  else if c.toNat = 0 then ['\\', '0']
  else if isHidden c then ['\\', 'u', '\x7b'] ++ Nat.toDigits 16 c.toNat ++ ['\x7d']
  else [c]

/-- A text between double quotes. -/
def text (s : String) : String :=
  String.ofList ('"' :: s.toList.flatMap escape ++ ['"'])

/-- Texts between brackets. -/
def list (texts : List String) : String :=
  "[" ++ Chars.intercalate ", " (texts.map text) ++ "]"

end Recheck.Quoted
