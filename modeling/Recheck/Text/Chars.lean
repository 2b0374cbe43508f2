/-!
# Characters and bytes

Texts are read as lists of characters while positions count the bytes of their UTF-8 form. This file
relates the two: how many bytes some characters take, and which characters a byte range covers.
-/

namespace Recheck.Chars

/-- The number of bytes that the characters take in UTF-8. -/
def byteLength : List Char → Nat
  | [] => 0
  | c :: cs => c.utf8Size + byteLength cs

@[simp] theorem byteLength_nil : byteLength [] = 0 := rfl

@[simp] theorem byteLength_cons (c : Char) (cs : List Char) :
    byteLength (c :: cs) = c.utf8Size + byteLength cs := rfl

@[simp] theorem byteLength_append (a b : List Char) :
    byteLength (a ++ b) = byteLength a + byteLength b := by
  induction a with
  | nil => simp
  | cons c a ih => simp [ih, Nat.add_assoc]

theorem byteLength_pos {cs : List Char} (h : cs ≠ []) : 0 < byteLength cs := by
  cases cs with
  | nil => exact absurd rfl h
  | cons c cs => have := c.utf8Size_pos; simp only [byteLength_cons]; omega

/-- Cuts the text at a byte offset, if that is a boundary between two characters. -/
def splitAt? : Nat → List Char → Option (List Char × List Char)
  | 0, cs => some ([], cs)
  | _ + 1, [] => none
  | n + 1, c :: cs =>
    if c.utf8Size ≤ n + 1 then
      (splitAt? (n + 1 - c.utf8Size) cs).map fun (a, b) => (c :: a, b)
    else none

/-- The characters between two byte offsets; `none` when an end falls inside a character, beyond the
text, or before the start. -/
def slice? (start stop : Nat) (cs : List Char) : Option (List Char) :=
  if stop < start then none
  else do
    let (_, tail) ← splitAt? start cs
    let (body, _) ← splitAt? (stop - start) tail
    pure body

/-- The number of 16-bit units that the characters take in UTF-16. -/
def units : List Char → Nat
  | [] => 0
  | c :: cs => (if c.toNat < 0x10000 then 1 else 2) + units cs

@[simp] theorem units_nil : units [] = 0 := rfl

@[simp] theorem units_append (a b : List Char) : units (a ++ b) = units a + units b := by
  induction a with
  | nil => simp
  | cons c a ih => simp [units, ih, Nat.add_assoc]

/-- The characters without those at the end that satisfy `p`. -/
def trimEnd (p : Char → Bool) (cs : List Char) : List Char :=
  (cs.reverse.dropWhile p).reverse

/-- Whether the second text begins with the first. -/
def startsWith (cs : List Char) (head : List Char) : Bool := head.isPrefixOf cs

/-- Joins texts with a separator between them. -/
def intercalate (sep : String) : List String → String
  | [] => ""
  | [s] => s
  | s :: rest => s ++ sep ++ intercalate sep rest

end Recheck.Chars
