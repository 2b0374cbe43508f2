import Recheck.Text.Span
import Recheck.Text.Chars
import Recheck.Text.ContentHash
import Recheck.Text.Path

/-!
# Source texts and positions

A `Source` is the text of one file under its path. Positions shown to people are 1-based lines and
characters, where characters are counted in UTF-16 units as editors do.
-/

namespace Recheck

/-- A 1-based line and character. -/
structure LineCol where
  line : Nat
  character : Nat
deriving DecidableEq, Repr, Inhabited

namespace LineCol

/-- The form `line,character`. -/
def render (p : LineCol) : String := toString p.line ++ "," ++ toString p.character

end LineCol

/-- The text of one file. -/
structure Source where
  path : Path
  text : String
deriving DecidableEq, Repr, Inhabited

namespace Source

def chars (s : Source) : List Char := s.text.toList

def contentHash (s : Source) : ContentHash := ContentHash.ofText s.text

/-- The number of bytes of the text. -/
def byteLength (s : Source) : Nat := Chars.byteLength s.chars

/-- The lines of a text, each with its line feed if it has one. There is always a last line, which may
be empty. -/
def splitLines : List Char → List (List Char)
  | [] => [[]]
  | c :: cs =>
    if c = '\n' then [c] :: splitLines cs
    else match splitLines cs with
      | line :: rest => (c :: line) :: rest
      | [] => [[c]]

def lines (s : Source) : List (List Char) := splitLines s.chars

def lineCount (s : Source) : Nat := s.lines.length

/-- Finds the line that holds a byte offset: how many lines stand before it, and the characters between
the start of the line and the offset. The last answer is `none` inside a character. -/
def locate : Nat → List (List Char) → Nat × Option (List Char)
  | _, [] => (0, some [])
  | n, [line] => (0, (Chars.splitAt? n line).map (·.1))
  | n, line :: rest =>
    let size := Chars.byteLength line
    if n < size then (0, (Chars.splitAt? n line).map (·.1))
    else
      let (k, found) := locate (n - size) rest
      (k + 1, found)

/-- The position of a byte offset. Offsets past the end count as the end, and an offset inside a
character is shown at the start of its line. -/
def lineCol (s : Source) (offset : Nat) : LineCol :=
  let (k, before) := locate (min offset s.byteLength) s.lines
  ⟨k + 1, Chars.units (before.getD []) + 1⟩

/-- Line ends that are cut off when a line is shown. -/
def isLineEnd (c : Char) : Bool := c = '\n' || c = '\r'

/-- The text of a 1-based line without its line end. -/
def lineText (s : Source) (line : Nat) : Option (List Char) :=
  if line = 0 then none else s.lines[line - 1]?.map (Chars.trimEnd isLineEnd)

/-- The text that a span covers, or nothing when the span does not fit the text. -/
def snippet (s : Source) (span : Span) : String :=
  String.ofList ((Chars.slice? span.start span.stop s.chars).getD [])

end Source

end Recheck
