import Recheck.Diagnostic.Basic

/-!
# Diagnostics as text

The plain form is one line with the place in front, then the notes. The framed form adds the source
line with the span underlined.
-/

set_option autoImplicit false

namespace Recheck

/-- How diagnostics are written. -/
inductive DiagnosticFormat where
  /-- The message alone. -/
  | basic
  /-- The message and the line it is about. -/
  | codeframe
deriving DecidableEq, Repr, Inhabited

namespace DiagnosticFormat

def name : DiagnosticFormat → String
  | basic => "basic"
  | codeframe => "codeframe"

def ofName? (s : String) : Option DiagnosticFormat := [basic, codeframe].find? (·.name = s)

theorem ofName?_name (f : DiagnosticFormat) : ofName? f.name = some f := by cases f <;> rfl

end DiagnosticFormat

namespace Diagnostic

/-- The file and position in front of a message. -/
def placeText (d : Diagnostic) : String :=
  match d.file, d.position with
  | none, _ => ""
  | some file, none => file.text ++ ": "
  | some file, some pos => file.text ++ "(" ++ pos.render ++ "): "

/-- The message with its place, severity and number, and one line for each note. -/
def renderMessage (d : Diagnostic) : String :=
  d.placeText ++ d.severity.name ++ " TS" ++ toString d.code ++ ": " ++ d.message ++
    String.join (d.notes.map fun note => "\n  " ++ note)

/-- The number of columns to underline: those of the span that lie on the line, at least one. -/
def underlineWidth (span : Span) (pos : LineCol) (line : List Char) : Nat :=
  max 1 (min span.length (Chars.byteLength line - (pos.character - 1)))

/-- The source line behind its number, and the underline below it. -/
def frame (span : Span) (pos : LineCol) (line : List Char) : String :=
  let gutter := toString pos.line
  let pad (n : Nat) (c : Char) : String := String.ofList (List.replicate n c)
  "\n\n" ++ gutter ++ " | " ++ String.ofList line ++ "\n" ++
    pad gutter.length ' ' ++ " | " ++ pad (pos.character - 1) ' ' ++
    pad (underlineWidth span pos line) '~'

/-- The whole form. The frame is left out when there is no source, no position, or no such line. -/
def render (d : Diagnostic) (format : DiagnosticFormat) (source : Option Source) : String :=
  match format, source, d.position with
  | .codeframe, some src, some pos =>
    match src.lineText pos.line with
    | some line => d.renderMessage ++ frame d.span pos line
    | none => d.renderMessage
  | _, _, _ => d.renderMessage

end Diagnostic

end Recheck
