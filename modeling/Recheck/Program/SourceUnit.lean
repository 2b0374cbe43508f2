import Recheck.Syntax.Parse
import Recheck.Syntax.Walk

/-!
# Source units

A source text with all that follows from the text alone: its tree and its syntax errors.
-/

set_option autoImplicit false

namespace Recheck

/-- A file that has been read. -/
structure SourceUnit where
  source : Source
  tree : Syntax.SourceModule
  syntaxDiagnostics : List Diagnostic

namespace SourceUnit

/-- Reads the text of a file. -/
def ofText (path : Path) (text : String) : SourceUnit :=
  let source : Source := ⟨path, text⟩
  let parsed := Syntax.parse text
  ⟨source, parsed.tree, parsed.reports.map (·.toDiagnostic source)⟩

instance : Inhabited SourceUnit := ⟨ofText default ""⟩

def path (u : SourceUnit) : Path := u.source.path

def text (u : SourceUnit) : String := u.source.text

def contentHash (u : SourceUnit) : ContentHash := u.source.contentHash

def isTypeDefinition (u : SourceUnit) : Bool := u.path.isTypeDefinition

def isModule (u : SourceUnit) : Bool := u.tree.hasModuleSyntax

/-- Whether a change of the file can show in files that do not import it: it shares its declarations, or
declares something for all. -/
def hasGlobalImpact (u : SourceUnit) : Bool := u.tree.hasAmbientDeclaration || !u.isModule

end SourceUnit

end Recheck
