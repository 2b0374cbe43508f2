import Recheck.Syntax.Parser.Statement

/-!
# From text to tree

`Grammar.ofDepth` ties the knot of the grammar: at each level the parts are read by the productions with
the parts of the level below. A text is read with one level for each of its tokens.
-/

set_option autoImplicit false

namespace Recheck.Syntax

open Recheck.Syntax.Parser

/-- The grammar for nodes nested to this depth. -/
def Parser.Grammar.ofDepth : Nat → Grammar
  | 0 => Grammar.exhausted
  | n + 1 => {
      type := fun s => typeNode (ofDepth n) s
      postfixType := fun s => Parser.postfixType (ofDepth n) s
      expr := fun s => exprNode (ofDepth n) s
      binary := fun power s => binaryExpr (ofDepth n) power s
      unary := fun s => unaryExpr (ofDepth n) s
      statement := fun s => statementNode (ofDepth n) s }

/-- One statement of a text. A closing brace that closes nothing is skipped. -/
def Parser.programStep (g : Grammar) (items : List Statement) : Parse (Step (List Statement)) := do
  if ← atEnd then return .done items
  if ← atKind .rBrace then
    report .statementExpected
    advance
    return .more items
  else return .more ((← statementNode g) :: items)

/-- All statements up to the end of the text. -/
def Parser.program (g : Grammar) : Parse (List Statement) := do
  let items ← repeating (programStep g) []
  return items.reverse

/-- A tree with the faults found on the way: those of the lexer, then those of the parser. -/
structure Parsed where
  tree : SourceModule
  reports : List Report

/-- Reads a text. Every text has a tree. -/
def parse (text : String) : Parsed :=
  let lexed := lex text
  let g := Grammar.ofDepth (lexed.tokens.length + 1)
  let (statements, state) := (program g).run (State.ofTokens lexed.tokens)
  ⟨⟨statements, ⟨0, Chars.byteLength text.toList⟩⟩, lexed.reports ++ state.reports.reverse⟩

end Recheck.Syntax
