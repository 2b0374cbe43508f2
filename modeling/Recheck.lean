import Recheck.Check.Assign
import Recheck.Check.Bindings
import Recheck.Check.Lookup
import Recheck.Check.Builtins
import Recheck.Check.Checker
import Recheck.Check.Declaration
import Recheck.Check.Expr
import Recheck.Check.Fault
import Recheck.Check.Question
import Recheck.Check.Statement
import Recheck.Check.Symbol
import Recheck.Command.Arguments
import Recheck.Command.Run
import Recheck.Config.Checker
import Recheck.Config.Fault
import Recheck.Config.Options
import Recheck.Config.Project
import Recheck.Config.Tolerant
import Recheck.Data.Dict
import Recheck.Data.Glob
import Recheck.Data.Json.Basic
import Recheck.Data.Json.Decode
import Recheck.Data.Json.Read
import Recheck.Data.Toml.Basic
import Recheck.Data.Toml.Read
import Recheck.Diagnostic.Basic
import Recheck.Diagnostic.Render
import Recheck.Diagnostic.Sink
import Recheck.Lint.Basic
import Recheck.Lint.Linter
import Recheck.Lint.Rules
import Recheck.Main
import Recheck.Program.Basic
import Recheck.Program.Disk
import Recheck.Program.Host
import Recheck.Program.Options
import Recheck.Program.Resolve
import Recheck.Program.SourceUnit
import Recheck.Report.Basic
import Recheck.Report.Item
import Recheck.Session.Basic
import Recheck.Session.Cycle
import Recheck.Session.Store
import Recheck.Syntax.Fault
import Recheck.Syntax.Lexer
import Recheck.Syntax.Parse
import Recheck.Syntax.Parser.Basic
import Recheck.Syntax.Parser.Expr
import Recheck.Syntax.Parser.Grammar
import Recheck.Syntax.Parser.Statement
import Recheck.Syntax.Parser.TypeNode
import Recheck.Syntax.Token
import Recheck.Syntax.Tree
import Recheck.Syntax.Same
import Recheck.Syntax.Walk
import Recheck.Text.Chars
import Recheck.Text.ContentHash
import Recheck.Text.Path
import Recheck.Text.Quoted
import Recheck.Text.Source
import Recheck.Text.Span
import Recheck.Types.Basic
import Recheck.Types.Relation
import Recheck.Types.Show
import Recheck.Types.Union
import Recheck.Worker.Hooks
import Recheck.Worker.Link
import Recheck.Worker.Message
import Recheck.Worker.Service
import Recheck.Proofs.Data.Dict
import Recheck.Proofs.Text.PathOrder
import Recheck.Proofs.Session.Closure
import Recheck.Proofs.Session.Affected
import Recheck.Proofs.Text.PathNormal
import Recheck.Proofs.Check.Memory
import Recheck.Proofs.Check.Sharing
import Recheck.Proofs.Check.Inquiry
import Recheck.Proofs.Check.Depth
import Recheck.Proofs.Check.Attribution
import Recheck.Proofs.Types.Relation
import Recheck.Proofs.Types.Objects
import Recheck.Proofs.Types.Reading
import Recheck.Proofs.Types.Strictness
import Recheck.Proofs.Types.UpperBound
import Recheck.Proofs.Types.Signatures
import Recheck.Proofs.Config.Roots
import Recheck.Proofs.Program.Search
import Recheck.Proofs.Program.Reuse
import Recheck.Proofs.Session.Agreement
import Recheck.Proofs.Session.Settled
import Recheck.Proofs.Session.Order
import Recheck.Proofs.Session.Escalation
import Recheck.Proofs.Session.Since
import Recheck.Proofs.Session.Entry
import Recheck.Proofs.Session.Marks
import Recheck.Proofs.Session.Passed
import Recheck.Proofs.Data.Json
import Recheck.Proofs.Data.Record
import Recheck.Proofs.Worker.Reporting
import Recheck.Proofs.Worker.Wire
import Recheck.Proofs.Worker.Serving
import Recheck.Proofs.Text.PathSteps
import Recheck.Proofs.Program.Resolve
import Recheck.Proofs.Program.Discovery
import Recheck.Proofs.Syntax.Lexing
import Recheck.Proofs.Syntax.Progress
import Recheck.Proofs.Syntax.Spans.Text
import Recheck.Proofs.Check.Files
import Recheck.Proofs.Check.Reexports
import Recheck.Proofs.Check.Arity
import Recheck.Proofs.Check.Unused
import Recheck.Proofs.Check.Redeclared
import Recheck.Proofs.Check.Locality
import Recheck.Proofs.Syntax.Respacing
import Recheck.Proofs.Syntax.Templates
import Recheck.Proofs.Syntax.Formula
import Recheck.Proofs.Syntax.Precedence
import Recheck.Proofs.Syntax.Strings
import Recheck.Proofs.Syntax.Places
import Recheck.Proofs.Syntax.Walks
import Recheck.Proofs.Check.Exports
import Recheck.Proofs.Syntax.Names
import Recheck.Proofs.Syntax.Kept.Basic
import Recheck.Proofs.Syntax.Kept.Types
import Recheck.Proofs.Syntax.Kept.Exprs
import Recheck.Proofs.Syntax.Kept.Statements
import Recheck.Proofs.Lint.ExplicitAny
import Recheck.Proofs.Lint.Defaults
import Recheck.Proofs.Text.PathJoin
import Recheck.Proofs.Text.Positions
import Recheck.Proofs.Lint.LineLength
import Recheck.Proofs.Config.Comments
import Recheck.Proofs.Diagnostic.Underline
