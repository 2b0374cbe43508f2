import Recheck.Check.Fault
import Recheck.Check.Lookup
import Recheck.Types.Relation
import Recheck.Types.Show

/-!
# Questions of a check

The rules of the checker say what follows about a node from what is known about its parts and about the
declarations it names. A rule is a `CheckM`: it asks questions, one after the other, and goes on from the
answers. Who answers, and from what memory, is not its concern: `Check/Checker` answers from what the
checker has found out before.
-/

set_option autoImplicit false

namespace Recheck.Check

open Syntax

/-! ## Questions -/

/-- A question about a node, which the rule for nodes of its kind settles. -/
inductive Judgement where
  /-- The type of an expression, where one of the given type is expected. -/
  | expr (expr : Expr) (site : Site) (expected : Option Ty)
  /-- The meaning of a type. -/
  | type (node : TypeNode) (site : Site)
  /-- The check of a statement in a function with the given result. -/
  | statement (stmt : Statement) (site : Site) (result : Option Ty)
  /-- The types that a statement returns from its function. -/
  | returns (stmt : Statement) (site : Site)

abbrev Judgement.Answer : Judgement → Type
  | expr .. => Ty
  | type .. => Ty
  | statement .. => Unit
  | returns .. => List Ty

/-- The answer of a judgement that knows nothing and finds nothing. -/
def Judgement.blank : (j : Judgement) → j.Answer
  | expr .. => .any
  | type .. => .any
  | statement .. => ()
  | returns .. => []

/-- What a rule can ask for, or ask to be done. -/
inductive Question where
  | judge (j : Judgement)
  /-- The type of a declaration. -/
  | declared (d : Declaration)
  | bindings
  /-- Whether the check is inside a computation that reports nothing: the type of a declaration may be
  asked for anywhere and any number of times, but its faults belong to the place where it is written. -/
  | isQuiet
  /-- To report a finding, unless the check is inside a quiet computation. -/
  | report (fault : Fault) (span : Span)
  /-- To note that an import is used. -/
  | use (binding : ImportBinding)
  /-- To bind a body that says something about other modules. -/
  | openBody (body : Body) (parent : ScopeId)

abbrev Question.Answer : Question → Type
  | judge j => j.Answer
  | declared _ => Ty
  | bindings => Bindings
  | isQuiet => Bool
  | report .. => Unit
  | use _ => Unit
  | openBody .. => Unit

/-- A part of a check: its result, or a question and how to go on from the answer. -/
inductive CheckM (α : Type) where
  | done (result : α)
  | ask (q : Question) (next : q.Answer → CheckM α)

namespace CheckM

variable {α β : Type}

protected def bind : CheckM α → (α → CheckM β) → CheckM β
  | done a, f => f a
  | ask q next, f => ask q fun answer => (next answer).bind f

instance : Monad CheckM where
  pure := done
  bind := CheckM.bind

/-- Carries a part of a check out with someone to answer its questions. -/
def run {m : Type → Type} [Monad m] (answer : (q : Question) → m q.Answer) : CheckM α → m α
  | done a => pure a
  | ask q next => answer q >>= fun a => (next a).run answer

end CheckM

/-! ## Asking -/

def exprType (expr : Expr) (site : Site) (expected : Option Ty) : CheckM Ty :=
  .ask (.judge (.expr expr site expected)) .done

def typeMeaning (node : TypeNode) (site : Site) : CheckM Ty := .ask (.judge (.type node site)) .done

def checkStatement (stmt : Statement) (site : Site) (result : Option Ty) : CheckM Unit :=
  .ask (.judge (.statement stmt site result)) .done

def returnTypes (stmt : Statement) (site : Site) : CheckM (List Ty) :=
  .ask (.judge (.returns stmt site)) .done

def declared (d : Declaration) : CheckM Ty := .ask (.declared d) .done

def bindings : CheckM Bindings := .ask .bindings .done

def options : CheckM CompilerOptions := return (← bindings).program.options

def isQuiet : CheckM Bool := .ask .isQuiet .done

def report (fault : Fault) (span : Span) : CheckM Unit := .ask (.report fault span) .done

/-! ## Names -/

/-- The value of a name; an import is used by that. -/
def lookupValue (scope : ScopeId) (name : String) : CheckM (Option ValueSymbol) := do
  let found := (← bindings).lookupValue scope name
  if let some (.imported binding) := found then .ask (.use binding) .done
  return found

/-- The type of a name; an import is used by that. -/
def lookupType (scope : ScopeId) (name : String) : CheckM (Option TypeSymbol) := do
  let found := (← bindings).lookupType scope name
  if let some (.imported binding) := found then .ask (.use binding) .done
  return found

/-- The declaration behind a value, through all imports. -/
def resolveValue (symbol : ValueSymbol) : CheckM (Option ValueSymbol) :=
  return (← bindings).resolveValue Bindings.aliasDepth symbol

/-- The declaration behind a type, through all imports. -/
def resolveTypeSymbol (symbol : TypeSymbol) : CheckM (Option TypeSymbol) :=
  return (← bindings).resolveType Bindings.aliasDepth symbol

/-! ## Sites inside nodes -/

/-- The site inside a generic declaration. Without type parameters it is the one around it. -/
def typeParamSite (kind : NodeKind) (start : Nat) (site : Site) (names : List Ident) : Site :=
  if names.isEmpty then site
  else { site with scope := .inner ⟨⟨kind, site.file, start⟩, names, [], []⟩ site.scope 0 }

/-- The site inside a body. -/
def bodySite (body : Body) (site : Site) : CheckM Site := do
  unless body.isPlain do CheckM.ask (.openBody body site.scope) .done
  return { site with scope := .inner body site.scope 0 }

/-- The site inside a function, with its parameters and the declarations of its body. -/
def functionSite (kind : NodeKind) (start : Nat) (site : Site) (names : List Ident)
    (params : List Param) (body : List Statement) : CheckM Site :=
  bodySite ⟨⟨kind, site.file, start⟩, names, params, body⟩ site

def blockSite (block : Block) (site : Site) : CheckM Site :=
  bodySite ⟨⟨.block, site.file, block.span.start⟩, [], [], block.statements⟩ site

end Recheck.Check
