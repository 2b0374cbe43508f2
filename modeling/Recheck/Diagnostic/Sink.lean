import Recheck.Diagnostic.Basic

/-!
# Collecting diagnostics

A `Sink` keeps diagnostics in the order in which they come and knows how many of them are errors.
-/

set_option autoImplicit false

namespace Recheck

/-- Diagnostics in order, with the number of errors among them. -/
structure Sink where
  diagnostics : List Diagnostic
  errorCount : Nat
  errorCount_eq : errorCount = diagnostics.countP (·.severity.isError) := by rfl

namespace Sink

def empty : Sink := ⟨[], 0, rfl⟩

instance : Inhabited Sink := ⟨empty⟩

/-- Adds a diagnostic at the end. -/
def emit (s : Sink) (d : Diagnostic) : Sink :=
  ⟨s.diagnostics ++ [d], s.errorCount + (if d.severity.isError then 1 else 0), by
    rw [s.errorCount_eq, List.countP_append, List.countP_singleton]⟩

def extend (s : Sink) (ds : List Diagnostic) : Sink := ds.foldl emit s

def hasErrors (s : Sink) : Bool := 0 < s.errorCount

def isEmpty (s : Sink) : Bool := s.diagnostics.isEmpty

def size (s : Sink) : Nat := s.diagnostics.length

end Sink

end Recheck
