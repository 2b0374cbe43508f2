/-!
# Spans

A `Span` is a half-open range of byte offsets in one text. It does not name its file: whoever owns the
span (a node of the tree, a diagnostic) knows it.
-/

namespace Recheck

/-- A range of byte offsets: `start` is the first byte, `stop` the first byte after the range. -/
structure Span where
  start : Nat
  stop : Nat
deriving DecidableEq, Repr, Inhabited

namespace Span

/-- The empty range at the beginning, for things that have no place. -/
def empty : Span := ⟨0, 0⟩

/-- The smallest range that covers both. -/
def merge (a b : Span) : Span := ⟨min a.start b.start, max a.stop b.stop⟩

/-- The number of bytes; a reversed range has none. -/
def length (s : Span) : Nat := s.stop - s.start

def isEmpty (s : Span) : Bool := s.stop ≤ s.start

/-- Whether `inner` lies inside `s`. -/
def Encloses (s inner : Span) : Prop := s.start ≤ inner.start ∧ inner.stop ≤ s.stop

instance (s inner : Span) : Decidable (s.Encloses inner) :=
  inferInstanceAs (Decidable (s.start ≤ inner.start ∧ inner.stop ≤ s.stop))

@[simp] theorem start_merge (a b : Span) : (a.merge b).start = min a.start b.start := rfl

@[simp] theorem stop_merge (a b : Span) : (a.merge b).stop = max a.stop b.stop := rfl

theorem encloses_merge_left (a b : Span) : (a.merge b).Encloses a :=
  ⟨Nat.min_le_left .., Nat.le_max_left ..⟩

theorem encloses_merge_right (a b : Span) : (a.merge b).Encloses b :=
  ⟨Nat.min_le_right .., Nat.le_max_right ..⟩

end Span

end Recheck
