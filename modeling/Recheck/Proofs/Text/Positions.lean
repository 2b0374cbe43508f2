import Mathlib.Data.Set.Function
import Recheck.Proofs.Text.Lines

/-!
# Positions

The position of an offset is told by the text in front of it alone (`lineCol_byteLength`): how many line feeds are in
it, and what stands behind the last of them. More text in front moves the position on, either to a later line or along
the line, so positions are ordered as the offsets are. Lines are shown as the pieces between line feeds, without the
carriage returns at their ends (`lineText_eq`).
-/

set_option autoImplicit false

namespace Recheck

/-- Whether a position stands in front of another. -/
def LineCol.Before (p q : LineCol) : Prop := p.line < q.line ∨ p.line = q.line ∧ p.character < q.character

theorem LineCol.Before.ne {p q : LineCol} (h : p.Before q) : p ≠ q := by
  rintro rfl
  rcases h with h | ⟨-, h⟩ <;> exact Nat.lt_irrefl _ h

namespace Source

variable {s : Source} {before after mid : List Char}

/-! ## Offsets -/

/-- An offset between two characters, or at one of the ends of the text. -/
def IsBoundary (s : Source) (offset : Nat) : Prop :=
  ∃ before after, s.chars = before ++ after ∧ offset = Chars.byteLength before

/-- The position behind some text. -/
def positionBehind (before : List Char) : LineCol :=
  ⟨before.count '\n' + 1, Chars.units (lastLine before) + 1⟩

theorem lineCol_byteLength (h : s.chars = before ++ after) :
    s.lineCol (Chars.byteLength before) = positionBehind before := by
  have hend : Chars.byteLength before ≤ s.byteLength := by
    rw [Source.byteLength, h, Chars.byteLength_append]
    omega
  have hlocate := s.isLines.locate_byteLength (s.flatten_lines.trans h)
  rw [lineCol, Nat.min_eq_left hend, hlocate]
  rfl

/-- A place on a line, told by the lines above it and what stands in front of it on its line. -/
theorem lineCol_onLine {k : Nat} {front back : List Char} (hline : s.lines[k]? = some (front ++ back))
    (hfront : '\n' ∉ front) :
    s.lineCol (Chars.byteLength ((s.lines.take k).flatten ++ front)) = ⟨k + 1, Chars.units front + 1⟩ := by
  obtain ⟨hk, hget⟩ := List.getElem?_eq_some_iff.mp hline
  obtain ⟨hcount, hlast⟩ := s.isLines.flatten_take hk
  have hsplit : s.chars = (s.lines.take k).flatten ++ front ++ (back ++ (s.lines.drop (k + 1)).flatten) := by
    rw [chars_eq_take_append s k, List.drop_eq_getElem_cons hk, hget, List.flatten_cons]
    simp only [List.append_assoc]
  rw [lineCol_byteLength hsplit, positionBehind, List.count_append, hcount, List.count_eq_zero_of_not_mem hfront,
    lastLine_append hfront, hlast]
  rfl

theorem positionBehind_append (hmid : mid ≠ []) :
    (positionBehind before).Before (positionBehind (before ++ mid)) := by
  by_cases hfeed : '\n' ∈ mid
  · have hpos := List.count_pos_iff.mpr hfeed
    refine .inl ?_
    simp only [positionBehind, List.count_append]
    omega
  · have hpos := Chars.units_pos hmid
    refine .inr ⟨?_, ?_⟩
    · simp [positionBehind, List.count_eq_zero_of_not_mem hfeed]
    · simp only [positionBehind, lastLine_append hfeed, Chars.units_append]
      omega

theorem before_of_lt {a b : Nat} (ha : s.IsBoundary a) (hb : s.IsBoundary b) (hlt : a < b) :
    (s.lineCol a).Before (s.lineCol b) := by
  obtain ⟨before, after, hsplit, rfl⟩ := ha
  obtain ⟨front, back, hfront, rfl⟩ := hb
  obtain ⟨mid, hmid, rfl⟩ := Chars.exists_between (hsplit.symm.trans hfront) hlt
  rw [lineCol_byteLength hsplit, lineCol_byteLength hfront]
  exact positionBehind_append hmid

theorem injOn_lineCol (s : Source) : Set.InjOn s.lineCol {offset | s.IsBoundary offset} := by
  intro a ha b hb heq
  rcases Nat.lt_trichotomy a b with hlt | hab | hlt
  · exact absurd heq (before_of_lt ha hb hlt).ne
  · exact hab
  · exact absurd heq.symm (before_of_lt hb ha hlt).ne

/-! ## Lines as they are shown -/

theorem lineCount_eq (s : Source) : s.lineCount = s.chars.count '\n' + 1 := by
  rw [lineCount, s.isLines.length_eq, flatten_lines]

/-- Dropping some characters first leaves nothing more to those that drop them too. -/
theorem dropWhile_dropWhile {α : Type} {p q : α → Bool} (h : ∀ c, q c → p c) (l : List α) :
    (l.dropWhile q).dropWhile p = l.dropWhile p := by
  induction l with
  | nil => rfl
  | cons c l ih =>
    by_cases hq : q c
    · rw [List.dropWhile_cons_of_pos hq, ih, List.dropWhile_cons_of_pos (h c hq)]
    · rw [List.dropWhile_cons_of_neg hq]

theorem trimEnd_bare (line : List Char) :
    Chars.trimEnd isLineEnd line = (IsLines.bare line).rdropWhile fun c => c = '\n' || c = '\r' := by
  unfold IsLines.bare List.rdropWhile
  rw [List.reverse_reverse, dropWhile_dropWhile (by simp +contextual)]
  rfl

theorem lineText_eq (s : Source) (line : Nat) :
    s.lineText line = if line = 0 then none
      else (s.chars.splitOn '\n')[line - 1]?.map (·.rdropWhile fun c => c = '\n' || c = '\r') := by
  unfold lineText
  split
  · rfl
  · rw [← flatten_lines, s.isLines.splitOn_flatten, List.getElem?_map, Option.map_map]
    cases s.lines[line - 1]? with
    | none => rfl
    | some text => exact congrArg some (trimEnd_bare text)

theorem isSome_lineText (s : Source) (line : Nat) : (s.lineText line).isSome ↔ 1 ≤ line ∧ line ≤ s.lineCount := by
  unfold lineText lineCount
  split
  · simp only [Option.isSome_none, Bool.false_eq_true, false_iff]
    omega
  · simp only [Option.isSome_map, isSome_getElem?]
    omega

/-- **Positions are exact, ordered as their offsets are and different for different offsets, and a line is shown as
what stands between its line feeds, without carriage returns behind it.** -/
theorem positions_exact (s : Source) :
    (∀ before after, s.chars = before ++ after →
      s.lineCol (Chars.byteLength before) = ⟨before.count '\n' + 1, Chars.units (before.rtakeWhile (· ≠ '\n')) + 1⟩) ∧
    (∀ a b, s.IsBoundary a → s.IsBoundary b → a < b → (s.lineCol a).Before (s.lineCol b)) ∧
    Set.InjOn s.lineCol {offset | s.IsBoundary offset} ∧
    s.lineCount = s.chars.count '\n' + 1 ∧
    (∀ line, (s.lineText line).isSome ↔ 1 ≤ line ∧ line ≤ s.lineCount) ∧
    ∀ line, s.lineText line = if line = 0 then none
      else (s.chars.splitOn '\n')[line - 1]?.map (·.rdropWhile fun c => c = '\n' || c = '\r') :=
  ⟨fun _ _ h => lineCol_byteLength h, fun _ _ ha hb h => before_of_lt ha hb h, injOn_lineCol s, lineCount_eq s,
    isSome_lineText s, lineText_eq s⟩

/-- Two bytes and one unit, four bytes and two units, and both kinds of line ends. -/
def mixed : Source := ⟨⟨"/m.ts"⟩, "é\r\n😀b\n"⟩

theorem positions_exact_mixed :
    mixed.chars = ['é', '\r', '\n', '😀'] ++ ['b', '\n'] ∧ mixed.lineCol 8 = ⟨2, 3⟩ ∧
      mixed.IsBoundary 4 ∧ mixed.IsBoundary 8 ∧ (mixed.lineCol 4).Before (mixed.lineCol 8) := by
  have hsplit : mixed.chars = ['é', '\r', '\n', '😀'] ++ ['b', '\n'] := by decide +kernel
  have hline : mixed.IsBoundary 4 := ⟨['é', '\r', '\n'], ['😀', 'b', '\n'], hsplit, by decide⟩
  have hinside : mixed.IsBoundary 8 := ⟨_, _, hsplit, by decide⟩
  exact ⟨hsplit, (positions_exact mixed).1 _ _ hsplit, hline, hinside,
    (positions_exact mixed).2.1 4 8 hline hinside (by decide)⟩

end Source

end Recheck
