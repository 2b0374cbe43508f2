import Recheck.Proofs.Lint.Imports
import Recheck.Proofs.Text.Positions

/-!
# Long lines

The rule about long lines walks over the lines with an offset of its own, while the position of a finding is looked up.
Both lead to the same line: where the walk has come to, as many line feeds stand in front as lines, so the offset is
where the line begins (`lineCol_lineStart`), and the span of the finding covers what is shown of the line
(`slice?_lineSpan`). The lines that are reported are those that are longer than the limit as they are shown
(`overlong_eq`).
-/

set_option autoImplicit false

namespace Recheck

namespace Source

variable {s : Source} {line : Nat}

/-- Where a line begins. -/
def lineStart (s : Source) (line : Nat) : Nat := Chars.byteLength (s.lines.take (line - 1)).flatten

/-- Where a line stands, as far as it is shown. -/
def lineSpan (s : Source) (line : Nat) : Span :=
  ⟨s.lineStart line, s.lineStart line + Chars.byteLength ((s.lineText line).getD [])⟩

theorem lineCol_lineStart (hone : 1 ≤ line) (hline : line ≤ s.lineCount) : s.lineCol (s.lineStart line) = ⟨line, 1⟩ := by
  have hk : line - 1 < s.lines.length := by
    unfold lineCount at hline
    omega
  have hfirst : s.lines[line - 1]? = some ([] ++ s.lines[line - 1]) := List.getElem?_eq_getElem hk
  have hstart := lineCol_onLine hfirst List.not_mem_nil
  rw [List.append_nil, Nat.sub_add_cancel hone] at hstart
  exact hstart

theorem slice?_lineSpan (hone : 1 ≤ line) (hline : line ≤ s.lineCount) :
    Chars.slice? (s.lineSpan line).start (s.lineSpan line).stop s.chars = s.lineText line := by
  have hk : line - 1 < s.lines.length := by
    unfold lineCount at hline
    omega
  have htext : s.lineText line = some (Chars.trimEnd isLineEnd s.lines[line - 1]) := by
    rw [lineText, if_neg (by omega), List.getElem?_eq_getElem hk, Option.map_some]
  obtain ⟨cut, hcut⟩ : Chars.trimEnd isLineEnd s.lines[line - 1] <+: s.lines[line - 1] := List.rdropWhile_prefix _ _
  have hchars : s.chars = (s.lines.take (line - 1)).flatten ++ Chars.trimEnd isLineEnd s.lines[line - 1] ++
      (cut ++ (s.lines.drop (line - 1 + 1)).flatten) := by
    rw [chars_eq_take_append s (line - 1), List.drop_eq_getElem_cons hk, List.flatten_cons, List.append_assoc,
      ← List.append_assoc _ cut, hcut]
  have hslice := Chars.slice?_byteLength (s.lines.take (line - 1)).flatten (Chars.trimEnd isLineEnd s.lines[line - 1])
    (cut ++ (s.lines.drop (line - 1 + 1)).flatten)
  rw [← hchars] at hslice
  rw [lineSpan, htext]
  exact hslice

end Source

namespace Lint

/-! ## The findings of one rule -/

/-- Of some rules, only one has anything to say. -/
theorem flatMap_of_only {α : Type} {rules : List Rule} {f : Rule → List α} {rule : Rule} (hnodup : rules.Nodup)
    (hrule : rule ∈ rules) (hother : ∀ r ∈ rules, r ≠ rule → f r = []) : rules.flatMap f = f rule := by
  induction rules with
  | nil => exact nomatch hrule
  | cons r rules ih =>
    obtain ⟨hr, hnodup⟩ := List.nodup_cons.mp hnodup
    rw [List.flatMap_cons]
    by_cases hsame : r = rule
    · subst hsame
      rw [List.flatMap_eq_nil_iff.mpr fun t ht => hother t (List.mem_cons_of_mem _ ht) (by rintro rfl; exact hr ht),
        List.append_nil]
    · rw [hother r List.mem_cons_self hsame, List.nil_append]
      exact ih hnodup ((List.mem_cons.mp hrule).resolve_left (Ne.symm hsame)) fun t ht =>
        hother t (List.mem_cons_of_mem _ ht)

theorem name_injective : Function.Injective Rule.name := by
  intro a b h
  cases a <;> cases b <;> first | rfl | exact absurd h (by decide)

/-- The failures of a rule are its findings, unless it is left out. -/
theorem failures_of_rule (config : LintConfig) (program : Program) (unit : SourceUnit) (rule : Rule) :
    (failuresIn config program unit).filter (·.rule = rule.name) =
      if config.allow.contains rule.name then []
      else (rule.findings config program unit).map (·.toFailure config rule unit) := by
  have hfilter (r : Rule) : ((r.findings config program unit).map (·.toFailure config r unit)).filter (·.rule = rule.name) =
      if r = rule then (r.findings config program unit).map (·.toFailure config r unit) else [] := by
    split
    · rename_i hr
      refine List.filter_eq_self.mpr (List.forall_mem_map.mpr fun f _ => ?_)
      exact decide_eq_true (congrArg Rule.name hr)
    · rename_i hr
      refine List.filter_eq_nil_iff.mpr (List.forall_mem_map.mpr fun f _ => ?_)
      exact fun hname => hr (name_injective (of_decide_eq_true hname))
  rw [failuresIn, List.filter_flatMap]
  simp only [hfilter]
  split
  · rename_i hallowed
    refine List.flatMap_eq_nil_iff.mpr fun r hr => if_neg ?_
    rintro rfl
    rw [mem_activeRules_iff, hallowed] at hr
    exact nomatch hr
  · rename_i hallowed
    have hnodup : (activeRules config).Nodup := List.Nodup.sublist List.filter_sublist (by decide)
    rw [flatMap_of_only hnodup (mem_activeRules_iff.mpr (Bool.eq_false_iff.mpr hallowed)) fun r _ hr => if_neg hr,
      if_pos rfl]

/-! ## The lines that are found -/

/-- What is shown of the line at an index. -/
def shown (lines : List (List Char)) (k : Nat) : List Char := Chars.trimEnd Source.isLineEnd (lines[k]?.getD [])

theorem shown_zero (line : List Char) (rest : List (List Char)) :
    shown (line :: rest) 0 = Chars.trimEnd Source.isLineEnd line := rfl

theorem shown_succ (line : List Char) (rest : List (List Char)) (k : Nat) :
    shown (line :: rest) (k + 1) = shown rest k := by
  rw [shown, shown, List.getElem?_cons_succ]

/-- The finding about the line at an index, when the first line begins at an offset. -/
def longLine (limit offset : Nat) (lines : List (List Char)) (k : Nat) : Finding :=
  let start := offset + Chars.byteLength (lines.take k).flatten
  ⟨"Exceeds maximum line length of " ++ toString limit, ⟨start, start + Chars.byteLength (shown lines k)⟩⟩

theorem longLine_succ (limit offset : Nat) (line : List Char) (rest : List (List Char)) (k : Nat) :
    longLine limit offset (line :: rest) (k + 1) = longLine limit (offset + Chars.byteLength line) rest k := by
  have hstart : offset + Chars.byteLength ((line :: rest).take (k + 1)).flatten =
      offset + Chars.byteLength line + Chars.byteLength (rest.take k).flatten := by
    rw [List.take_succ_cons, List.flatten_cons, Chars.byteLength_append, Nat.add_assoc]
  unfold longLine
  dsimp only
  rw [hstart, shown_succ]

/-- The walk reports the lines that are too long, each at the offset behind the lines before it. -/
theorem overlong_eq (limit offset : Nat) (lines : List (List Char)) :
    overlong limit offset lines =
      ((List.range lines.length).filter fun k => limit < (shown lines k).length).map (longLine limit offset lines) := by
  induction lines generalizing offset with
  | nil => rfl
  | cons line rest ih =>
    have hlater : (((List.range rest.length).map Nat.succ).filter fun k => limit < (shown (line :: rest) k).length).map
        (longLine limit offset (line :: rest)) = overlong limit (offset + Chars.byteLength line) rest := by
      rw [ih, List.filter_map, List.map_map]
      refine congrArg₂ List.map (funext fun k => longLine_succ limit offset line rest k) ?_
      simp only [Function.comp_def, Nat.succ_eq_add_one, shown_succ]
    rw [overlong, List.length_cons, List.range_succ_eq_map, List.filter_cons, ← hlater, shown_zero]
    by_cases hlong : limit < (Chars.trimEnd Source.isLineEnd line).length
    · rw [if_pos hlong, if_pos (decide_eq_true hlong), List.map_cons]
      rfl
    · rw [if_neg hlong, if_neg (mt of_decide_eq_true hlong)]

end Lint

end Recheck
