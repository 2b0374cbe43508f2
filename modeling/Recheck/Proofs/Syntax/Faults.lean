import Recheck.Program.SourceUnit
import Recheck.Proofs.Syntax.Progress
import Recheck.Proofs.Syntax.Spelling

/-!
# The faults of a text

The lexer finds at most one fault at a token, in the order of the text, and so does the parser, which passes over a second
fault at the token it stands at (`SourceUnit.syntaxDiagnostics_ordered`). What the one reports the other leaves alone. So the
faults of a text lie in it and no two of them are the same (`parse_reports`).
-/

set_option autoImplicit false

namespace Recheck

/-- A range between two offsets. -/
structure Span.Inside (s : Span) (lo hi : Nat) : Prop where
  start : lo ≤ s.start
  forward : s.start ≤ s.stop
  stop : s.stop ≤ hi

theorem Span.Inside.mono {s : Span} {lo hi lo' hi' : Nat} (h : s.Inside lo hi) (hlo : lo' ≤ lo) (hhi : hi ≤ hi') :
    s.Inside lo' hi' :=
  ⟨Nat.le_trans hlo h.start, h.forward, Nat.le_trans h.stop hhi⟩

namespace Syntax

open Recheck.Syntax.Parser
open Chars (byteLength byteLength_append byteLength_pos)

/-! ## Faults of the lexer -/

theorem isLexical_of_scan {c : Char} {cs : List Char} {fault : Fault} (h : (scan c cs).fault = some fault) :
    fault.isLexical = true := by
  unfold scan at h
  dsimp only at h
  split at h
  · cases h
  · split at h
    · cases h
    · split at h
      · split at h
        · cases h
        · obtain rfl := Option.some.inj h
          rfl
      · split at h
        · split at h
          · cases h
          · obtain rfl := Option.some.inj h
            rfl
        · split at h
          · obtain rfl := Option.some.inj h
            rfl
          · cases h

theorem byteLength_take_le (n : Nat) (cs : List Char) : byteLength (cs.take n) ≤ byteLength cs := by
  have h := byteLength_append (cs.take n) (cs.drop n)
  rw [List.take_append_drop] at h
  omega

/-- What the lexer finds from a byte offset on, each fault behind the one before. -/
theorem lexFrom_reports (offset : Nat) (cs : List Char) :
    (lexFrom offset cs).reports.Pairwise (fun r r' => r.span.start < r'.span.start) ∧
      ∀ r ∈ (lexFrom offset cs).reports, r.fault.isLexical = true ∧ r.span.Inside offset (offset + byteLength cs) := by
  induction hn : cs.length using Nat.strongRecOn generalizing offset cs with
  | _ n ih =>
    subst hn
    have hsplits := splits_gap cs
    cases hrest : cs.drop (gap cs).length with
    | nil =>
      -- Only a comment that is never closed is left.
      have hall : cs.take (gap cs).length = cs := List.take_of_length_le (List.drop_eq_nil_iff.mp hrest)
      rw [lexFrom_end hrest, gapReports, hall]
      cases (gap cs).openAt with
      | none => exact ⟨.nil, List.forall_mem_nil _⟩
      | some k =>
        refine ⟨List.pairwise_singleton _ _, fun r hr => ?_⟩
        obtain rfl := List.mem_singleton.mp hr
        have hle := byteLength_take_le k cs
        exact ⟨rfl, Nat.le_add_right _ _, Nat.add_le_add_left hle offset, Nat.le_refl _⟩
    | cons d ds =>
      obtain ⟨-, hclosed⟩ := hsplits.between (by rw [hrest]; exact List.cons_ne_nil _ _)
      have hpos := scan_pos d ds
      have htext : (d :: ds).take (scan d ds).length ≠ [] := by
        rw [Ne, List.take_eq_nil_iff]
        simp
        omega
      have hcs : cs = cs.take (gap cs).length ++ ((d :: ds).take (scan d ds).length ++
          (d :: ds).drop (scan d ds).length) := by
        rw [List.take_append_drop, ← hrest, List.take_append_drop]
      have hlength := congrArg List.length hcs
      have hbytes := congrArg byteLength hcs
      have hlonger := List.length_pos_iff.mpr htext
      have hwider := byteLength_pos htext
      simp only [List.length_append, byteLength_append] at hlength hbytes
      rw [lexFrom_scan hrest, gapReports, hclosed]
      dsimp only
      generalize (d :: ds).take (scan d ds).length = text at hlength hbytes hlonger hwider ⊢
      obtain ⟨hordered, hinside⟩ := ih _ (by omega) (offset + byteLength (cs.take (gap cs).length) + byteLength text)
        ((d :: ds).drop (scan d ds).length) rfl
      have hfirst : ∀ r ∈ (scan d ds).fault.toList.map fun fault => (⟨fault,
          ⟨offset + byteLength (cs.take (gap cs).length),
            offset + byteLength (cs.take (gap cs).length) + byteLength text⟩⟩ : Report),
          r.fault.isLexical = true ∧ r.span = ⟨offset + byteLength (cs.take (gap cs).length),
            offset + byteLength (cs.take (gap cs).length) + byteLength text⟩ := by
        intro r hr
        obtain ⟨fault, hfault, rfl⟩ := List.mem_map.mp hr
        exact ⟨isLexical_of_scan (Option.mem_toList.mp hfault), rfl⟩
      rw [List.nil_append]
      constructor
      · refine List.pairwise_append.mpr ⟨?_, hordered, fun r hr r' hr' => ?_⟩
        · cases (scan d ds).fault with
          | none => exact .nil
          | some fault => exact List.pairwise_singleton _ _
        · have := (hinside r' hr').2.start
          rw [(hfirst r hr).2]
          dsimp only
          omega
      · intro r hr
        rcases List.mem_append.mp hr with hr | hr
        · obtain ⟨hlexical, hspan⟩ := hfirst r hr
          refine ⟨hlexical, ?_⟩
          rw [hspan]
          constructor <;> dsimp only <;> omega
        · obtain ⟨hlexical, hinside⟩ := hinside r hr
          exact ⟨hlexical, hinside.mono (by omega) (by omega)⟩

/-! ## Faults of the parser -/

namespace Parser

variable {T : List Token} {i : Nat} {s s' : State}

/-- The faults that were found lie one behind the other, and none behind the token where the parser stands. -/
structure Told (s : State) : Prop where
  ordered : s.reports.Pairwise fun r r' => r'.span.start < r.span.start
  behind : ∀ r ∈ s.reports, r.span.start ≤ s.span.start
  /-- The last fault is remembered, so that there is no second one at its token. -/
  last : ∀ r ∈ s.reports, r.span.start = s.span.start → s.lastFault = some s.span.start

theorem Told.report (h : Told s) (fault : Fault) : Told (s.report fault) := by
  unfold State.report
  split
  · exact h
  · rename_i hnew
    refine ⟨?_, ?_, fun _ _ _ => rfl⟩
    · refine List.pairwise_cons.mpr ⟨fun r hr => ?_, h.ordered⟩
      exact Nat.lt_of_le_of_ne (h.behind r hr) fun heq => hnew (h.last r hr heq)
    · exact List.forall_mem_cons.mpr ⟨Nat.le_refl _, h.behind⟩

/-- At the next token all faults so far lie behind. -/
theorem Told.advance (h : Told s) {t : Token} {rest : List Token} (hlt : s.span.start < (spanOf rest 0).start) :
    Told { s with rest := rest, previous := some t.span } := by
  have hspan : (⟨rest, some t.span, s.lastFault, s.reports⟩ : State).span = spanOf rest 0 := by
    simp [State.span, spanOf, List.head?_eq_getElem?]
  refine ⟨h.ordered, fun r hr => ?_, fun r hr heq => ?_⟩
  · have := h.behind r hr
    rw [hspan]
    omega
  · have := h.behind r hr
    rw [hspan] at heq
    have heq : r.span.start = (spanOf rest 0).start := heq
    omega

/-- Behind the last token there is only an empty place at the beginning of the text. -/
theorem inside_spanOf (hT : Ruled T) (i : Nat) : (spanOf T i).Inside 0 (limit T) := by
  refine ⟨Nat.zero_le _, hT.forward i, ?_⟩
  by_cases hi : i < T.length
  · exact hT.stop_le_limit hi
  · rw [spanOf, List.getElem?_eq_none (Nat.le_of_not_lt hi)]
    exact Nat.zero_le _

theorem Steps.told (hT : Ruled T) (h : Steps s s') (hs : At T i s) (htold : Told s) : Told s' := by
  induction h generalizing i with
  | refl => exact htold
  | report fault _ ih => exact ih (hs.report fault) (htold.report fault)
  | @advance s s' t rest hrest hkind _ ih =>
    have hcurrent : kindOf T i ≠ .eof := by
      have hfirst := hs.kindAt 0
      rw [State.kindAt, hrest] at hfirst
      exact fun heof => hkind (hfirst.trans heof)
    obtain ⟨t', rest', hrest', -, hnext⟩ := hs.succ hcurrent
    obtain ⟨rfl, rfl⟩ := List.cons.inj (hrest.symm.trans hrest')
    refine ih hnext (htold.advance ?_)
    have hspan : spanOf rest 0 = spanOf T (i + 1) := by
      have := hnext.getElem?_rest 0
      simpa [spanOf] using congrArg (fun t => (t.map Token.span).getD Span.empty) this
    rw [hspan, hs.span, ← edge_of_lt hs.lt, ← edge_of_lt hnext.lt]
    exact hT.edge_lt_succ hnext.lt

end Parser

/-- The faults that the parser finds in a text, as it meets them. -/
def parserReports (text : String) : List Report :=
  ((program (Grammar.ofDepth ((lex text).tokens.length + 1))).run (State.ofTokens (lex text).tokens)).2.reports.reverse

/-- What the parser finds in a text, each fault behind the one before. -/
theorem parserReports_spec (text : String) :
    (parserReports text).Pairwise (fun r r' => r.span.start < r'.span.start) ∧
      ∀ r ∈ parserReports text, r.fault.isLexical = false ∧ r.span.Inside 0 (byteLength text.toList) := by
  obtain ⟨hT, hlimit⟩ := ruled_lex text
  obtain ⟨statements, final, hrun, -, hmoves, -⟩ := program_run hT .exhausted .exhausted
    (n := (lex text).tokens.length + 1) (m := (lex text).tokens.length) (by omega) (by omega)
  rw [Grammar.over_exhausted] at hrun
  have hreports : parserReports text = final.reports.reverse := by
    change (program (Grammar.ofDepth _) (State.ofTokens _)).2.reports.reverse = _
    rw [hrun]
  have htold : Told final := hmoves.steps.told hT (.ofTokens hT) ⟨.nil, List.forall_mem_nil _, List.forall_mem_nil _⟩
  rw [hreports]
  refine ⟨List.pairwise_reverse.mpr htold.ordered, fun r hr => ?_⟩
  rw [List.mem_reverse] at hr
  obtain ⟨i, hspan⟩ := (hmoves.steps.mem_reports hr).resolve_left List.not_mem_nil
  refine ⟨(hmoves.isLexical_of_mem_reports hr).resolve_left List.not_mem_nil, ?_⟩
  rw [hspan, ← hlimit]
  exact inside_spanOf hT i

/-! ## All faults -/

theorem parse_reports_eq (text : String) : (parse text).reports = (lex text).reports ++ parserReports text := rfl

theorem Fault.code_ne {fault fault' : Fault} (h : fault.isLexical = true) (h' : fault'.isLexical = false) :
    fault.code ≠ fault'.code := by
  cases fault <;> simp [isLexical] at h <;> cases fault' <;> simp [isLexical] at h' <;> simp [code]

/-- The faults of a text lie in it, and no two have the same number and the same span. -/
theorem parse_reports (text : String) :
    (parse text).reports.Pairwise (fun r r' => r.fault.code = r'.fault.code → r.span ≠ r'.span) ∧
      ∀ r ∈ (parse text).reports, r.span.Inside 0 (byteLength text.toList) := by
  obtain ⟨hordered, hlexed⟩ := lexFrom_reports 0 text.toList
  obtain ⟨hordered', hparsed⟩ := parserReports_spec text
  rw [Nat.zero_add] at hlexed
  have hapart {r r' : Report} (hlt : r.span.start < r'.span.start) : r.fault.code = r'.fault.code → r.span ≠ r'.span :=
    fun _ heq => absurd (congrArg Span.start heq) (Nat.ne_of_lt hlt)
  rw [parse_reports_eq]
  constructor
  · refine List.pairwise_append.mpr ⟨hordered.imp hapart, hordered'.imp hapart, fun r hr r' hr' hcode => ?_⟩
    exact absurd hcode (Fault.code_ne (hlexed r hr).1 (hparsed r' hr').1)
  · intro r hr
    rcases List.mem_append.mp hr with hr | hr
    · exact (hlexed r hr).2
    · exact (hparsed r hr).2

end Syntax

/-- First the lexer reports its faults and then the parser, each in the order of the text and at most one at any place. -/
theorem SourceUnit.syntaxDiagnostics_ordered (path : Path) (text : String) :
    let lexed := (Syntax.lex text).reports.map (·.toDiagnostic ⟨path, text⟩)
    let parsed := (Syntax.parserReports text).map (·.toDiagnostic ⟨path, text⟩)
    (ofText path text).syntaxDiagnostics = lexed ++ parsed ∧
      lexed.Pairwise (fun d d' => d.span.start < d'.span.start) ∧
      parsed.Pairwise (fun d d' => d.span.start < d'.span.start) := by
  refine ⟨?_, ?_, ?_⟩
  · rw [← List.map_append, ← Syntax.parse_reports_eq]
    rfl
  · exact List.pairwise_map.mpr (Syntax.lexFrom_reports 0 text.toList).1
  · exact List.pairwise_map.mpr (Syntax.parserReports_spec text).1

end Recheck
