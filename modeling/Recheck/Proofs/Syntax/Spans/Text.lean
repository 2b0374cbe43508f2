import Recheck.Proofs.Syntax.Spans.Statements
import Recheck.Syntax.Same

/-!
# Where the nodes of a text lie

A text is read with levels enough, so the tree is the same whatever stands at the bottom of the grammar. Here a grammar
stands there that only reports: then all levels build what lies where it is read, and none has to be counted.
-/

set_option autoImplicit false

namespace Recheck.Syntax

open Recheck.Syntax.Parser
open Chars (byteLength)

/-! ## Offsets of a text -/

/-- A byte offset with no character on both sides of it. -/
def IsBoundary (text : List Char) (n : Nat) : Prop := ∃ a b, text = a ++ b ∧ n = byteLength a

/-- A span of whole characters of a text. -/
structure InText (text : List Char) (s : Span) : Prop where
  start_le_stop : s.start ≤ s.stop
  stop_le : s.stop ≤ byteLength text
  start : IsBoundary text s.start
  stop : IsBoundary text s.stop

theorem IsBoundary.le {text : List Char} {n : Nat} (h : IsBoundary text n) : n ≤ byteLength text := by
  obtain ⟨a, b, rfl, rfl⟩ := h
  rw [Chars.byteLength_append]
  exact Nat.le_add_right _ _

theorem IsBoundary.zero (text : List Char) : IsBoundary text 0 := ⟨[], text, rfl, rfl⟩

theorem Tiles.boundary {offset : Nat} {cs : List Char} {tokens : List Token} {o : Option Nat}
    (h : Tiles offset cs tokens o) (before : List Char) (hoffset : offset = byteLength before) (t : Token) (ht : t ∈ tokens) :
    IsBoundary (before ++ cs) t.span.start ∧ IsBoundary (before ++ cs) t.span.stop := by
  induction h generalizing before with
  | @done offset cs o _ =>
    obtain rfl := List.mem_singleton.mp ht
    have hend : IsBoundary (before ++ cs) (offset + byteLength cs) := by
      refine ⟨before ++ cs, [], (List.append_nil _).symm, ?_⟩
      rw [Chars.byteLength_append, hoffset]
    exact ⟨hend, hend⟩
  | @token offset front text rest kind tokens o _ _ _ _ ih =>
    rcases List.mem_cons.mp ht with rfl | ht
    · refine ⟨⟨before ++ front, text ++ rest, by simp, ?_⟩, ⟨before ++ front ++ text, rest, by simp, ?_⟩⟩
      · simp [hoffset]
      · simp [hoffset, Nat.add_assoc]
    · have := ih (before ++ front ++ text) (by simp [hoffset, Nat.add_assoc]) ht
      rwa [show before ++ (front ++ text ++ rest) = before ++ front ++ text ++ rest by simp]

theorem IsBound.boundary {text : String} {n : Nat} (h : IsBound (lex text).tokens n) : IsBoundary text.toList n := by
  obtain ⟨i, hn⟩ := h
  by_cases hi : i < (lex text).tokens.length
  · have hspan : spanOf (lex text).tokens i = (lex text).tokens[i].span := by
      simp [spanOf, List.getElem?_eq_getElem hi]
    obtain ⟨o, htiles, -⟩ := tiles_lexFrom 0 text.toList
    obtain ⟨hstart, hstop⟩ := htiles.boundary [] rfl _ (List.getElem_mem hi)
    rw [hspan] at hn
    rcases hn with rfl | rfl
    · exact hstart
    · exact hstop
  · have hspan : spanOf (lex text).tokens i = Span.empty := by
      simp [spanOf, List.getElem?_eq_none (Nat.le_of_not_lt hi)]
    rw [hspan] at hn
    rcases hn with rfl | rfl <;> exact .zero _

theorem Lies.inText {text : String} {s : Span} (h : Lies (lex text).tokens s) : InText text.toList s :=
  ⟨h.start_le_stop, h.stop.boundary.le, h.start.boundary, h.stop.boundary⟩

/-! ## All levels of the grammar -/

namespace Parser

variable {T : List Token} {f : Nat}

/-- Reports that nothing can be read. -/
def Grammar.failing : Grammar where
  type := do report .typeExpected; return default
  postfixType := do report .typeExpected; return default
  expr := do report .expressionExpected; return default
  binary _ := do report .expressionExpected; return default
  unary := do report .expressionExpected; return default
  statement := do report .statementExpected; return default

theorem nests_failing : Nests T f .failing where
  type _ := .report_bind (.pure fun hf => .missing hf (.empty T) rfl)
  postfixType _ := .report_bind (.pure fun hf => .missing hf (.empty T) rfl)
  expr _ := .report_bind (.pure fun hf => .missing hf (.empty T) rfl)
  binary _ _ := .report_bind (.pure fun hf => .missing hf (.empty T) rfl)
  unary _ := .report_bind (.pure fun hf => .missing hf (.empty T) rfl)
  statement _ := .report_bind (.pure fun hf => .missing hf (.empty T) rfl)

theorem Nests.over {bottom : Grammar} (h : Nests T f bottom) (n : Nat) : Nests T f (Grammar.over bottom n) := by
  induction n with
  | zero => exact h
  | succ n ih =>
    exact {
      type := fun _ => .typeNode ih
      postfixType := fun _ => .postfixType ih
      expr := fun _ => .exprNode ih
      binary := fun power _ => .binaryExpr ih power
      unary := fun _ => .unaryExpr ih
      statement := fun _ => .statementNode ih }

/-- A place of a fault is kept for a fault that has been reported. -/
theorem Steps.lastFault_of_reports {s s' : State} (h : Steps s s') (hs : s.reports = [] → s.lastFault = none) :
    s'.reports = [] → s'.lastFault = none := by
  induction h with
  | refl => exact hs
  | @report s s' fault _ ih =>
    refine ih fun hreports => ?_
    unfold State.report at hreports ⊢
    split at hreports
    · rename_i hsame
      rw [if_pos hsame]
      exact hs hreports
    · exact nomatch hreports
  | advance _ _ _ ih => exact ih hs

end Parser

/-! ## Trees -/

theorem Within.sound_self {T : List Token} {f i j : Nat} {p : Piece} (h : Within T f i j p) : Sound T f p.span p :=
  .intro h.lies (fun hf => ⟨.refl _, h.pos hf⟩) h.sound h.order

/-- What the statements of a text are when the bottom of the grammar only reports, that they are. -/
theorem parse_builds (text : String) {Q : List Statement → Nat → Prop}
    (h : Builds (lex text).tokens (parse text).reports.length
      (Parser.program (Grammar.over .failing (lex text).tokens.length)) 0 Q) :
    ∃ j, j < (lex text).tokens.length ∧ Q (parse text).tree.statements j := by
  let T := (lex text).tokens
  have hT : Ruled T := (ruled_lex text).1
  obtain ⟨statements, final, hrun, hfailing, -⟩ :=
    program_run hT .exhausted .failing (n := T.length + 1) (m := T.length) (by omega) (by omega)
  rw [Grammar.over_exhausted] at hrun
  let run := program (Grammar.ofDepth (T.length + 1)) (State.ofTokens T)
  have hparse : parse text = ⟨⟨run.1, ⟨0, byteLength text.toList⟩⟩, (lex text).reports ++ run.2.reports.reverse⟩ := rfl
  rw [show run = (statements, final) from hrun] at hparse
  obtain ⟨j, hj, hsteps, hbuilt⟩ := h hT (State.ofTokens T) (.ofTokens hT)
  rw [hfailing] at hj hsteps hbuilt
  refine ⟨j, hj.lt, ?_⟩
  rw [show (parse text).tree.statements = statements by rw [hparse]]
  refine hbuilt fun hf => ?_
  have hreports : (parse text).reports = [] := List.eq_nil_of_length_eq_zero hf
  rw [hparse] at hreports
  refine hsteps.lastFault_of_reports (fun _ => rfl) ?_
  simpa using (List.append_eq_nil_iff.mp hreports).2

theorem parse_builds_clean {text : String} (hclean : (parse text).reports = []) {Q : List Statement → Nat → Prop}
    (h : Builds (lex text).tokens 0 (Parser.program (Grammar.over .failing (lex text).tokens.length)) 0 Q) :
    ∃ j, j < (lex text).tokens.length ∧ Q (parse text).tree.statements j := by
  refine parse_builds text ?_
  rw [hclean]
  exact h

/-- The statements of a text lie in it, one behind the other. -/
theorem parse_statements (text : String) :
    let T := (lex text).tokens
    let f := (parse text).reports.length
    ∃ j, j < T.length ∧ (∀ s ∈ (parse text).tree.statements, Within T f 0 j (.statement s)) ∧
      (f = 0 → InOrder (parse text).tree.statements) :=
  parse_builds text (Builds.program (nests_failing.over _))

/-- All nodes of a text lie in it, with both ends between two characters. Unless there are faults, what stands inside a
node lies inside its span, and the statements of a list lie one behind the other. -/
theorem Piece.spans_nested (text : String) {p : Piece} (hp : (Piece.module (parse text).tree).Contains p) :
    InText text.toList p.span ∧
      ((parse text).reports = [] → (∀ q ∈ p.parts, p.span.Encloses q.span) ∧ InOrder p.statements) := by
  obtain ⟨hT, hlimit⟩ := ruled_lex text
  obtain ⟨j, hj, hwithin, horder⟩ := parse_statements text
  have hf (h : (parse text).reports = []) : (parse text).reports.length = 0 := by rw [h]; rfl
  cases hp with
  | self =>
    have hspan : (Piece.module (parse text).tree).span = ⟨0, byteLength text.toList⟩ := rfl
    rw [hspan]
    refine ⟨⟨Nat.zero_le _, Nat.le_refl _, .zero _, ⟨text.toList, [], by simp, rfl⟩⟩, fun h => ⟨fun q hq => ?_, horder (hf h)⟩⟩
    obtain ⟨s, hs, rfl⟩ := List.mem_map.mp hq
    refine (hwithin s hs).least (hf h) _ fun k _ hk => ⟨Nat.zero_le _, ?_⟩
    exact hlimit ▸ hT.stop_le_limit (by omega)
  | @part _ q _ hq hp =>
    obtain ⟨s, hs, rfl⟩ := List.mem_map.mp hq
    obtain ⟨outer, hsound⟩ := (hwithin s hs).sound_self.contains hp
    refine ⟨hsound.lies.inText, fun h => ⟨fun q hq => ?_, hsound.order (hf h)⟩⟩
    exact ((hsound.parts q hq).inside (hf h)).1

/-- The variable of `export let a = ('é');`. -/
def exported : Declarator := ⟨⟨"a", ⟨11, 12⟩⟩, none, some ⟨.string "é", ⟨15, 21⟩⟩, ⟨11, 21⟩⟩

theorem Piece.spans_nested_exported :
    let text := "export let a = ('é');"
    (parse text).reports = [] ∧ (Piece.module (parse text).tree).Contains (.declarator exported) ∧
      InText text.toList exported.span ∧ (∀ q ∈ (Piece.declarator exported).parts, exported.span.Encloses q.span) ∧
      InOrder (Piece.declarator exported).statements := by
  intro text
  have hclean : (parse text).reports = [] := by decide +kernel
  have htree : (parse text).tree.statements =
      [.variableDecl ⟨⟨true, false, false⟩, .let, ⟨7, 10⟩, [exported], ⟨0, 22⟩⟩] := by decide +kernel
  have hcontains : (Piece.module (parse text).tree).Contains (.declarator exported) := by
    refine .part (List.mem_map_of_mem (htree ▸ List.mem_singleton_self _)) (.part ?_ (.self _))
    exact List.mem_cons_of_mem _ (List.mem_singleton_self _)
  obtain ⟨htext, hnested⟩ := Piece.spans_nested text hcontains
  exact ⟨hclean, hcontains, htext, hnested hclean⟩

end Recheck.Syntax
