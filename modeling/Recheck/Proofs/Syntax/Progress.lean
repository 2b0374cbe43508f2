import Recheck.Proofs.Syntax.Parser.Statements

/-!
# Progress of the parser

A text is read with one level of the grammar for each of its tokens. That is enough, since every part of the parser turns
to the level below only behind a token it has read: what stands at the bottom is never asked (`agree_over`). In the same
way every round of a loop but the last one reads a token.
-/

set_option autoImplicit false

namespace Recheck.Syntax

open Recheck.Syntax.Parser
open Chars (byteLength)

/-! ## The tokens of a text -/

theorem Covers.ruled {text : List Char} {body : List Token} {o : Option Nat} (h : Covers text 0 body o) (s : String) :
    let T := body ++ [⟨.eof, ⟨byteLength text, byteLength text⟩, true, s⟩]
    Ruled T ∧ limit T = byteLength text := by
  intro T
  have hlength : T.length = body.length + 1 := by simp [T]
  have hbody {i : Nat} (hi : i < body.length) : T[i]? = some body[i] := by
    rw [List.getElem?_append_left hi, List.getElem?_eq_getElem hi]
  have hlast : T[body.length]? = some ⟨.eof, ⟨byteLength text, byteLength text⟩, true, s⟩ := by simp [T]
  have hspan {i : Nat} (hi : i < body.length) : spanOf T i = body[i].span := by simp [spanOf, hbody hi]
  have hend : spanOf T body.length = ⟨byteLength text, byteLength text⟩ := by simp [spanOf, hlast]
  have heof : kindOf T body.length = .eof := by simp [kindOf, hlast]
  refine ⟨{ pos := by omega, kind_eq_eof := fun i hi => ?_, forward := fun i => ?_, ordered := fun i hi => ?_ }, ?_⟩
  · rcases Nat.lt_or_eq_of_le (show i ≤ body.length by omega) with hi | rfl
    · have := (h.token body[i] (List.getElem_mem hi)).1
      simp only [kindOf, hbody hi, Option.map_some, Option.getD_some]
      exact ⟨fun h => absurd h this, fun _ => by omega⟩
    · exact ⟨fun _ => hlength.symm, fun _ => heof⟩
  · rcases Nat.lt_trichotomy i body.length with hi | rfl | hi
    · rw [hspan hi]
      exact Nat.le_of_lt (h.token body[i] (List.getElem_mem hi)).2.1
    · exact hend.symm ▸ Nat.le_refl _
    · have hnone : T[i]? = none := List.getElem?_eq_none (by omega)
      simp [spanOf, hnone, Span.empty]
  · have hi : i < body.length := by omega
    refine ⟨hspan hi ▸ (h.token body[i] (List.getElem_mem hi)).2.1, ?_⟩
    rcases Nat.lt_or_eq_of_le (show i + 1 ≤ body.length by omega) with hnext | hnext
    · rw [hspan hi, hspan hnext]
      exact List.pairwise_iff_getElem.mp h.ordered i (i + 1) hi hnext (Nat.lt_succ_self i)
    · obtain ⟨cs, k, hslice, -⟩ := h.last
      have hstop : stopOf 0 body = body[i].span.stop := by
        rw [stopOf, List.getLast?_eq_getElem?, show body.length - 1 = i by omega, List.getElem?_eq_getElem hi]
        rfl
      have hle : ¬ byteLength text < stopOf 0 body := by
        intro hlt
        rw [Chars.slice?, if_pos hlt] at hslice
        cases hslice
      rw [hspan hi, hnext, hend, ← hstop]
      exact Nat.le_of_not_lt hle
  · rw [limit, show T.length - 1 = body.length by omega, hend]

theorem ruled_lex (text : String) :
    Ruled (lex text).tokens ∧ limit (lex text).tokens = byteLength text.toList := by
  obtain ⟨o, htiles, -⟩ := tiles_lexFrom 0 text.toList
  obtain ⟨body, htokens, hcovers⟩ := htiles.covers [] rfl
  have := hcovers.ruled ""
  rwa [lex, htokens]

namespace Parser

variable {T : List Token} {i : Nat}

/-- At the first token, none of which has been read. -/
theorem At.ofTokens (hT : Ruled T) : At T 0 (State.ofTokens T) where
  ended := hT.toEnded
  lt := hT.pos
  rest := rfl
  previous := by
    change ((T.head?.map (·.span)).getD Span.empty) = _
    rw [List.head?_eq_getElem?]
    rfl

/-! ## Levels -/

/-- The grammar of this many levels above another one. -/
def Grammar.over (bottom : Grammar) : Nat → Grammar
  | 0 => bottom
  | n + 1 => {
      type := typeNode (Grammar.over bottom n)
      postfixType := Parser.postfixType (Grammar.over bottom n)
      expr := exprNode (Grammar.over bottom n)
      binary := binaryExpr (Grammar.over bottom n)
      unary := unaryExpr (Grammar.over bottom n)
      statement := statementNode (Grammar.over bottom n) }

theorem Grammar.over_exhausted (n : Nat) : Grammar.over .exhausted n = .ofDepth n := by
  induction n with
  | zero => rfl
  | succ n ih => rw [Grammar.over, ih, Grammar.ofDepth]

/-- With as many levels as there are tokens left it makes no difference what is at the bottom. -/
theorem agree_over (hT : Ruled T) (bottom bottom' : Grammar) (n n' : Nat) (hn : T.length ≤ n + i) (hn' : T.length ≤ n' + i) :
    Agree T i (bottom.over n) (bottom'.over n') := by
  induction n generalizing n' i with
  | zero =>
    have none {α : Type} {p p' : Parse α} {Q : α → Nat → Prop} {k : Nat} (hk : i ≤ k) : Reads T p p' k Q :=
      .here fun h => by omega
    exact ⟨fun _ => none, fun _ => none, fun _ => none, fun _ _ => none, fun _ => none, fun _ => none⟩
  | succ n ih =>
    cases n' with
    | zero =>
      have none {α : Type} {p p' : Parse α} {Q : α → Nat → Prop} {k : Nat} (hk : i ≤ k) : Reads T p p' k Q :=
        .here fun h => by omega
      exact ⟨fun _ => none, fun _ => none, fun _ => none, fun _ _ => none, fun _ => none, fun _ => none⟩
    | succ n' =>
      have below {k : Nat} (hk : i ≤ k) : Agree T (k + 1) (bottom.over n) (bottom'.over n') :=
        ih n' (by omega) (by omega)
      exact {
        type := fun k hk => Reads.typeNode hT (below hk)
        postfixType := fun k hk => Reads.postfixType hT (below hk)
        expr := fun k hk => Reads.exprNode hT (below hk)
        binary := fun power k hk => Reads.binaryExpr hT (below hk) power
        unary := fun k hk => Reads.unaryExpr hT (below hk)
        statement := fun k hk => Reads.statementNode hT (below hk) }

/-! ## Loops -/

variable {σ : Type}

/-- A loop that goes on only behind a token it has read. So it needs no more rounds than there are tokens. -/
def Progresses (T : List Token) (i : Nat) (step : σ → Parse (Step σ)) : Prop :=
  ∀ k s acc, i ≤ k → At T k s →
    (∀ next, (step acc s).1 = .more next → (step acc s).2.rest.length < s.rest.length) ∧
    ∀ n, s.rest.length ≤ n → runSteps step n acc s = repeating step acc s

theorem Progresses.of_round {step : σ → Parse (Step σ)} {I R : σ → Nat → Prop}
    (round : ∀ acc k, i ≤ k → Reads T (step acc) (step acc) k (Round I R acc k)) : Progresses T i step := by
  intro k s acc hik hs
  have goes (acc : σ) (k : Nat) (hk : i ≤ k) :
      Reads T (step acc) (step acc) k (Round (fun _ _ => True) (fun _ _ => True) acc k) := by
    refine (round acc k hk).mono fun next j _ _ h => ?_
    cases next with
    | more next => exact ⟨h.1, fun _ => trivial⟩
    | done last => exact fun _ => trivial
  refine ⟨fun next hnext => ?_, fun n hn => ?_⟩
  · obtain ⟨j, hj, -, -, h⟩ := goes acc k hik s hs
    rw [hnext] at h
    have hlt := hs.lt
    have hkj : k < j := h.1
    rw [hs.length_rest, hj.length_rest]
    omega
  · rw [hs.length_rest] at hn
    obtain ⟨-, -, heq, -⟩ := Reads.runSteps goes (T.length - k + 1) n (by omega) (by omega) hik trivial s hs
    rw [heq]
    change _ = runSteps step (s.rest.length + 1) acc s
    rw [hs.length_rest]

/-- All loops of the parser, with the parts of a grammar, from some token on. -/
structure LoopsProgress (T : List Token) (i : Nat) (g : Grammar) : Prop where
  program : Progresses T i (programStep g)
  statements : Progresses T i (statementStep g)
  params : Progresses T i (commaStep .rParen (param g))
  typeParams : Progresses T i (commaStep .gt (typeParam g))
  arguments : Progresses T i (commaStep .rParen (argument g))
  typeArguments : Progresses T i (commaStep .gt g.type)
  typeMembers : Progresses T i (memberStep g)
  properties : Progresses T i (propertyStep g)
  items : Progresses T i (itemStep g)
  tuple : Progresses T i (commaStep .rBracket (tupleElement g))
  importSpecifiers : Progresses T i (commaStep .rBrace importSpecifier)
  exportSpecifiers : Progresses T i (commaStep .rBrace exportSpecifier)
  declarators : Progresses T i (separatedStep .comma (declarator g))
  bases : Progresses T i (separatedStep .comma (typeNode g))
  unionMembers : Progresses T i (separatedStep .pipe (intersectionType g))
  intersectionMembers : Progresses T i (separatedStep .amp (Parser.postfixType g))
  nameParts : Progresses T i (separatedStep .dot expectPropertyName)
  namespaceParts : Progresses T i nameStep
  brackets : ∀ start, Progresses T i (bracketStep g start)
  members : ∀ k, Progresses T (max i (k + 1)) (chainStep (spanOf T k))
  postfixes : ∀ k, Progresses T (max i k) (postfixStep g (spanOf T k))
  operators : ∀ power k, Progresses T (max i k) (binaryStep g power (spanOf T k))
  skipped : Progresses T i skipStep

section

variable {α : Type} {item : Parse α}

theorem Progresses.comma (close : TokenKind) {Q : Nat → α → Nat → Prop}
    (h : ∀ k, i ≤ k → Reads T item item k (Q k)) : Progresses T i (commaStep close item) :=
  .of_round fun _ k hk =>
    Reads.commaStep (i := i) (P := fun _ _ _ => True) ((h k hk).mono fun _ _ _ _ _ => trivial)

theorem Progresses.separated {separator : TokenKind} (hsep : separator ≠ .eof) (first : α) {Q : Nat → α → Nat → Prop}
    (h : ∀ k, i ≤ k → Reads T item item k (Q k)) : Progresses T i (separatedStep separator item) :=
  .of_round fun _ k hk =>
    Reads.separatedStep (P := fun _ _ _ => True) (a := first) hsep hk
      ((h (k + 1) (by omega)).mono fun _ _ _ _ _ => trivial)

end

/-- A grammar with enough levels drives every loop on. -/
theorem loopsProgress (hT : Ruled T) {g : Grammar} (hg : Agree T i g g) : LoopsProgress T i g := by
  have here {k : Nat} (hk : i ≤ k) : Agree T k g g := hg.mono hk
  have next {k : Nat} (hk : i ≤ k) : Agree T (k + 1) g g := hg.mono (by omega)
  exact {
    program := .of_round fun _ k hk => Reads.programStep (i := i) hT (next hk)
    statements := .of_round fun _ k hk => Reads.statementStep (i := i) (here hk)
    params := .comma _ fun k hk => Reads.param hT (next hk)
    typeParams := .comma _ fun k hk => Reads.typeParam hT (here hk)
    arguments := .comma _ fun k hk => Reads.argument (here hk)
    typeArguments := .comma _ fun k hk => hg.type k hk
    typeMembers := .of_round fun _ k hk => Reads.memberStep (i := i) hT (next hk)
    properties := .of_round fun _ k hk => Reads.propertyStep (i := i) hT (next hk)
    items := .of_round fun _ k hk => Reads.itemStep (i := i) (here hk)
    tuple := .comma _ fun k hk => Reads.tupleElement hT (here hk)
    importSpecifiers := .comma _ fun _ _ => Reads.importSpecifier
    exportSpecifiers := .comma _ fun _ _ => Reads.exportSpecifier
    declarators := .separated (by decide) ⟨default, none, none, default⟩ fun k hk => Reads.declarator hT (next hk)
    bases := .separated (by decide) default fun k hk => Reads.typeNode hT (next hk)
    unionMembers := .separated (by decide) default fun k hk => Reads.intersectionType hT (next hk)
    intersectionMembers := .separated (by decide) default fun k hk => Reads.postfixType hT (next hk)
    nameParts := .separated (by decide) default fun _ _ => Reads.expectPropertyName
    namespaceParts := .of_round fun _ _ _ => Reads.nameStep
    brackets := fun start => .of_round fun _ k hk => Reads.bracketStep hT (next hk) start hk
    members := fun k => .of_round fun _ m hm => Reads.chainStep hT (show k < m by omega)
    postfixes := fun k => .of_round fun _ m hm => Reads.postfixStep hT (next (show i ≤ m by omega)) (show k ≤ m by omega)
    operators := fun power k => .of_round fun _ m hm =>
      Reads.binaryStep hT (next (show i ≤ m by omega)) power (show k ≤ m by omega)
    skipped := .of_round fun _ _ _ => Reads.skipStep }

/-- A statement that is asked for in front of any token but the last reads a token. -/
theorem statement_progress (hT : Ruled T) {g : Grammar} (hg : Agree T (i + 1) g g) {s : State} (hs : At T i s)
    (hkind : kindOf T i ≠ .eof) : (statementNode g s).2.rest.length < s.rest.length := by
  obtain ⟨j, hj, -, -, -, hlt⟩ := Reads.statementNode hT hg s hs
  have hij := hlt hkind
  have := hs.lt
  rw [hs.length_rest, hj.length_rest]
  omega

/-- A program is read as far as its last token. -/
theorem program_run (hT : Ruled T) (bottom bottom' : Grammar) {n m : Nat} (hn : T.length ≤ n + 1) (hm : T.length ≤ m + 1) :
    ∃ statements final, program (bottom.over n) (State.ofTokens T) = (statements, final) ∧
      program (bottom'.over m) (State.ofTokens T) = (statements, final) ∧ Moves (State.ofTokens T) final ∧
      At T (T.length - 1) final ∧ Row 0 (StatementReads T) 0 (T.length - 1) statements := by
  have hg := agree_over hT bottom bottom' (i := 1) n m hn hm
  obtain ⟨j, hj, heq, hmoves, hkind, hrow⟩ := Reads.program hT hg _ (.ofTokens hT)
  have hend : j = T.length - 1 := by
    have := (hT.kind_eq_eof j hj.lt).mp hkind
    omega
  subst hend
  exact ⟨_, _, rfl, heq, hmoves, hj, hrow⟩

/-- Reading a text: the run drops the tokens one by one and stops in front of the last, each statement and each round of a
loop reads a token wherever in the tokens it is asked for, and no more levels and rounds are needed than there are tokens,
as the grammar at the bottom is never asked. -/
theorem parser_progress (text : String) (bottom : Grammar) (spare : Nat) :
    let T := (lex text).tokens
    let start := State.ofTokens T
    (∃ statements final eof, program (.ofDepth T.length) start = (statements, final) ∧
      program (bottom.over (T.length + spare)) start = (statements, final) ∧
      (parse text).tree.statements = statements ∧
      Steps start final ∧ final.rest = [eof] ∧ eof.kind = .eof) ∧
    ∀ i n, T.length ≤ n + i →
      LoopsProgress T i (bottom.over n) ∧
      ∀ s, At T i s → kindOf T i ≠ .eof → (statementNode (bottom.over n) s).2.rest.length < s.rest.length := by
  intro T start
  have hT : Ruled T := (ruled_lex text).1
  refine ⟨?_, fun i n hn => ?_⟩
  · obtain ⟨statements, final, hrun, hparse, hmoves, hat, -⟩ :=
      program_run hT .exhausted .exhausted (n := T.length) (m := T.length + 1) (by omega) (by omega)
    obtain ⟨_, _, hrun', hover, -⟩ :=
      program_run hT .exhausted bottom (n := T.length) (m := T.length + spare) (by omega) (by omega)
    obtain ⟨rfl, rfl⟩ := Prod.ext_iff.mp (hrun.symm.trans hrun')
    rw [Grammar.over_exhausted] at hrun hparse
    have hlast : T.length - 1 < T.length := hat.lt
    refine ⟨statements, final, T[T.length - 1], hrun, hover, ?_, hmoves.steps, ?_, ?_⟩
    · change (program (.ofDepth (T.length + 1)) start).1 = statements
      rw [hparse]
    · rw [hat.rest, List.drop_eq_getElem_cons hlast, List.drop_eq_nil_of_le (by omega)]
    · have := (hT.kind_eq_eof _ hlast).mpr (by omega)
      simpa [kindOf, List.getElem?_eq_getElem hlast] using this
  · have hg := agree_over hT bottom bottom n n hn hn
    exact ⟨loopsProgress hT hg, fun s hs hkind => statement_progress hT (hg.mono (by omega)) hs hkind⟩

end Parser

end Recheck.Syntax
