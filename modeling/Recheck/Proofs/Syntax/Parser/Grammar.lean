import Recheck.Proofs.Syntax.Parser.Basic

/-!
# Reading what types, expressions and declarations share
-/

set_option autoImplicit false

namespace Recheck.Syntax.Parser

variable {T : List Token} {i j : Nat} {g g' : Grammar}

namespace Reads

/-- The type stands behind the token that announces it. -/
theorem typeBehind (hT : Ruled T) (hg : Agree T (i + 1) g g') {k : TokenKind} (hk : k ≠ .eof) :
    Reads T (Parser.typeAfter g k) (Parser.typeAfter g' k) i fun type j =>
      Fits T (i + 1) i j 1 0 (typeContent? type) ∧ (type.isSome → i < j) := by
  unfold Parser.typeAfter
  refine eat hk (fun _ => ?_) fun _ => pure ⟨.none, nofun⟩
  refine bind (hg.type (i + 1) (Nat.le_refl _)) fun type j hj _ h => pure ⟨?_, fun _ => hj⟩
  exact h.mono hT (by omega)

theorem typeAfter (hT : Ruled T) (hg : Agree T (i + 1) g g') {k : TokenKind} (hk : k ≠ .eof) :
    Reads T (Parser.typeAfter g k) (Parser.typeAfter g' k) i fun type j => Fits T i i j 1 0 (typeContent? type) :=
  (typeBehind hT hg hk).mono fun _ _ _ _ h => h.1.mono hT (by omega)

/-- The value stands behind the token that announces it. -/
theorem exprAfter (hT : Ruled T) (hg : Agree T (i + 1) g g') {k : TokenKind} (hk : k ≠ .eof) :
    Reads T (Parser.exprAfter g k) (Parser.exprAfter g' k) i fun e j =>
      Fits T (i + 1) i j 1 0 (exprContent? e) ∧ (e.isSome → i < j) := by
  unfold Parser.exprAfter
  refine eat hk (fun _ => ?_) fun _ => pure ⟨.none, nofun⟩
  refine bind (hg.expr (i + 1) (Nat.le_refl _)) fun e j hj _ h => pure ⟨?_, fun _ => hj⟩
  exact (h.fits hT).mono hT (by omega)

theorem typeParam (hT : Ruled T) (hg : Agree T i g g') :
    Reads T (Parser.typeParam g) (Parser.typeParam g') i fun _ _ => True := by
  unfold Parser.typeParam
  refine bind (eatWord_any _).discard fun _ k _ _ _ => ?_
  refine bind expectIdent fun name k _ _ _ => ?_
  have last {m : Nat} (hm : i ≤ m) :
      Reads T (Functor.discard (Parser.typeAfter g .eq) >>= fun _ => Pure.pure name)
        (Functor.discard (Parser.typeAfter g' .eq) >>= fun _ => Pure.pure name) m fun _ _ => True :=
    bind (typeAfter hT (hg.mono (by omega)) (by decide)).discard fun _ _ _ _ _ => pure trivial
  refine eatWord (fun _ => ?_) (last (by omega))
  exact bind (hg.type (k + 1) (by omega)).discard fun _ m _ _ _ => last (by omega)

/-- Without an opening bracket nothing is read. -/
theorem typeParams (hT : Ruled T) (hg : Agree T (i + 1) g g') :
    Reads T (Parser.typeParams g) (Parser.typeParams g') i fun _ j => kindOf T i = .lt → i < j := by
  unfold Parser.typeParams
  refine eat (by decide) (fun _ => ?_) fun h => pure fun h' => absurd h' h
  refine bind (commaList (P := fun _ _ _ => True) fun k hk => typeParam hT (hg.mono hk)) fun names k hk _ _ => ?_
  exact bind (expect (by decide)) fun _ j hj _ _ => pure fun _ => by omega

/-- What is said of a parameter that is read behind the token `lo`. -/
structure ParamReads (T : List Token) (i j : Nat) (p : Param) : Prop where
  fits : ∀ lo, lo + 1 ≤ i → Fits T lo i j 1 1 p.content
  deep : Deep T i p.content.spots
  annotation : Fits T i i j 1 0 (typeContent? p.type)

theorem param (hT : Ruled T) (hg : Agree T (i + 1) g g') :
    Reads T (Parser.param g) (Parser.param g') i fun p j => ParamReads T i j p := by
  unfold Parser.param
  refine currentSpan (bind (eat_any (by decide)) fun rest k hik hk _ => atKind ?_)
  extract_lets next next'
  have tail (name : Ident) (m : Nat) (hkm : k ≤ m) (hspan : name.span = spanOf T k)
      (hread : k < m ∨ kindOf T k ≠ .identifier) : Reads T (next name) (next' name) m fun p j => ParamReads T i j p := by
    refine bind (eat_any (by decide)) fun optional m₁ h₁ _ _ => ?_
    refine bind (typeAfter hT (hg.mono (by omega)) (by decide)) fun type m₂ h₂ _ htype => ?_
    refine bind (exprAfter hT (hg.mono (by omega)) (by decide)) fun default m₃ h₃ hm₃ hdefault => ?_
    refine spanFrom (pure ⟨fun lo hlo => ?_, ?_, ?_⟩)
    · have hname : Fits T lo k m 1 0 (.ofSpots [(.param, name.span)]) :=
        .ofSpots (.single (hspan ▸ hT.between_name (.inr rfl) (.inl (by omega)) hkm (by omega) hread))
      have hparts := htype.append hT hdefault.1 (by omega)
      exact ((hname.append hT hparts (by omega)).declaring).mono hT (by omega)
    · have hname : Deep T i [(.param, name.span)] := by
        rintro x (_ | ⟨_, ⟨⟩⟩) (h | h) <;> exact nomatch h
      exact hname.append ((htype.placed.deep.mono hT (by omega)).append (hdefault.1.placed.deep.mono hT (by omega)))
    · exact htype.mono hT (by omega)
  split
  · rename_i hthis
    refine bind (takeIdent (by rw [of_decide_eq_true hthis]; decide)) fun name m hkm _ h => tail name m hkm h.1 (.inl ?_)
    omega
  · refine bind expectIdent fun name m hkm _ h => tail name m hkm h.1 ?_
    exact h.2.imp (fun h => by omega) And.right

/-- Behind an opening bracket the parameters begin one token later. -/
theorem params (hT : Ruled T) (hg : Agree T (i + 1) g g') :
    Reads T (Parser.params g) (Parser.params g') i fun ps j => ∃ k, i ≤ k ∧ k ≤ j ∧ (kindOf T i = .lParen → i < k) ∧
      (∀ lo, lo + 1 ≤ k → Fits T lo k j 1 1 (paramsContent ps)) ∧ Deep T k (paramsContent ps).spots ∧
      Fits T k k j 1 0 (annotationsContent ps) := by
  unfold Parser.params
  refine bind (expect (by decide)) fun _ k hik _ hk => ?_
  refine bind (commaList (P := ParamReads T) fun m hm => param hT (hg.mono (by omega))) fun ps m hkm _ hps => ?_
  refine bind (expect (by decide)) fun _ j hj _ _ =>
    pure ⟨k, hik, by omega, fun h => by have := hk.2 h; omega, ?_, ?_, ?_⟩
  · intro lo hlo
    have := hps.fits hT (d := 1) (by omega) (fun a b p hp => hp.fits) lo hlo
    rw [paramsContent_eq]
    exact this.mono hT (by omega)
  · rw [paramsContent_eq]
    exact hps.deep hT fun a b p hp => hp.deep
  · rw [annotationsContent_eq]
    exact (hps.fits_of_le hT fun a b p hp => hp.annotation).mono hT (by omega)

/-! ## Statements -/

theorem statementStep (hg : Agree T j g g') {items : List Statement} :
    Reads T (Parser.statementStep g items) (Parser.statementStep g' items) j
      (Round (Behind 0 (StatementReads T) i) (fun items k => Row 0 (StatementReads T) i k items.reverse) items j) := by
  unfold Parser.statementStep
  refine atEnd (atKind ?_)
  split
  · exact pure Behind.row
  · rename_i hkind
    refine bind (hg.statement j (Nat.le_refl j)) fun s k hjk _ hs => pure ⟨hs.2 fun h => ?_, fun hitems => ?_⟩
    · simp [h] at hkind
    · exact hitems.cons (Nat.le_refl j) hjk hs.1

theorem statementList (hT : Ruled T) (hg : Agree T i g g') :
    Reads T (Parser.statementList g) (Parser.statementList g') i fun statements j =>
      Fits T i i j 2 0 (statementsContent statements) := by
  unfold Parser.statementList
  refine bind (repeating (I := Behind 0 (StatementReads T) i)
    (R := fun items j => Row 0 (StatementReads T) i j items.reverse) ?_ .start) fun items j hij _ hitems => ?_
  · exact fun items k hik => statementStep (hg.mono hik)
  · refine bind (expect (by decide)) fun _ k hjk _ _ => pure ?_
    rw [statementsContent_eq]
    exact (hitems.fits_of_le hT fun a b s hs => hs.fits).mono hT (by omega)

/-- A block turns to its grammar behind the opening brace, which may only be missing behind another token. -/
theorem block (hT : Ruled T) (hg : Agree T (i + 1) g g') (h : kindOf T i ≠ .lBrace → Agree T i g g') :
    Reads T (Parser.block g) (Parser.block g') i fun b j => ∃ k, i ≤ k ∧ k ≤ j ∧ (kindOf T i = .lBrace → i < k) ∧
      Fits T k k j 2 0 (statementsContent b.statements) := by
  unfold Parser.block
  refine currentSpan (bind (expect (by decide)) fun _ k hik _ hk => ?_)
  have hgk : Agree T k g g' := by
    by_cases hkind : kindOf T i = .lBrace
    · exact hg.mono (by have := hk.2 hkind; omega)
    · exact (h hkind).mono hik
  refine bind (statementList hT hgk) fun statements j hkj _ hs => spanFrom (pure ⟨k, hik, hkj, ?_, hs⟩)
  exact fun h => by have := hk.2 h; omega

end Reads

end Recheck.Syntax.Parser
