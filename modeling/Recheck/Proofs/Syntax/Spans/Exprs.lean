import Recheck.Proofs.Syntax.Spans.Types

/-!
# Where expressions lie

What stands behind an operand goes into a node that begins where the operand does, or where a word in front of it does.
So the invariant of the loops says that the expression so far lies behind the token at which the first node begins.
-/

set_option autoImplicit false

namespace Recheck.Syntax.Parser

variable {T : List Token} {f i j : Nat} {g : Grammar}

namespace Builds

variable (hg : Nests T f g)
include hg

/-! ## Operands -/

theorem argument : Builds T f (Parser.argument g) i fun e j => Within T f i j (.expr e) := by
  unfold Parser.argument
  refine skip (eat_any (by decide)) fun k hik => (hg.expr k).mono fun e j _ h => h.mono hik (Nat.le_refl j)

theorem arguments : Builds T f (Parser.arguments g) i fun args j =>
    (f = 0 → i < j) ∧ ∀ e ∈ args, Within T f i j (.expr e) := by
  unfold Parser.arguments
  refine bind (expect (by decide)) fun _ k hik => ?_
  refine bind (commaList (fun _ => argument hg) (grows_within _)) fun args m hkm => ?_
  refine seq (expect (by decide)) fun _ j hmj => pure fun hargs hopen => ⟨by omega, fun e he => ?_⟩
  exact (hargs e he).mono hik hmj

theorem arrayItems : Builds T f (Parser.arrayItems g) i fun items j => ∀ e ∈ items, Within T f i j (.expr e) := by
  unfold Parser.arrayItems
  have hgrows : Grows fun i j e => Within T f i j (.expr e) := grows_within _
  refine bind (repeating (I := fun items k => ∀ e ∈ items, Within T f i k (.expr e)) ?_) fun items k hik => ?_
  · intro items k hik
    unfold Parser.itemStep
    refine atEnd (atKind ?_)
    split
    · exact pure id
    · refine eat (by decide) (fun _ => pure fun hitems => hgrows.all (Nat.le_succ k) hitems) fun _ => ?_
      refine bind (argument hg) fun e m hkm => eat (by decide) (fun _ => pure ?_) fun _ => pure ?_
      · exact fun he hitems => hgrows.all (Nat.le_succ m) (hgrows.cons hik hkm hitems he)
      · exact fun he hitems => hgrows.cons hik hkm hitems he
  · refine seq (expect (by decide)) fun _ j hkj => pure fun hitems e he => ?_
    exact (hitems nofun e (List.mem_reverse.mp he)).mono (Nat.le_refl i) hkj

theorem functionRest : Builds T f (Parser.functionRest g) i fun kind j => Fills T f i j (Piece.ofExpr kind) := by
  unfold Parser.functionRest
  refine skip (typeParams hg) fun k hik => bind (params hg) fun ps m hkm => ?_
  refine bind (typeAfter hg (by decide)) fun ret n hmn => bind (block hg) fun body j hnj => pure fun hbody hret hps => ?_
  have hlt := hps.1
  refine ⟨by omega, .append (.append (.map fun p hp => ?_) (.option fun t ht => ?_)) (.single ?_)⟩
  · exact (hps.2 p hp).mono hik (by omega)
  · exact (hret t ht).mono (by omega) hnj
  · exact hbody.mono (by omega) (Nat.le_refl j)

/-- The value that is left out is the name itself. -/
theorem propertyValue {name : Ident} {i₀ : Nat} (h₀ : i₀ ≤ i) : Builds T f (Parser.propertyValue g name) i fun e j =>
    Within T f i₀ i (.ident name) → Within T f i₀ j (.expr e) := by
  unfold Parser.propertyValue
  refine eat (by decide) (fun _ => ?_) fun _ => atKind (atKind ?_)
  · exact (hg.expr (i + 1)).mono fun e j _ h _ => h.mono (by omega) (Nat.le_refl j)
  · split
    · refine currentSpan (bind (functionRest hg) fun kind j hij => spanFrom fun s hs _ => pure fun h _ => ?_)
      exact Within.mono (.node (hs h.lt) h.parts rfl) h₀ (Nat.le_refl j)
    · exact pure fun h => ⟨h.toInside, nofun, fun _ => .nil⟩

theorem property : Builds T f (Parser.property g) i fun p j => ∀ p' ∈ p, Within T f i j (.property p') := by
  unfold Parser.property
  refine currentSpan (eat (by decide) (fun _ => ?_) fun _ => ?_)
  · refine bind (hg.expr (i + 1)) fun value j hij => spanFrom fun s hs _ => here fun hT hj => pure fun hvalue => ?_
    rintro _ ⟨⟩
    refine .node (hs (by omega)) (.cons (.token hT hj (by omega) rfl rfl rfl) (.single ?_)) rfl
    exact hvalue.mono (Nat.le_succ i) (Nat.le_refl j)
  · refine remaining (bind expectPropertyName fun name k hik => remaining ?_)
    split
    · exact pure fun _ => nofun
    · refine bind (propertyValue hg hik) fun value j hkj => spanFrom fun s hs _ => pure fun hvalue hname => ?_
      rintro _ ⟨⟩
      have hvalue := hvalue hname
      exact .node (hs hvalue.lt) (.cons (hname.mono (Nat.le_refl i) hkj) (.single hvalue)) rfl

theorem objectLiteral : Builds T f (Parser.objectLiteral g) i fun properties j =>
    (f = 0 → i < j) ∧ ∀ p ∈ properties, Within T f i j (.property p) := by
  unfold Parser.objectLiteral
  have hgrows : Grows fun i j p => Within T f i j (.property p) := grows_within _
  refine bind (expect (by decide)) fun _ k hik => ?_
  refine bind (repeating (I := fun items n => ∀ p ∈ items, Within T f k n (.property p)) ?_) fun items n hkn => ?_
  · intro items m hkm
    unfold Parser.propertyStep
    refine atEnd (atKind ?_)
    split
    · exact pure id
    · refine bind (property hg) fun p n hmn => ?_
      cases p with
      | none => exact read Reads.advance_any fun _ j hj _ => pure fun _ hitems => hgrows.all (by omega) hitems
      | some p =>
        refine eat (by decide) (fun _ => pure ?_) fun _ => pure ?_
        · exact fun hp hitems => hgrows.all (Nat.le_succ n) (hgrows.cons hkm hmn hitems (hp p rfl))
        · exact fun hp hitems => hgrows.cons hkm hmn hitems (hp p rfl)
  · refine bind (expect (by decide)) fun _ j hnj => pure fun _ hitems hopen => ⟨by omega, fun p hp => ?_⟩
    exact (hitems nofun p (List.mem_reverse.mp hp)).mono hik hnj

theorem primaryKind : Builds T f (Parser.primaryKind g) i fun kind j => Fills T f i j (Piece.ofExpr kind) := by
  have hleaf {j : Nat} (h : f = 0 → i < j) : Fills T f i j [] := ⟨h, .nil⟩
  unfold Parser.primaryKind
  refine current ?_
  split <;> rename_i hkind
  · exact currentText (advance_bind (by rw [hkind]; decide) (pure (hleaf (by omega))))
  · exact advance_bind (by rw [hkind]; decide) (pure (hleaf (by omega)))
  · exact currentText (advance_bind (by rw [hkind]; decide) (pure (hleaf (by omega))))
  · exact advance_bind (by rw [hkind]; decide) (pure (hleaf (by omega)))
  · exact currentText (advance_bind (by rw [hkind]; decide) (pure (hleaf (by omega))))
  · exact advance_bind (by rw [hkind]; decide) (pure (hleaf (by omega)))
  · exact advance_bind (by rw [hkind]; decide) (pure (hleaf (by omega)))
  · exact advance_bind (by rw [hkind]; decide) (pure (hleaf (by omega)))
  · exact advance_bind (by rw [hkind]; decide) (pure (hleaf (by omega)))
  · refine advance_bind (by rw [hkind]; decide) (bind (arrayItems hg) fun items j hij => pure fun h => ⟨by omega, ?_⟩)
    exact .map fun e he => (h e he).mono (Nat.le_succ i) (Nat.le_refl j)
  · exact bind (objectLiteral hg) fun ps j hij => pure fun h => ⟨h.1, .map h.2⟩
  · refine advance_bind (by rw [hkind]; decide) (skip (eat_any (by decide)) fun k hik => ?_)
    refine skip (eat_any (by decide)) fun m hkm => (functionRest hg).mono fun kind j _ h => ?_
    exact h.mono (by omega) (Nat.le_refl j)
  · exact report_bind (pure fun hf => hleaf fun h => absurd h hf)

/-- In parentheses a node takes their span. -/
theorem primary : Builds T f (Parser.primary g) i fun e j => Within T f i j (.expr e) := by
  unfold Parser.primary
  refine currentSpan (eat (by decide) (fun _ => ?_) fun _ => ?_)
  · refine bind (hg.expr (i + 1)) fun inner k hik => seq (expect (by decide)) fun _ j hkj => ?_
    refine spanFrom fun s hs _ => pure fun h => ?_
    exact (h.mono (Nat.le_succ i) hkj).withSpan (hs (by omega)) rfl rfl
  · exact bind (primaryKind hg) fun kind j hij => spanFrom fun s hs _ => pure fun h => .node (hs h.lt) h.parts rfl

/-! ## Behind an operand -/

omit hg in
/-- A member of what has been read from the token `i` on. -/
theorem memberOf {e : Expr} {k : Nat} (hik : i ≤ k) :
    Builds T f (Parser.expectPropertyName >>= fun name => Parser.spanFrom (spanOf T i) >>= fun s =>
        Pure.pure (Step.more (⟨.member e name, s⟩ : Expr))) (k + 1)
      fun r j => Within T f i k (.expr e) → Within T f i j (.expr r.acc) := by
  refine bind expectPropertyName fun name j hkj => spanFrom fun s hs _ => pure fun hname he => ?_
  refine .node (hs (by omega)) (.cons (he.mono (Nat.le_refl i) (by omega)) (.single ?_)) rfl
  exact hname.mono (by omega) (Nat.le_refl j)

theorem newExpr (hkind : kindOf T i = .new) : Builds T f (Parser.newExpr g) i fun e j => Within T f i j (.expr e) := by
  unfold Parser.newExpr
  refine currentSpan (advance_bind (by rw [hkind]; decide) (bind (primary hg) fun first k hik => ?_))
  have hchain : Builds T f (Parser.memberChain (spanOf T i) first) k fun callee j =>
      Within T f i k (.expr first) → Within T f i j (.expr callee) := by
    refine repeating (I := fun e m => Within T f i m (.expr e)) fun e m hkm => ?_
    unfold Parser.chainStep
    exact eat (by decide) (fun _ => memberOf (by omega)) fun _ => pure id
  refine bind hchain fun callee m hkm => atKind ?_
  extract_lets last
  have tail (args : List Expr) (n : Nat) (hmn : m ≤ n) : Builds T f (last args) n fun e j =>
      (∀ a ∈ args, Within T f m n (.expr a)) → Within T f i m (.expr callee) → Within T f i j (.expr e) := by
    refine spanFrom fun s hs _ => pure fun hargs hcallee => ?_
    refine .node (hs (by omega)) (.cons (hcallee.mono (Nat.le_refl i) hmn) (.map fun a ha => ?_)) rfl
    exact (hargs a ha).mono (by omega) (Nat.le_refl n)
  split
  · refine bind (arguments hg) fun args n hmn => (tail args n hmn).mono fun e j _ h hargs hcallee hfirst => ?_
    exact h hargs.2 (hcallee (hfirst.mono (Nat.le_succ i) (Nat.le_refl k)))
  · refine (tail [] m (Nat.le_refl m)).mono fun e j _ h hcallee hfirst => ?_
    exact h nofun (hcallee (hfirst.mono (Nat.le_succ i) (Nat.le_refl k)))

theorem indexRest : Builds T f (Parser.indexRest g) i fun e j => Within T f i j (.expr e) := by
  unfold Parser.indexRest
  refine bind (hg.expr i) fun index k hik => seq (expect (by decide)) fun _ j hkj => pure fun h => h.mono (Nat.le_refl i) hkj

theorem postfixStep {e : Expr} {k : Nat} (hik : i ≤ k) : Builds T f (Parser.postfixStep g (spanOf T i) e) k fun r j =>
    Within T f i k (.expr e) → Within T f i j (.expr r.acc) := by
  have call {m : Nat} (hkm : k ≤ m) : Builds T f (Parser.arguments g >>= fun args => Parser.spanFrom (spanOf T i) >>= fun s =>
      Pure.pure (Step.more (⟨.call e args, s⟩ : Expr))) m
      fun r j => Within T f i k (.expr e) → Within T f i j (.expr r.acc) := by
    refine bind (arguments hg) fun args j hmj => spanFrom fun s hs _ => pure fun hargs he => ?_
    have hlt := he.lt
    refine .node (hs (by omega)) (.cons (he.mono (Nat.le_refl i) (by omega)) (.map fun a ha => ?_)) rfl
    exact (hargs.2 a ha).mono (by omega) (Nat.le_refl j)
  have index {m : Nat} (hkm : k ≤ m) : Builds T f (Parser.indexRest g >>= fun index => Parser.spanFrom (spanOf T i) >>= fun s =>
      Pure.pure (Step.more (⟨.index e index, s⟩ : Expr))) m
      fun r j => Within T f i k (.expr e) → Within T f i j (.expr r.acc) := by
    refine bind (indexRest hg) fun index j hmj => spanFrom fun s hs _ => pure fun hindex he => ?_
    have hlt := he.lt
    refine .node (hs (by omega)) (.cons (he.mono (Nat.le_refl i) (by omega)) (.single ?_)) rfl
    exact hindex.mono (by omega) (Nat.le_refl j)
  unfold Parser.postfixStep
  refine current ?_
  split <;> rename_i hkind
  · exact advance_bind (by rw [hkind]; decide) (memberOf hik)
  · refine advance_bind (by rw [hkind]; decide) (atKind ?_)
    split
    · exact call (Nat.le_succ k)
    · refine eat (by decide) (fun _ => index (by omega)) fun _ => memberOf hik
  · exact advance_bind (by rw [hkind]; decide) (index (Nat.le_succ k))
  · exact call (Nat.le_refl k)
  · refine newlineBefore ?_
    split
    · exact pure id
    · exact advance_bind (by rw [hkind]; decide) (pure fun he => he.mono (Nat.le_refl i) (Nat.le_succ k))
  · refine newlineBefore ?_
    split
    · exact pure id
    · refine advance_bind (by rw [hkind]; decide) (spanFrom fun s hs _ => pure fun he => ?_)
      exact .node (hs (by omega)) (.single (he.mono (Nat.le_refl i) (Nat.le_succ k))) rfl
  · exact pure id

theorem postfixExpr : Builds T f (Parser.postfixExpr g) i fun e j => Within T f i j (.expr e) := by
  unfold Parser.postfixExpr
  refine currentSpan (atKind ?_)
  extract_lets rest
  have tail (first : Expr) (k : Nat) (hik : i ≤ k) :
      Builds T f (rest first) k fun e j => Within T f i k (.expr first) → Within T f i j (.expr e) :=
    repeating (I := fun e m => Within T f i m (.expr e)) fun e m hkm => postfixStep hg (Nat.le_trans hik hkm)
  split
  · rename_i hkind
    exact bind (newExpr hg (of_decide_eq_true hkind)) fun first k hik => tail first k hik
  · exact bind (primary hg) fun first k hik => tail first k hik

theorem unaryExpr : Builds T f (Parser.unaryExpr g) i fun e j => Within T f i j (.expr e) := by
  unfold Parser.unaryExpr
  refine currentSpan (current ?_)
  split
  · rename_i op hop
    have hread : kindOf T i ≠ .eof := fun h => by rw [h] at hop; exact nomatch hop
    refine advance_bind hread (bind (hg.unary (i + 1)) fun operand j hij => spanFrom fun s hs _ => pure fun h => ?_)
    exact .node (hs (by omega)) (.single (h.mono (Nat.le_succ i) (Nat.le_refl j))) rfl
  · refine atWord fun b hb => get fun s _ => ?_
    split
    · rename_i hawait
      refine advance_bind (by rw [hb (by simp at hawait; exact hawait.1)]; decide) ?_
      exact (hg.unary (i + 1)).mono fun e j _ h => h.mono (Nat.le_succ i) (Nat.le_refl j)
    · exact postfixExpr hg

/-! ## Operators -/

theorem castType : Builds T f (Parser.castType g) i fun type j => Within T f i j (.type type) := by
  unfold Parser.castType
  refine eatWord ?_ (typeNode hg)
  -- A constant cast has the span of its word.
  intro hT s hs
  refine ⟨i + 1, hs, .refl s, fun _ => .token hT hs.lt (fun _ => Nat.lt_succ_self i) ?_ rfl rfl⟩
  exact hs.previous

theorem binaryStep (power : Nat) {left : Expr} {k : Nat} (hik : i ≤ k) :
    Builds T f (Parser.binaryStep g power (spanOf T i) left) k fun r j =>
      Within T f i k (.expr left) → Within T f i j (.expr r.acc) := by
  unfold Parser.binaryStep
  refine atWord fun b hb => newlineBefore ?_
  split
  · rename_i hcast
    have hkind : kindOf T k = .identifier := hb (by simp at hcast; exact hcast.1.1)
    refine advance_bind (by rw [hkind]; decide) (bind (castType hg) fun type j hkj => spanFrom fun s hs _ => pure ?_)
    intro htype hleft
    have hlt := hleft.lt
    refine .node (hs (by omega)) (.cons (hleft.mono (Nat.le_refl i) (by omega)) (.single ?_)) rfl
    exact htype.mono (by omega) (Nat.le_refl j)
  · refine current ?_
    split
    · exact pure id
    · rename_i op strength hop
      split
      · exact pure id
      · have hread : kindOf T k ≠ .eof := fun h => by rw [h] at hop; exact nomatch hop
        refine advance_bind hread (bind (hg.binary _ (k + 1)) fun right j hkj => spanFrom fun s hs _ => pure ?_)
        intro hright hleft
        have hlt := hleft.lt
        refine .node (hs (by omega)) (.cons (hleft.mono (Nat.le_refl i) (by omega)) (.single ?_)) rfl
        exact hright.mono (by omega) (Nat.le_refl j)

theorem binaryExpr (power : Nat) : Builds T f (Parser.binaryExpr g power) i fun e j => Within T f i j (.expr e) := by
  unfold Parser.binaryExpr
  refine currentSpan (bind (unaryExpr hg) fun first k hik => ?_)
  exact repeating (I := fun e m => Within T f i m (.expr e)) fun e m hkm => binaryStep hg power (Nat.le_trans hik hkm)

theorem conditionalExpr : Builds T f (Parser.conditionalExpr g) i fun e j => Within T f i j (.expr e) := by
  unfold Parser.conditionalExpr
  refine currentSpan (bind (binaryExpr hg 0) fun condition k hik => eat (by decide) (fun _ => ?_) fun _ => pure id)
  refine bind (hg.expr (k + 1)) fun thenValue m hkm => seq (expect (by decide)) fun _ n hmn => ?_
  refine bind (hg.expr n) fun elseValue j hnj => spanFrom fun s hs _ => pure fun helse hthen hcondition => ?_
  have hlt := hcondition.lt
  refine .node (hs (by omega)) (.cons ?_ (.cons ?_ (.single ?_))) rfl
  · exact hcondition.mono (Nat.le_refl i) (by omega)
  · exact hthen.mono (by omega) (by omega)
  · exact helse.mono (by omega) (Nat.le_refl j)

/-! ## Whole expressions -/

theorem arrowParams : Builds T f (Parser.arrowParams g) i fun ps j => ∀ p ∈ ps, Within T f i j (.param p) := by
  unfold Parser.arrowParams
  refine atKind ?_
  split
  · rename_i hkind
    refine bind (takeIdent (by rw [of_decide_eq_true hkind]; decide)) fun name j hij => pure fun hname => ?_
    rw [List.forall_mem_singleton]
    exact hname.2.wrap rfl rfl rfl
  · exact skip (typeParams hg) fun k hik => (params hg).mono fun ps j _ h p hp => (h.2 p hp).mono hik (Nat.le_refl j)

theorem arrowFunction : Builds T f (Parser.arrowFunction g) i fun e j => Within T f i j (.expr e) := by
  unfold Parser.arrowFunction
  refine currentSpan (bind (arrowParams hg) fun ps k hik => bind (typeAfter hg (by decide)) fun ret m hkm => ?_)
  refine seq (expect (by decide)) fun _ n hmn => atKind ?_
  extract_lets last
  have tail (body : FunctionBody) (j : Nat) (hnj : n ≤ j) : Builds T f (last body) j fun e j' =>
      (f = 0 → n < j) ∧ Parts T f n j (Piece.ofBody body) → (∀ t ∈ ret, Within T f k m (.type t)) →
        (∀ p ∈ ps, Within T f i k (.param p)) → Within T f i j' (.expr e) := by
    refine spanFrom fun s hs _ => pure fun hbody hret hps => ?_
    refine .node (hs (by omega)) (.append (.append (.map fun p hp => ?_) (.option fun t ht => ?_)) ?_) rfl
    · exact (hps p hp).mono (Nat.le_refl i) (by omega)
    · exact (hret t ht).mono hik (by omega)
    · exact hbody.2.mono (by omega) (Nat.le_refl j)
  split
  · refine bind (block hg) fun body j hnj => (tail (.block body) j hnj).mono fun e j' _ h hbody => ?_
    exact h ⟨hbody.lt, .single hbody⟩
  · refine bind (hg.expr n) fun value j hnj => (tail (.expr value) j hnj).mono fun e j' _ h hvalue => ?_
    exact h ⟨hvalue.lt, .single hvalue⟩

theorem exprNode : Builds T f (Parser.exprNode g) i fun e j => Within T f i j (.expr e) := by
  unfold Parser.exprNode
  refine read Reads.skipAsync fun _ k hik _ => get fun s _ => ?_
  split
  · exact (arrowFunction hg).mono fun e j _ h => h.mono hik (Nat.le_refl j)
  · refine currentSpan (bind (conditionalExpr hg) fun target m hkm => atKind (atKind ?_))
    split
    · rename_i hassign
      have hread : kindOf T m ≠ .eof := fun h => by rw [h] at hassign; simp at hassign
      refine advance_bind hread (bind (hg.expr (m + 1)) fun value j hmj => spanFrom fun s hs _ => pure ?_)
      intro hvalue htarget
      have hlt := htarget.lt
      have hnode : Within T f k j (.expr ⟨.assign target value (kindOf T m = .eq), s⟩) := by
        refine .node (hs (by omega)) (.cons (htarget.mono (Nat.le_refl k) (by omega)) (.single ?_)) rfl
        exact hvalue.mono (by omega) (Nat.le_refl j)
      exact hnode.mono hik (Nat.le_refl j)
    · exact pure fun h => h.mono hik (Nat.le_refl m)

end Builds

end Recheck.Syntax.Parser
