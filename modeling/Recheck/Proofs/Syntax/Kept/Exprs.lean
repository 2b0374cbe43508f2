import Recheck.Proofs.Syntax.Kept.Types

/-!
# Types that are kept in expressions

Types stand in casts and in the heads of function expressions. All that an expression consists of is kept in it, except for
the substitutions of a template. A constant cast would stand for `any`, but its word is reserved, so it is a fault.
-/

set_option autoImplicit false

namespace Recheck.Syntax

open Recheck.Syntax.Parser

variable {T : List Token} {i j k m : Nat}

/-- The span of an expression does not matter. -/
theorem Laid.withSpan {e : Expr} (h : Laid T i j (Piece.expr e).types) (span : Span) :
    Laid T i j (Piece.expr ⟨e.kind, span⟩).types := by
  have hsame : (Piece.expr ⟨e.kind, span⟩).types = (Piece.expr e).types := by
    obtain ⟨kind, span'⟩ := e
    rfl
  rwa [hsame]

theorem Laid.expr {kind : ExprKind} (h : LaidParts T i j (Piece.ofExpr kind)) (span : Span) :
    Laid T i j (Piece.expr ⟨kind, span⟩).types := .node h rfl

namespace Parser

variable {g : Grammar}

namespace Builds

variable (hg : Lays T g)
include hg

/-! ## Operands -/

theorem argument_laid : Builds T 0 (Parser.argument g) i fun e j => Laid T i j (Piece.expr e).types := by
  unfold Parser.argument
  refine skip (eat_any (f := 0) (by decide)) fun k hik => (hg.laidExpr k).mono fun e j _ h => ?_
  exact .mono hik (Nat.le_refl j) h

theorem arguments_laid : Builds T 0 (Parser.arguments g) i fun args j => LaidParts T i j (args.map .expr) := by
  unfold Parser.arguments
  refine seq (expect (f := 0) (by decide)) fun _ k hik => bind (commaList_laid fun _ => argument_laid hg) fun args m hkm => ?_
  exact seq (expect (f := 0) (by decide)) fun _ j hmj => pure fun hargs => .mono hik hmj hargs

theorem arrayItems_laid : Builds T 0 (Parser.arrayItems g) i fun items j => LaidParts T i j (items.map .expr) := by
  unfold Parser.arrayItems
  refine bind (repeating (I := fun (items : List Expr) k => LaidParts T i k (items.map .expr)) ?_) fun items k hik =>
    seq (expect (f := 0) (by decide)) fun _ j hkj => pure fun hitems => .mono (Nat.le_refl i) hkj (laid_reverse (hitems .nil))
  intro items k hik
  unfold Parser.itemStep
  refine atEnd (atKind ?_)
  split
  · exact pure id
  · refine eat (by decide) (fun _ => pure fun hitems => .mono (Nat.le_refl i) (Nat.le_succ k) hitems) fun _ => ?_
    refine bind (argument_laid hg) fun e m hkm => eat (by decide) (fun _ => pure ?_) fun _ => pure ?_
    · exact fun he hitems => .mono (Nat.le_refl i) (Nat.le_succ m) (Laid.behind hitems he hik hkm)
    · exact fun he hitems => Laid.behind hitems he hik hkm

theorem functionRest_laid : Builds T 0 (Parser.functionRest g) i fun kind j => LaidParts T i j (Piece.ofExpr kind) := by
  unfold Parser.functionRest
  refine skip (typeParams hg.toNests) fun k hik => bind (params_laid hg) fun ps m hkm => ?_
  refine bind (typeAfter_laid hg (by decide)) fun ret n hmn => bind (block_laid hg) fun body j hnj => pure ?_
  intro hbody hret hps
  refine .append (k := n) (.append (k := m) (.mono (by omega) (Nat.le_refl m) hps.2) (.option fun t ht => ?_) (by omega) hmn)
    (.single hbody) (by omega) hnj
  rw [Piece.types_type]
  exact .mono (Nat.le_succ m) (Nat.le_refl n) (hret t ht).laid

theorem propertyValue_laid {name : Ident} :
    Builds T 0 (Parser.propertyValue g name) i fun e j => Laid T i j (Piece.expr e).types := by
  unfold Parser.propertyValue
  refine eat (by decide) (fun _ => ?_) fun _ => atKind (atKind ?_)
  · exact (hg.laidExpr (i + 1)).mono fun e j _ h => .mono (Nat.le_succ i) (Nat.le_refl j) h
  · split
    · exact currentSpan (bind (functionRest_laid hg) fun kind j _ => spanFrom_any fun s => pure fun h => .expr h s)
    · exact pure (.expr .nil _)

theorem property_laid : Builds T 0 (Parser.property g) i fun p j => ∀ p' ∈ p, Laid T i j (Piece.property p').types := by
  unfold Parser.property
  refine currentSpan (eat (by decide) (fun _ => ?_) fun _ => ?_)
  · refine bind (hg.laidExpr (i + 1)) fun value j hij => spanFrom_any fun s => pure fun hvalue => ?_
    rintro _ ⟨⟩
    exact .node (.bare rfl (.single (.mono (Nat.le_succ i) (Nat.le_refl j) hvalue))) rfl
  · refine remaining (seq (expectPropertyName (f := 0)) fun name k hik => remaining ?_)
    split
    · exact pure nofun
    · refine bind (propertyValue_laid hg) fun value j hkj => spanFrom_any fun s => pure fun hvalue => ?_
      rintro _ ⟨⟩
      exact .node (.bare rfl (.single (.mono hik (Nat.le_refl j) hvalue))) rfl

theorem objectLiteral_laid :
    Builds T 0 (Parser.objectLiteral g) i fun properties j => LaidParts T i j (properties.map .property) := by
  unfold Parser.objectLiteral
  refine seq (expect (f := 0) (by decide)) fun _ k hik => ?_
  refine bind (repeating (I := fun (items : List Property) n => LaidParts T k n (items.map .property)) ?_) fun items n hkn => ?_
  · intro items m hkm
    unfold Parser.propertyStep
    refine atEnd (atKind ?_)
    split
    · exact pure id
    · refine bind (property_laid hg) fun p n hmn => ?_
      cases p with
      | none => exact read Reads.advance_any fun _ j hj _ => pure fun _ hitems => .mono (Nat.le_refl k) (by omega) hitems
      | some p =>
        refine eat (by decide) (fun _ => pure ?_) fun _ => pure ?_
        · exact fun hp hitems => .mono (Nat.le_refl k) (Nat.le_succ n) (Laid.behind hitems (hp p rfl) hkm hmn)
        · exact fun hp hitems => .behind hitems (hp p rfl) hkm hmn
  · refine seq (expect (f := 0) (by decide)) fun _ j hnj => pure fun hitems => ?_
    exact .mono hik hnj (laid_reverse (hitems .nil))

theorem primaryKind_laid : Builds T 0 (Parser.primaryKind g) i fun kind j => LaidParts T i j (Piece.ofExpr kind) := by
  unfold Parser.primaryKind
  refine current ?_
  split <;> rename_i hkind
  · exact currentText (advance_bind (by rw [hkind]; decide) (pure .nil))
  · exact advance_bind (by rw [hkind]; decide) (pure .nil)
  · exact currentText (advance_bind (by rw [hkind]; decide) (pure .nil))
  · exact advance_bind (by rw [hkind]; decide) (pure .nil)
  · exact currentText (advance_bind (by rw [hkind]; decide) (pure .nil))
  · exact advance_bind (by rw [hkind]; decide) (pure .nil)
  · exact advance_bind (by rw [hkind]; decide) (pure .nil)
  · exact advance_bind (by rw [hkind]; decide) (pure .nil)
  · exact advance_bind (by rw [hkind]; decide) (pure .nil)
  · refine advance_bind (by rw [hkind]; decide) (bind (arrayItems_laid hg) fun items j hij => pure fun h => ?_)
    exact .mono (Nat.le_succ i) (Nat.le_refl j) h
  · exact bind (objectLiteral_laid hg) fun ps j hij => pure id
  · refine advance_bind (by rw [hkind]; decide) (skip (eat_any (f := 0) (by decide)) fun k hik => ?_)
    refine skip (eat_any (f := 0) (by decide)) fun m hkm => (functionRest_laid hg).mono fun kind j _ h => ?_
    exact .mono (by omega) (Nat.le_refl j) h
  · exact report_bind (pure fun hf => absurd rfl hf)

theorem primary_laid : Builds T 0 (Parser.primary g) i fun e j => Laid T i j (Piece.expr e).types := by
  unfold Parser.primary
  refine currentSpan (eat (by decide) (fun _ => ?_) fun _ => ?_)
  · refine bind (hg.laidExpr (i + 1)) fun inner k hik => seq (expect (f := 0) (by decide)) fun _ j hkj => ?_
    exact spanFrom_any fun s => pure fun h => .mono (Nat.le_succ i) hkj (h.withSpan s)
  · exact bind (primaryKind_laid hg) fun kind j hij => spanFrom_any fun s => pure fun h => .expr h s

/-! ## Behind an operand -/

omit hg in
/-- A member of what has been read from the token `i` on. -/
theorem memberOf_laid {e : Expr} {start : Span} (hik : i ≤ k) :
    Builds T 0 (Parser.expectPropertyName >>= fun name => Parser.spanFrom start >>= fun s =>
        Pure.pure (Step.more (⟨.member e name, s⟩ : Expr))) (k + 1)
      fun r j => Laid T i k (Piece.expr e).types → Laid T i j (Piece.expr r.acc).types := by
  refine seq (expectPropertyName (f := 0)) fun name j hkj => spanFrom_any fun s => pure fun he => ?_
  exact .expr (.cons he (.bare rfl .nil) hik (by omega)) s

theorem newExpr_laid (hkind : kindOf T i = .new) :
    Builds T 0 (Parser.newExpr g) i fun e j => Laid T i j (Piece.expr e).types := by
  unfold Parser.newExpr
  refine currentSpan (advance_bind (by rw [hkind]; decide) (bind (primary_laid hg) fun first k hik => ?_))
  have hchain : Builds T 0 (Parser.memberChain (spanOf T i) first) k fun callee j =>
      Laid T i k (Piece.expr first).types → Laid T i j (Piece.expr callee).types := by
    refine repeating (I := fun (e : Expr) m => Laid T i m (Piece.expr e).types) fun e m hkm => ?_
    unfold Parser.chainStep
    exact eat (by decide) (fun _ => memberOf_laid (by omega)) fun _ => pure id
  refine bind hchain fun callee m hkm => atKind ?_
  extract_lets last
  have tail (args : List Expr) (n : Nat) (hmn : m ≤ n) : Builds T 0 (last args) n fun e j =>
      LaidParts T m n (args.map .expr) → Laid T i m (Piece.expr callee).types → Laid T i j (Piece.expr e).types :=
    spanFrom_any fun s => pure fun hargs hcallee => .expr (.cons hcallee hargs (by omega) hmn) s
  have hfirst (h : Laid T (i + 1) k (Piece.expr first).types) : Laid T i k (Piece.expr first).types :=
    .mono (Nat.le_succ i) (Nat.le_refl k) h
  split
  · refine bind (arguments_laid hg) fun args n hmn => (tail args n hmn).mono fun e j _ h hargs hcallee hnew => ?_
    exact h hargs (hcallee (hfirst hnew))
  · exact (tail [] m (Nat.le_refl m)).mono fun e j _ h hcallee hnew => h .nil (hcallee (hfirst hnew))

theorem indexRest_laid : Builds T 0 (Parser.indexRest g) i fun e j => Laid T i j (Piece.expr e).types := by
  unfold Parser.indexRest
  refine bind (hg.laidExpr i) fun index k hik => seq (expect (f := 0) (by decide)) fun _ j hkj => pure fun h => ?_
  exact .mono (Nat.le_refl i) hkj h

theorem postfixStep_laid {e : Expr} {start : Span} (hik : i ≤ k) : Builds T 0 (Parser.postfixStep g start e) k fun r j =>
    Laid T i k (Piece.expr e).types → Laid T i j (Piece.expr r.acc).types := by
  have call {m : Nat} (hkm : k ≤ m) : Builds T 0 (Parser.arguments g >>= fun args => Parser.spanFrom start >>= fun s =>
      Pure.pure (Step.more (⟨.call e args, s⟩ : Expr))) m
      fun r j => Laid T i k (Piece.expr e).types → Laid T i j (Piece.expr r.acc).types :=
    bind (arguments_laid hg) fun args j hmj => spanFrom_any fun s => pure fun hargs he =>
      .expr (.cons he (.mono hkm (Nat.le_refl j) hargs) hik (by omega)) s
  have index {m : Nat} (hkm : k ≤ m) : Builds T 0 (Parser.indexRest g >>= fun index => Parser.spanFrom start >>= fun s =>
      Pure.pure (Step.more (⟨.index e index, s⟩ : Expr))) m
      fun r j => Laid T i k (Piece.expr e).types → Laid T i j (Piece.expr r.acc).types :=
    bind (indexRest_laid hg) fun index j hmj => spanFrom_any fun s => pure fun hindex he =>
      .expr (.cons he (.single (.mono hkm (Nat.le_refl j) hindex)) hik (by omega)) s
  unfold Parser.postfixStep
  refine current ?_
  split <;> rename_i hkind
  · exact advance_bind (by rw [hkind]; decide) (memberOf_laid hik)
  · refine advance_bind (by rw [hkind]; decide) (atKind ?_)
    split
    · exact call (Nat.le_succ k)
    · exact eat (by decide) (fun _ => index (by omega)) fun _ => memberOf_laid hik
  · exact advance_bind (by rw [hkind]; decide) (index (Nat.le_succ k))
  · exact call (Nat.le_refl k)
  · refine newlineBefore ?_
    split
    · exact pure id
    · exact advance_bind (by rw [hkind]; decide) (pure fun he => .mono (Nat.le_refl i) (Nat.le_succ k) he)
  · refine newlineBefore ?_
    split
    · exact pure id
    · refine advance_bind (by rw [hkind]; decide) (spanFrom_any fun s => pure fun he => ?_)
      exact .expr (.single (.mono (Nat.le_refl i) (Nat.le_succ k) he)) s
  · exact pure id

theorem postfixExpr_laid : Builds T 0 (Parser.postfixExpr g) i fun e j => Laid T i j (Piece.expr e).types := by
  unfold Parser.postfixExpr
  refine currentSpan (atKind ?_)
  extract_lets rest
  have tail (first : Expr) (k : Nat) (hik : i ≤ k) : Builds T 0 (rest first) k fun e j =>
      Laid T i k (Piece.expr first).types → Laid T i j (Piece.expr e).types :=
    repeating (I := fun (e : Expr) m => Laid T i m (Piece.expr e).types) fun e m hkm => postfixStep_laid hg (Nat.le_trans hik hkm)
  split
  · rename_i hkind
    exact bind (newExpr_laid hg (of_decide_eq_true hkind)) fun first k hik => tail first k hik
  · exact bind (primary_laid hg) fun first k hik => tail first k hik

theorem unaryExpr_laid : Builds T 0 (Parser.unaryExpr g) i fun e j => Laid T i j (Piece.expr e).types := by
  unfold Parser.unaryExpr
  refine currentSpan (current ?_)
  split
  · rename_i op hop
    have hread : kindOf T i ≠ .eof := fun h => by rw [h] at hop; exact nomatch hop
    refine advance_bind hread (bind (hg.laidUnary (i + 1)) fun operand j hij => spanFrom_any fun s => pure fun h => ?_)
    exact .expr (.single (.mono (Nat.le_succ i) (Nat.le_refl j) h)) s
  · refine atWord fun b hb => get fun s _ => ?_
    split
    · rename_i hawait
      refine advance_bind (by rw [hb (by simp at hawait; exact hawait.1)]; decide) ?_
      exact (hg.laidUnary (i + 1)).mono fun e j _ h => .mono (Nat.le_succ i) (Nat.le_refl j) h
    · exact postfixExpr_laid hg

/-! ## Operators -/

/-- The word of a constant cast is never read, as it is no identifier. -/
theorem castType_laid (hT : Identifiers T) : Builds T 0 (Parser.castType g) i fun type j => Whole T i j type := by
  unfold Parser.castType
  refine eatWord_absent ?_ (typeNode_laid hg)
  rintro ⟨hkind, htext⟩
  have hname := hT i hkind
  rw [htext] at hname
  exact absurd hname (by decide)

theorem binaryStep_laid (hT : Identifiers T) (power : Nat) {left : Expr} {start : Span} (hik : i ≤ k) :
    Builds T 0 (Parser.binaryStep g power start left) k fun r j =>
      Laid T i k (Piece.expr left).types → Laid T i j (Piece.expr r.acc).types := by
  unfold Parser.binaryStep
  refine atWord fun b hb => newlineBefore ?_
  split
  · rename_i hcast
    have hkind : kindOf T k = .identifier := hb (by simp at hcast; exact hcast.1.1)
    refine advance_bind (by rw [hkind]; decide) (bind (castType_laid hg hT) fun type j hkj => spanFrom_any fun s => pure ?_)
    intro htype hleft
    refine .expr (.cons hleft (.single ?_) hik (by omega)) s
    rw [Piece.types_type]
    exact .mono (Nat.le_succ k) (Nat.le_refl j) htype.laid
  · refine current ?_
    split
    · exact pure id
    · rename_i op strength hop
      split
      · exact pure id
      · have hread : kindOf T k ≠ .eof := fun h => by rw [h] at hop; exact nomatch hop
        refine advance_bind hread (bind (hg.laidBinary _ (k + 1)) fun right j hkj => spanFrom_any fun s => pure ?_)
        exact fun hright hleft => .expr (.cons hleft (.single (.mono (Nat.le_succ k) (Nat.le_refl j) hright)) hik (by omega)) s

theorem binaryExpr_laid (hT : Identifiers T) (power : Nat) :
    Builds T 0 (Parser.binaryExpr g power) i fun e j => Laid T i j (Piece.expr e).types := by
  unfold Parser.binaryExpr
  refine currentSpan (bind (unaryExpr_laid hg) fun first k hik => ?_)
  exact repeating (I := fun (e : Expr) m => Laid T i m (Piece.expr e).types) fun e m hkm =>
    binaryStep_laid hg hT power (Nat.le_trans hik hkm)

theorem conditionalExpr_laid (hT : Identifiers T) :
    Builds T 0 (Parser.conditionalExpr g) i fun e j => Laid T i j (Piece.expr e).types := by
  unfold Parser.conditionalExpr
  refine currentSpan (bind (binaryExpr_laid hg hT 0) fun condition k hik => eat (by decide) (fun _ => ?_) fun _ => pure id)
  refine bind (hg.laidExpr (k + 1)) fun thenValue m hkm => seq (expect (f := 0) (by decide)) fun _ n hmn => ?_
  refine bind (hg.laidExpr n) fun elseValue j hnj => spanFrom_any fun s => pure fun helse hthen hcondition => ?_
  refine .expr (.cons hcondition (.cons (k := m) ?_ (.single ?_) (by omega) (by omega)) hik (by omega)) s
  · exact .mono (Nat.le_succ k) (Nat.le_refl m) hthen
  · exact .mono hmn (Nat.le_refl j) helse

/-! ## Whole expressions -/

theorem arrowParams_laid : Builds T 0 (Parser.arrowParams g) i fun ps j => LaidParts T i j (ps.map .param) := by
  unfold Parser.arrowParams
  refine atKind ?_
  split
  · rename_i hkind
    exact seq (takeIdent (f := 0) (by rw [of_decide_eq_true hkind]; decide)) fun name j hij => pure .nil
  · refine skip (typeParams hg.toNests) fun k hik => (params_laid hg).mono fun ps j _ h => ?_
    exact .mono (by omega) (Nat.le_refl j) h.2

theorem arrowFunction_laid : Builds T 0 (Parser.arrowFunction g) i fun e j => Laid T i j (Piece.expr e).types := by
  unfold Parser.arrowFunction
  refine currentSpan (bind (arrowParams_laid hg) fun ps k hik => bind (typeAfter_laid hg (by decide)) fun ret m hkm => ?_)
  refine seq (expect (f := 0) (by decide)) fun _ n hmn => atKind ?_
  extract_lets last
  have tail (body : FunctionBody) (j : Nat) (hnj : n ≤ j) : Builds T 0 (last body) j fun e j' =>
      LaidParts T n j (Piece.ofBody body) → (∀ t ∈ ret, Whole T (k + 1) m t) → LaidParts T i k (ps.map .param) →
        Laid T i j' (Piece.expr e).types := by
    refine spanFrom_any fun s => pure fun hbody hret hps => ?_
    refine .expr (.append (k := n) (.append (k := k) hps (.option fun t ht => ?_) hik (by omega)) hbody (by omega) hnj) s
    rw [Piece.types_type]
    exact .mono (Nat.le_succ k) hmn (hret t ht).laid
  split
  · refine bind (block_laid hg) fun body j hnj => (tail (.block body) j hnj).mono fun e j' _ h hbody => ?_
    exact h (.single hbody)
  · refine bind (hg.laidExpr n) fun value j hnj => (tail (.expr value) j hnj).mono fun e j' _ h hvalue => ?_
    exact h (.single hvalue)

theorem exprNode_laid (hT : Identifiers T) :
    Builds T 0 (Parser.exprNode g) i fun e j => Laid T i j (Piece.expr e).types := by
  unfold Parser.exprNode
  refine read Reads.skipAsync fun _ k hik _ => get fun s _ => ?_
  split
  · exact (arrowFunction_laid hg).mono fun e j _ h => .mono hik (Nat.le_refl j) h
  · refine currentSpan (bind (conditionalExpr_laid hg hT) fun target m hkm => atKind (atKind ?_))
    split
    · rename_i hassign
      have hread : kindOf T m ≠ .eof := fun h => by rw [h] at hassign; simp at hassign
      refine advance_bind hread (bind (hg.laidExpr (m + 1)) fun value j hmj => spanFrom_any fun s => pure ?_)
      intro hvalue htarget
      refine .expr (.cons (k := m) (.mono hik (Nat.le_refl m) htarget) (.single ?_) (by omega) (by omega)) s
      exact .mono (Nat.le_succ m) (Nat.le_refl j) hvalue
    · exact pure fun h => .mono hik (Nat.le_refl m) h

end Builds

end Parser

end Recheck.Syntax
