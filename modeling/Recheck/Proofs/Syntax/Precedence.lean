import Recheck.Proofs.Syntax.Formula
import Recheck.Proofs.Syntax.Taking

/-!
# Formulas are read back

The text of a formula is read as a tree that is the formula again (`Formula.read_as_written`). The parser reads the operators of
one level in a loop, and a formula grows on its left: what the loop has in hand when it comes to an operator is the left operand as
a whole. So the induction speaks of a loop that goes on (`Leads`): whatever the loop makes of the words behind the formula once it
has the formula in hand, it makes of all the words when it begins with the first operand.
-/

set_option autoImplicit false

namespace Recheck.Syntax.Parser

variable {α β σ : Type} {g : Grammar} {w : Word} {ws before after : List Word} {power need n : Nat} {start : Span}
  {P : Parse α} {Q : α → Prop} {left : Expr}

/-! ## No arrow ahead -/

def NoArrow (words : List Word) : Prop := ∀ w ∈ words, w.kind ≠ .arrow

theorem mem_of_afterParens {depth : Nat} {tokens rest : List Token} (h : afterParens depth tokens = some rest) :
    ∀ t ∈ rest, t ∈ tokens := by
  induction tokens generalizing depth with
  | nil =>
    rw [afterParens] at h
    cases h
  | cons first tokens ih =>
    intro t ht
    rw [afterParens] at h
    split at h
    · exact List.mem_cons_of_mem _ (ih h t ht)
    · split at h
      · obtain rfl := Option.some.inj h
        exact List.mem_cons_of_mem _ ht
      · exact List.mem_cons_of_mem _ (ih h t ht)
    · cases h
    · exact List.mem_cons_of_mem _ (ih h t ht)

theorem arrowAfterType_eq_false {tokens : List Token} (h : ∀ t ∈ tokens, t.kind ≠ .arrow) (depth : Nat) :
    arrowAfterType depth tokens = false := by
  induction tokens generalizing depth with
  | nil => rw [arrowAfterType]
  | cons first tokens ih =>
    obtain ⟨hfirst, htokens⟩ := List.forall_mem_cons.mp h
    specialize ih htokens
    rw [arrowAfterType]
    split
    next hkind => exact absurd hkind hfirst
    all_goals simp [ih]

/-- Without an arrow no arrow function begins, and without an angle bracket none is taken for granted. -/
theorem startsArrow_eq_false {tokens : List Token} (h : ∀ t ∈ tokens, t.kind ≠ .arrow) (hlt : ∀ t ∈ tokens.head?, t.kind ≠ .lt) :
    startsArrow tokens = false := by
  unfold startsArrow
  split
  next next _ =>
    have hnext := h next (by simp)
    simp [hnext]
  next => exact absurd rfl (hlt _ rfl)
  next first rest =>
    split
    next hbehind =>
      have hfirst := mem_of_afterParens hbehind _ List.mem_cons_self
      exact absurd rfl (h _ hfirst)
    next hbehind =>
      apply arrowAfterType_eq_false
      intro t ht
      exact h t (mem_of_afterParens hbehind t (List.mem_cons_of_mem _ ht))
    next => rfl
  next => rfl

/-! ## Where an operand ends -/

/-- The tokens that stand behind a formula: the end of the text, and what a formula is enclosed in. -/
def closers : List TokenKind := [.eof, .rParen, .colon]

/-- The word goes on with no operand, and with no operator that binds at least so tightly. -/
inductive Stops (power : Nat) : Word → Prop where
  | closer {w : Word} : w.kind ∈ closers → Stops power w
  | question : Stops power .question
  | operator {op : BinaryOp} : op.power < power → Stops power op.word

theorem Stops.mono {power' : Nat} (h : Stops power w) (hle : power ≤ power') : Stops power' w := by
  cases h with
  | closer h => exact .closer h
  | question => exact .question
  | operator h => exact .operator (Nat.lt_of_lt_of_le h hle)

/-- The tokens that follow operands. -/
def followers : List TokenKind :=
  [.eof, .rParen, .colon, .question, .questionQuestion, .pipePipe, .ampAmp, .pipe, .amp, .eqEq, .eqEqEq, .bangEq, .bangEqEq, .lt,
    .gt, .ltEq, .gtEq, .plus, .minus, .star, .slash, .percent]

theorem operator_mem_followers (op : BinaryOp) : op.word.kind ∈ followers := by
  cases op <;> decide

theorem Stops.kind_mem (h : Stops power w) : w.kind ∈ followers := by
  cases h with
  | closer h =>
    have hall : ∀ k ∈ closers, k ∈ followers := by decide
    exact hall _ h
  | question => decide
  | operator => exact operator_mem_followers _

theorem binaryOp?_word (op : BinaryOp) : binaryOp? op.word.kind = some (op, op.power) := by
  cases op <;> rfl

/-- An operator that does not bind tightly enough is left alone. -/
theorem Stops.binaryOp? (h : Stops power w) : ∀ found ∈ binaryOp? w.kind, found.2 < power := by
  cases h with
  | closer h =>
    have hall : ∀ k ∈ closers, Parser.binaryOp? k = none := by decide
    rw [hall _ h]
    exact fun _ hfound => absurd hfound (Option.not_mem_none _)
  | question => exact fun _ hfound => absurd hfound (Option.not_mem_none _)
  | operator h =>
    rw [binaryOp?_word]
    intro found hfound
    obtain rfl := Option.some.inj hfound
    exact h

namespace Takes

theorem noArrow {P' : Parse α} (hbefore : NoArrow before) (hlt : kindIn before 0 ≠ .lt) (h : Takes P before after Q) :
    Takes (do if startsArrow (← get).rest then P' else P) before after Q := by
  intro s hs
  have hfalse : startsArrow s.rest = false := by
    apply startsArrow_eq_false
    · intro t ht
      exact hbefore t.word (hs ▸ List.mem_map_of_mem ht)
    · intro t ht
      obtain ⟨rest, hrest⟩ := List.head?_eq_some_iff.mp ht
      rw [← hs, State.words, hrest] at hlt
      exact hlt
  have hrun : (do if startsArrow (← get).rest then P' else P : Parse α) s = (if startsArrow s.rest then P' else P) s := rfl
  rw [hrun, hfalse]
  exact h s hs

/-- A loop that has nothing to do. -/
theorem repeating_done {step : σ → Parse (Step σ)} {acc : σ} (h : Takes (step acc) before before (· = .done acc)) :
    Takes (Parser.repeating step acc) before before (· = acc) := by
  refine repeating fun n hn => ?_
  obtain ⟨n, rfl⟩ := Nat.exists_eq_succ_of_ne_zero (Nat.ne_of_gt (Nat.lt_of_le_of_lt (Nat.zero_le _) hn))
  refine bind h ?_
  rintro _ rfl
  exact pure rfl

theorem postfixStep_done {e : Expr} (hw : w.kind ∈ followers) :
    Takes (postfixStep g start e) (w :: ws) (w :: ws) (· = .done e) := by
  unfold postfixStep
  refine current ?_
  split
  case h_7 => exact pure rfl
  all_goals
    rename_i hkind
    rw [hkind] at hw
    exact absurd hw (by decide)

theorem binaryStep_done (hw : Stops power w) :
    Takes (binaryStep g power start left) (w :: ws) (w :: ws) (· = .done left) := by
  have hidentifier : w.kind ≠ .identifier := fun hkind => absurd (hkind ▸ hw.kind_mem) (by decide)
  have hfound := hw.binaryOp?
  unfold binaryStep
  refine atWord_no (.inl hidentifier) (newlineBefore (no (by simp) (current ?_)))
  split
  next => exact pure rfl
  next op strength heq =>
    exact yes (hfound _ heq) (pure rfl)

theorem binaryStep_more {op : BinaryOp} (hpower : power ≤ op.power) {R : Expr → Prop}
    (h : Takes (g.binary (op.power + 1)) before after R) :
    Takes (binaryStep g power start left) (op.word :: before) after fun next =>
      ∃ e : Expr, (∃ right, e.kind = .binary op left right ∧ R right) ∧ next = .more e := by
  have hidentifier : op.word.kind ≠ .identifier := fun hkind => absurd (hkind ▸ operator_mem_followers op) (by decide)
  have heof : op.word.kind ≠ .eof := by cases op <;> decide
  unfold binaryStep
  refine atWord_no (.inl hidentifier) (newlineBefore (no (by simp) (current ?_)))
  rw [binaryOp?_word]
  refine no (Nat.not_lt.mpr hpower) (advance_bind heof (bind h fun right hright => spanFrom fun span => ?_))
  exact pure ⟨⟨.binary op left right, span⟩, ⟨right, rfl, hright⟩, rfl⟩

/-- The operator takes its right operand, and the loop goes on with both. -/
theorem runSteps_more {step : σ → Parse (Step σ)} {acc : σ} {R : σ → Prop} {Q : σ → Prop} {m : Nat}
    (h : Takes (step acc) before ws fun next => ∃ acc', R acc' ∧ next = .more acc')
    (hrest : ∀ acc', R acc' → Takes (Parser.runSteps step m acc') ws after Q) :
    Takes (Parser.runSteps step (m + 1) acc) before after Q := by
  refine bind h ?_
  rintro _ ⟨acc', hacc, rfl⟩
  exact hrest acc' hacc

end Takes

/-! ## Operands -/

namespace Takes

/-- An operand that begins with no sign. -/
theorem unaryExpr_plain {v : Word} {R : Expr → Prop} (hsign : prefixOp? v.kind = none)
    (hword : v.kind ≠ .identifier ∨ v.text ≠ "await") (hnew : v.kind ≠ .new) (hw : w.kind ∈ followers)
    (h : Takes (primary g) (v :: before) (w :: ws) R) : Takes (unaryExpr g) (v :: before) (w :: ws) R := by
  unfold unaryExpr
  refine currentSpan fun start => current ?_
  rw [hsign]
  refine atWord_no hword (askAny (fun _ => rfl) fun s => no (by simp) ?_)
  unfold postfixExpr
  refine currentSpan fun start => atKind_no hnew (no (by simp) (bind h fun e he => ?_))
  refine (repeating_done (postfixStep_done hw)).mono ?_
  rintro _ rfl
  exact he

theorem unaryExpr_name {name : PlainName} (hw : w.kind ∈ followers) :
    Takes (unaryExpr g) (.named name.text :: w :: ws) (w :: ws) fun e => e.kind = .ident name.text := by
  have hne {k : TokenKind} (hk : .identifier ≠ k) : (Word.named name.text).kind ≠ k := fun h => hk (name.kind_eq.symm.trans h)
  refine unaryExpr_plain (by rw [name.kind_eq]; rfl) (.inr (name.ne_of_mem (by decide))) (hne (by decide)) hw ?_
  unfold primary
  refine currentSpan fun start => eat_no (hne (by decide)) (no (by simp) ?_)
  refine bind (Q := (· = .ident name.text)) ?_ fun kind hk => spanFrom fun span => pure hk
  unfold primaryKind
  refine current ?_
  rw [name.kind_eq]
  exact currentText (advance_bind (hne (by decide)) (pure rfl))

theorem unaryExpr_signed {sign : Sign} {R : Expr → Prop} (h : Takes g.unary before after R) :
    Takes (unaryExpr g) (sign.word :: before) after fun e => ∃ operand, e.kind = .unary sign.op operand ∧ R operand := by
  have hsign : prefixOp? sign.word.kind = some sign.op := by cases sign <;> rfl
  have heof : sign.word.kind ≠ .eof := by cases sign <;> decide
  unfold unaryExpr
  refine currentSpan fun start => current ?_
  rw [hsign]
  exact advance_bind heof (bind h fun operand hoperand => spanFrom fun span => pure ⟨operand, rfl, hoperand⟩)

theorem unaryExpr_enclosed {R : ExprKind → Prop} (hw : w.kind ∈ followers)
    (h : Takes g.expr before (.rParen :: w :: ws) fun e => R e.kind) :
    Takes (unaryExpr g) (.lParen :: before) (w :: ws) fun e => R e.kind := by
  refine unaryExpr_plain rfl (.inl (by decide)) (by decide) hw ?_
  unfold primary
  refine currentSpan fun start => eat_yes rfl (by decide) (yes rfl (bind h fun e he => ?_))
  exact bind (expect rfl (by decide)) fun _ _ => spanFrom fun span => pure he

end Takes

/-! ## Whole expressions -/

namespace Takes

theorem conditionalExpr_plain {R : Expr → Prop} (hquestion : kindIn after 0 ≠ .question) (h : Takes (binaryExpr g 0) before after R) :
    Takes (conditionalExpr g) before after R := by
  unfold conditionalExpr
  refine currentSpan fun start => bind h fun condition hcondition => ?_
  exact eat_no hquestion (no (by simp) (pure hcondition))

theorem conditionalExpr_question {first second : List Word} {C T E : Expr → Prop}
    (hcondition : Takes (binaryExpr g 0) before (.question :: first) C) (hthen : Takes g.expr first (.colon :: second) T)
    (helse : Takes g.expr second after E) :
    Takes (conditionalExpr g) before after fun e => ∃ c t e', e.kind = .conditional c t e' ∧ C c ∧ T t ∧ E e' := by
  unfold conditionalExpr
  refine currentSpan fun start => bind hcondition fun c hc => eat_yes rfl (by decide) (yes rfl ?_)
  refine bind hthen fun t ht => bind (expect rfl (by decide)) fun _ _ => bind helse fun e he => ?_
  exact spanFrom fun span => pure ⟨c, t, e, rfl, hc, ht, he⟩

theorem exprNode {R : Expr → Prop} (hasync : w.kind ≠ .identifier ∨ w.text ≠ "async") (hlt : w.kind ≠ .lt)
    (harrow : NoArrow (w :: before)) (hafter : kindIn after 0 ∈ closers) (h : Takes (conditionalExpr g) (w :: before) after R) :
    Takes (Parser.exprNode g) (w :: before) after R := by
  have hne {k : TokenKind} (hk : k ∉ closers) : kindIn after 0 ≠ k := fun h => hk (h ▸ hafter)
  unfold Parser.exprNode
  refine bind (Q := fun _ => True) ?_ fun _ _ => noArrow harrow hlt ?_
  · unfold skipAsync
    exact askAny (fun _ => rfl) fun s => atWord_no hasync (no (by simp) (pure trivial))
  · refine currentSpan fun start => bind h fun target htarget => ?_
    exact atKind_no (hne (by decide)) (atKind_no (hne (by decide)) (no (by simp) (pure htarget)))

end Takes

/-! ## Formulas -/

variable {f condition thenValue elseValue operand right : Formula}

theorem ofDepth_expr (n : Nat) : (Grammar.ofDepth (n + 1)).expr = exprNode (.ofDepth n) := by rw [Grammar.ofDepth]

theorem ofDepth_binary (n : Nat) : (Grammar.ofDepth (n + 1)).binary = binaryExpr (.ofDepth n) := by rw [Grammar.ofDepth]

theorem ofDepth_unary (n : Nat) : (Grammar.ofDepth (n + 1)).unary = unaryExpr (.ofDepth n) := by rw [Grammar.ofDepth]

theorem noArrow_words (f : Formula) : NoArrow f.words := by
  apply Formula.forall_words
  · intro n hkind
    exact absurd (n.kind_eq.symm.trans hkind) (by decide)
  · intro sign
    cases sign <;> decide
  · intro op
    cases op <;> decide
  · decide

theorem wordsAt_of_le (h : need ≤ f.power) : f.wordsAt need = f.words := by
  rw [Formula.wordsAt, decide_eq_false (Nat.not_lt.mpr h)]
  rfl

theorem wordsAt_of_lt (h : f.power < need) : f.wordsAt need = .lParen :: (f.words ++ [.rParen]) := by
  rw [Formula.wordsAt, decide_eq_true h]
  rfl

theorem noArrow_wordsAt (f : Formula) (need : Nat) : NoArrow (f.wordsAt need) := by
  intro w hw
  rcases Word.mem_enclosed hw with hw | rfl | rfl
  · exact noArrow_words f w hw
  · decide
  · decide

/-- The words begin neither as an arrow function that is taken for granted nor with a word that is skipped. -/
def Begins (words : List Word) : Prop :=
  ∃ v rest, words = v :: rest ∧ v.kind ≠ .lt ∧ (v.kind ≠ .identifier ∨ v.text ≠ "async")

theorem Begins.append {words : List Word} (h : Begins words) (tail : List Word) : Begins (words ++ tail) := by
  obtain ⟨v, rest, rfl, hv⟩ := h
  exact ⟨v, rest ++ tail, rfl, hv⟩

theorem Begins.enclosed {words : List Word} (h : Begins words) (inParens : Bool) : Begins (Word.enclosed inParens words) := by
  cases inParens with
  | false => exact h
  | true => exact ⟨.lParen, _, rfl, by decide, .inl (by decide)⟩

/-- A formula begins with a sign, a parenthesis or a name. -/
theorem begins_words (f : Formula) : Begins f.words := by
  induction f with
  | name n =>
    refine ⟨.named n.text, [], rfl, ?_, .inr (n.ne_of_mem (by decide))⟩
    intro hkind
    exact absurd (n.kind_eq.symm.trans hkind) (by decide)
  | signed sign operand _ =>
    refine ⟨sign.word, _, rfl, ?_, .inl ?_⟩ <;> cases sign <;> decide
  | binary op left right ihleft _ => exact (ihleft.enclosed _).append _
  | conditional condition thenValue elseValue ihcondition _ _ => exact (ihcondition.enclosed _).append _

/-- Enough levels of the grammar read the formula as an expression. -/
def ReadsExpr (f : Formula) : Prop := ∀ n w ws, f.words.length ≤ n → w.kind ∈ closers → NoArrow (w :: ws) →
  Takes (exprNode (.ofDepth n)) (f.words ++ w :: ws) (w :: ws) fun e => f.Matches e.kind

/-- The formula is read as one operand, where it has to be held together so tightly. -/
def ReadsOperand (n need : Nat) (f : Formula) : Prop := ∀ w ws, w.kind ∈ followers → NoArrow (w :: ws) →
  Takes (unaryExpr (.ofDepth n)) (f.wordsAt need ++ w :: ws) (w :: ws) fun e => f.Matches e.kind

/-- The loop over operators that bind at least so tightly goes on with the formula in hand, when it begins in front of it. -/
def Leads (n power need : Nat) (f : Formula) : Prop :=
  ∀ (start : Span) (w : Word) (ws after : List Word) (Q : Expr → Prop), Stops (need + 1) w → NoArrow (w :: ws) →
    (∀ m e, (w :: ws).length < m → f.Matches e.kind →
      Takes (runSteps (binaryStep (.ofDepth n) power start) m e) (w :: ws) after Q) →
    Takes (do repeating (binaryStep (.ofDepth n) power start) (← unaryExpr (.ofDepth n))) (f.wordsAt need ++ w :: ws) after Q

namespace Leads

/-- The loop begins behind an operand. -/
theorem of_operand (h : ReadsOperand n need f) : Leads n power need f := by
  intro start w ws after Q hw harrow hbehind
  refine .bind (h w ws hw.kind_mem harrow) fun e he => ?_
  exact .repeating fun m hm => hbehind m e hm he

/-- In front of what it leaves alone the loop ends with the formula. -/
theorem binaryExpr (h : Leads n power need f) (hle : power ≤ need + 1) (hw : Stops power w) (harrow : NoArrow (w :: ws)) :
    Takes (binaryExpr (.ofDepth n) power) (f.wordsAt need ++ w :: ws) (w :: ws) fun e => f.Matches e.kind := by
  unfold Parser.binaryExpr
  refine .currentSpan fun start => h start w ws _ _ (hw.mono hle) harrow fun m e hm he => ?_
  obtain ⟨m, rfl⟩ := Nat.exists_eq_succ_of_ne_zero (Nat.ne_of_gt (Nat.lt_of_le_of_lt (Nat.zero_le _) hm))
  refine .bind (Takes.binaryStep_done hw) ?_
  rintro _ rfl
  exact .pure he

/-- Behind its left operand the loop takes the operator with the right one. -/
theorem binary {op : BinaryOp} {left : Formula} (hleft : Leads n power op.power left)
    (hright : ∀ w ws, Stops (op.power + 1) w → NoArrow (w :: ws) →
      Takes ((Grammar.ofDepth n).binary (op.power + 1)) (right.wordsAt (op.power + 1) ++ w :: ws) (w :: ws) fun e =>
        right.Matches e.kind)
    (hpower : power ≤ need) (hneed : need ≤ op.power) : Leads n power need (.binary op left right) := by
  intro start w ws after Q hw harrow hbehind
  have hwords : (Formula.binary op left right).wordsAt need ++ w :: ws =
      left.wordsAt op.power ++ op.word :: (right.wordsAt (op.power + 1) ++ w :: ws) := by
    rw [wordsAt_of_le hneed, Formula.words]
    simp [Formula.wordsAt]
  have harrow' : NoArrow (op.word :: (right.wordsAt (op.power + 1) ++ w :: ws)) := by
    refine List.forall_mem_cons.mpr ⟨?_, List.forall_mem_append.mpr ⟨noArrow_wordsAt _ _, harrow⟩⟩
    cases op <;> decide
  rw [hwords]
  refine hleft start op.word _ after Q (.operator (Nat.lt_succ_self _)) harrow' fun m l hm hl => ?_
  obtain ⟨m, rfl⟩ := Nat.exists_eq_succ_of_ne_zero (Nat.ne_of_gt (Nat.lt_of_le_of_lt (Nat.zero_le _) hm))
  have hstops := hw.mono (Nat.succ_le_succ hneed)
  refine .runSteps_more (Takes.binaryStep_more (Nat.le_trans hpower hneed) (hright w ws hstops harrow)) ?_
  rintro e ⟨r, hkind, hr⟩
  apply hbehind m e
  · rw [List.length_cons, List.length_append] at hm
    omega
  · exact ⟨l, r, hkind, hl, hr⟩

end Leads

/-- What is shown of each formula: enough levels of the grammar read it as a whole, as the beginning of a loop, and as the operand
of a sign. -/
structure Readable (f : Formula) : Prop where
  whole : ReadsExpr f
  leads : ∀ n power need, (f.wordsAt need).length ≤ n → power ≤ need → 1 ≤ need → Leads n power need f
  operand : ∀ n, (f.wordsAt Sign.power).length ≤ n → ReadsOperand n Sign.power f

namespace Readable

/-- Parentheses make an operand of a formula. -/
theorem enclosed (h : ReadsExpr f) (hpower : f.power < need) (hn : (f.wordsAt need).length ≤ n) : ReadsOperand n need f := by
  intro w ws hw harrow
  rw [wordsAt_of_lt hpower] at hn ⊢
  rw [List.length_cons, List.length_append] at hn
  obtain ⟨n, rfl⟩ : ∃ m, n = m + 1 := Nat.exists_eq_succ_of_ne_zero (by omega)
  rw [List.cons_append, List.append_assoc]
  apply Takes.unaryExpr_enclosed hw
  rw [ofDepth_expr]
  apply h n .rParen (w :: ws) (by omega) (by decide)
  exact List.forall_mem_cons.mpr ⟨by decide, harrow⟩

/-- Where a formula has to be held together more tightly than it is, its parentheses are read. -/
theorem of_whole (hwhole : ReadsExpr f)
    (hleads : ∀ n power need, f.words.length ≤ n → power ≤ need → 1 ≤ need → need ≤ f.power → Leads n power need f)
    (hoperand : ∀ n, f.words.length ≤ n → Sign.power ≤ f.power → ReadsOperand n Sign.power f) : Readable f := by
  refine ⟨hwhole, ?_, ?_⟩
  · intro n power need hn hpower hneed
    by_cases hlow : f.power < need
    · exact .of_operand (enclosed hwhole hlow hn)
    · rw [wordsAt_of_le (Nat.not_lt.mp hlow)] at hn
      exact hleads n power need hn hpower hneed (Nat.not_lt.mp hlow)
  · intro n hn
    by_cases hlow : f.power < Sign.power
    · exact enclosed hwhole hlow hn
    · rw [wordsAt_of_le (Nat.not_lt.mp hlow)] at hn
      exact hoperand n hn (Nat.not_lt.mp hlow)

theorem expr_of_conditional (hw : w.kind ∈ closers) (harrow : NoArrow (w :: ws))
    (h : Takes (conditionalExpr g) (f.words ++ w :: ws) (w :: ws) fun e => f.Matches e.kind) :
    Takes (exprNode g) (f.words ++ w :: ws) (w :: ws) fun e => f.Matches e.kind := by
  have hall : NoArrow (f.words ++ w :: ws) := List.forall_mem_append.mpr ⟨noArrow_words f, harrow⟩
  obtain ⟨v, rest, hwords, hlt, hasync⟩ := (begins_words f).append (w :: ws)
  rw [hwords] at h hall ⊢
  exact .exprNode hasync hlt hall hw h

/-- A loop that begins right away reads the whole formula. -/
theorem whole_of_leads (hpos : 1 ≤ f.power) (h : ∀ n, f.words.length ≤ n → Leads n 0 1 f) : ReadsExpr f := by
  intro n w ws hn hw harrow
  have hquestion : w.kind ≠ .question := fun h => absurd (h ▸ hw) (by decide)
  have hread := (h n hn).binaryExpr (by decide) (.closer hw) harrow
  rw [wordsAt_of_le hpos] at hread
  exact expr_of_conditional hw harrow (.conditionalExpr_plain hquestion hread)

theorem of_operand (hpower : f.power = Sign.power)
    (h : ∀ n w ws, f.words.length ≤ n → w.kind ∈ followers → NoArrow (w :: ws) →
      Takes (unaryExpr (.ofDepth n)) (f.words ++ w :: ws) (w :: ws) fun e => f.Matches e.kind) : Readable f := by
  have hoperand {n need : Nat} (hn : f.words.length ≤ n) (hneed : need ≤ f.power) : ReadsOperand n need f := by
    intro w ws
    rw [wordsAt_of_le hneed]
    exact h n w ws hn
  have hpos : 1 ≤ f.power := by rw [hpower]; decide
  apply of_whole
  · exact whole_of_leads hpos fun n hn => .of_operand (hoperand hn hpos)
  · exact fun n power need hn _ _ hneed => .of_operand (hoperand hn hneed)
  · exact fun n hn hneed => hoperand hn hneed

theorem name (n : PlainName) : Readable (.name n) :=
  of_operand rfl fun _ _ _ _ hw _ => Takes.unaryExpr_name hw

theorem signed (h : Readable operand) (sign : Sign) : Readable (.signed sign operand) := by
  apply of_operand rfl
  intro n w ws hn hw harrow
  have hwords : (Formula.signed sign operand).words = sign.word :: operand.wordsAt Sign.power := rfl
  rw [hwords, List.length_cons] at hn
  obtain ⟨n, rfl⟩ : ∃ m, n = m + 1 := Nat.exists_eq_succ_of_ne_zero (by omega)
  rw [hwords, List.cons_append]
  apply Takes.unaryExpr_signed
  rw [ofDepth_unary]
  exact h.operand n (by omega) w ws hw harrow

theorem binary {left : Formula} (hleft : Readable left) (hright : Readable right) (op : BinaryOp) :
    Readable (.binary op left right) := by
  have hpower : 1 ≤ op.power ∧ op.power < Sign.power := by cases op <;> decide
  have hleads : ∀ n power need, (Formula.binary op left right).words.length ≤ n → power ≤ need → need ≤ op.power →
      Leads n power need (.binary op left right) := by
    intro n power need hn hle hneed
    have hwords : (Formula.binary op left right).words = left.wordsAt op.power ++ op.word :: right.wordsAt (op.power + 1) := rfl
    rw [hwords, List.length_append, List.length_cons] at hn
    obtain ⟨n, rfl⟩ : ∃ m, n = m + 1 := Nat.exists_eq_succ_of_ne_zero (by omega)
    have hbefore := hleft.leads (n + 1) power op.power (by omega) (Nat.le_trans hle hneed) hpower.1
    refine hbefore.binary ?_ hle hneed
    intro w ws hw harrow
    have hbehind := hright.leads n (op.power + 1) (op.power + 1) (by omega) (Nat.le_refl _) (Nat.succ_pos _)
    rw [ofDepth_binary]
    exact hbehind.binaryExpr (Nat.le_succ _) hw harrow
  apply of_whole
  · exact whole_of_leads hpower.1 fun n hn => hleads n 0 1 hn (by decide) hpower.1
  · exact fun n power need hn hle _ hneed => hleads n power need hn hle hneed
  · intro n _ hneed
    have hneed : Sign.power ≤ op.power := hneed
    omega

theorem conditional (hcondition : Readable condition) (hthen : Readable thenValue) (helse : Readable elseValue) :
    Readable (.conditional condition thenValue elseValue) := by
  apply of_whole
  · intro n w ws hn hw harrow
    apply expr_of_conditional hw harrow
    have hwords : (Formula.conditional condition thenValue elseValue).words =
        condition.wordsAt 1 ++ .question :: (thenValue.words ++ .colon :: elseValue.words) := rfl
    rw [hwords, List.length_append, List.length_cons, List.length_append, List.length_cons] at hn
    obtain ⟨n, rfl⟩ : ∃ m, n = m + 1 := Nat.exists_eq_succ_of_ne_zero (by omega)
    have hcolon : NoArrow (.colon :: (elseValue.words ++ w :: ws)) :=
      List.forall_mem_cons.mpr ⟨by decide, List.forall_mem_append.mpr ⟨noArrow_words elseValue, harrow⟩⟩
    have hquestion : NoArrow (.question :: (thenValue.words ++ .colon :: (elseValue.words ++ w :: ws))) :=
      List.forall_mem_cons.mpr ⟨by decide, List.forall_mem_append.mpr ⟨noArrow_words thenValue, hcolon⟩⟩
    have hfirst := (hcondition.leads (n + 1) 0 1 (by omega) (by decide) (Nat.le_refl 1)).binaryExpr (by decide) .question hquestion
    have hsecond := hthen.whole n .colon (elseValue.words ++ w :: ws) (by omega) (by decide) hcolon
    have hthird := helse.whole n w ws (by omega) hw harrow
    rw [← ofDepth_expr] at hsecond hthird
    rw [hwords, List.append_assoc, List.cons_append, List.append_assoc, List.cons_append]
    exact .conditionalExpr_question hfirst hsecond hthird
  · intro n power need _ _ hneed hlow
    have hlow : need ≤ 0 := hlow
    omega
  · intro n _ hlow
    exact absurd hlow (Nat.not_succ_le_zero _)

end Readable

theorem readable (f : Formula) : Readable f := by
  induction f with
  | name n => exact .name n
  | signed sign operand ih => exact ih.signed sign
  | binary op left right ihleft ihright => exact ihleft.binary ihright op
  | conditional condition thenValue elseValue ihcondition ihthen ihelse => exact ihcondition.conditional ihthen ihelse

end Recheck.Syntax.Parser

/-! ## Texts -/

namespace Recheck.Syntax

open Recheck.Syntax.Parser

/-- Reads an expression at the beginning of a text, with one level of the grammar for each token. -/
def readExpr (text : String) : Expr × State :=
  (Grammar.ofDepth ((lex text).tokens.length + 1)).expr (.ofTokens (lex text).tokens)

/-- The text of a formula is read without faults up to its end, and apart from spans what is read is that very formula. -/
theorem Formula.read_as_written (f : Formula) :
    (lex f.text).reports = [] ∧ (readExpr f.text).2.reports = [] ∧ (readExpr f.text).2.rest.map (·.kind) = [.eof] ∧
      f.Matches (readExpr f.text).1.kind := by
  obtain ⟨hwords, hlex⟩ := f.lex_text
  have hlength : f.words.length ≤ (lex f.text).tokens.length := by
    have := congrArg List.length hwords
    rw [List.length_map, List.length_append] at this
    omega
  have hread : Takes (Grammar.ofDepth ((lex f.text).tokens.length + 1)).expr (f.words ++ [.last]) [.last] fun e =>
      f.Matches e.kind := by
    rw [ofDepth_expr]
    exact (readable f).whole _ .last [] hlength (by decide) (List.forall_mem_singleton.mpr (by decide))
  obtain ⟨hrest, hreports, hmatches⟩ := hread (.ofTokens (lex f.text).tokens) hwords
  rw [← readExpr] at hrest hreports hmatches
  have hkinds := congrArg (List.map Word.kind) hrest
  rw [State.words, List.map_map] at hkinds
  exact ⟨hlex, hreports, hkinds, hmatches⟩

end Recheck.Syntax
