import Recheck.Proofs.Syntax.Kept.Exprs

/-!
# Types that are kept in statements

The span of a statement is put together at the end, so what is said of a statement is said of its parts.
-/

set_option autoImplicit false

namespace Recheck.Syntax

open Recheck.Syntax.Parser

variable {T : List Token} {i j k m : Nat}

/-- The types of a statement are read between two tokens. -/
def LaidStatement (T : List Token) (i j : Nat) (s : Statement) : Prop := LaidParts T i j (Piece.ofStatement s)

namespace LaidStatement

variable {s : Statement}

theorem laid (h : LaidStatement T i j s) : Laid T i j (Piece.statement s).types := Laid.node (p := .statement s) h rfl

theorem stretch (h : LaidStatement T i j s) (hs : Stretchable s) (start : Span) : LaidStatement T i j (s.stretch start) := by
  have hsame : Piece.ofStatement (s.stretch start) = Piece.ofStatement s := (hs _).1
  rwa [LaidStatement, hsame]

theorem mono {i' j' : Nat} (hi : i' ≤ i) (hj : j ≤ j') (h : LaidStatement T i j s) : LaidStatement T i' j' s :=
  LaidParts.mono hi hj h

/-- A statement without types. -/
theorem bare (h : ∀ p ∈ Piece.ofStatement s, p.types = []) : LaidStatement T i j s := LaidParts.of_bare h

end LaidStatement

namespace Piece

theorem types_ofStatement_importDecl (d : ImportDecl) : ∀ p ∈ ofStatement (.importDecl d), p.types = [] := by
  intro p hp
  simp only [ofStatement, ofImport, List.mem_append, List.mem_map, List.mem_flatMap, List.mem_cons, List.not_mem_nil] at hp
  grind [types_ident, types_literal]

theorem types_ofStatement_importEquals (d : ImportEquals) : ∀ p ∈ ofStatement (.importEquals d), p.types = [] := by
  simp [ofStatement]

theorem types_ofModuleName (name : ModuleName) : (ofModuleName name).types = [] := by cases name <;> rfl

/-- A list of exports has no types. -/
theorem types_ofExportKind_named (specifiers : List ExportSpecifier) (source : Option StringLiteral) :
    ∀ p ∈ ofExportKind (.named specifiers source), p.types = [] := by
  intro p hp
  simp only [ofExportKind, ofExport, List.mem_append, List.mem_map, List.mem_flatMap, List.mem_cons] at hp
  grind [types_ident, types_literal]

theorem types_ofExportKind_star (newName : Option Ident) (source : StringLiteral) :
    ∀ p ∈ ofExportKind (.star newName source), p.types = [] := by
  intro p hp
  simp only [ofExportKind, List.mem_append, List.mem_map, List.mem_singleton] at hp
  grind [types_ident, types_literal]

end Piece

namespace Parser

variable {g : Grammar}

namespace Builds

/-! ## Imports and exports -/

theorem importStatement_laid (exported : Bool) (hkind : kindOf T i = .import) :
    Builds T 0 (Parser.importStatement exported) i fun s j => LaidStatement T i j s := by
  unfold Parser.importStatement
  refine currentSpan (advance_bind (by rw [hkind]; decide) (read Reads.atTypeImport fun typeOnly k _ hk => ?_))
  obtain ⟨rfl, htype⟩ := hk
  extract_lets finish rest
  have declared (d : ImportDecl) (j : Nat) : LaidStatement T i j (.importDecl d) := .bare (Piece.types_ofStatement_importDecl d)
  have hfinish (default star : Option Ident) (named : List ImportSpecifier) (n : Nat) :
      Builds T 0 (finish default star named) n fun s j => LaidStatement T i j s :=
    seq (fromSource (f := 0)) fun source m _ => seq expectSemicolon fun _ j _ => spanFrom_any fun s => pure (declared _ _)
  have hrest (n : Nat) : Builds T 0 (rest ⟨⟩) n fun s j => LaidStatement T i j s := by
    refine atKind ?_
    split
    · exact seq (expectString (f := 0)) fun source m _ => seq expectSemicolon fun _ j _ => spanFrom_any fun s => pure (declared _ _)
    · refine atKind ?_
      split
      · rename_i hident
        refine seq (takeIdent (f := 0) (by rw [of_decide_eq_true hident]; decide)) fun name m _ => ?_
        refine eat (by decide) (fun _ => ?_) fun _ => eat (by decide) (fun _ => ?_) fun _ => hfinish _ _ _ _
        · refine seq (requireCall (f := 0)) fun source k _ => seq expectSemicolon fun _ j _ => spanFrom_any fun s => pure ?_
          exact .bare (Piece.types_ofStatement_importEquals _)
        · exact seq (importNames (f := 0)) fun names k _ => hfinish _ _ _ k
      · exact seq (importNames (f := 0)) fun names k _ => hfinish _ _ _ k
  split
  · rename_i h
    exact advance_bind (by rw [htype h]; decide) (hrest _)
  · exact hrest _

theorem exportList_laid : Builds T 0 Parser.exportList i fun kind j => LaidParts T i j (Piece.ofExportKind kind) := by
  unfold Parser.exportList
  refine seq (expect (f := 0) (by decide)) fun _ k hik => ?_
  refine seq (commaList (fun _ => exportSpecifier (f := 0)) (grows_parts _)) fun specifiers m hkm => ?_
  refine seq (expect (f := 0) (by decide)) fun _ n hmn => ?_
  refine eatWord (seq (expectString (f := 0)) fun source j hnj => pure ?_) (pure ?_)
  · exact .of_bare (Piece.types_ofExportKind_named _ _)
  · exact .of_bare (Piece.types_ofExportKind_named _ _)

theorem exportStar_laid (hkind : kindOf T i = .star) :
    Builds T 0 Parser.exportStar i fun kind j => LaidParts T i j (Piece.ofExportKind kind) := by
  unfold Parser.exportStar
  refine advance_bind (by rw [hkind]; decide) ?_
  extract_lets finish
  have tail (newName : Option Ident) (k : Nat) :
      Builds T 0 (finish newName) k fun kind j => LaidParts T i j (Piece.ofExportKind kind) :=
    seq (fromSource (f := 0)) fun source j _ => pure (.of_bare (Piece.types_ofExportKind_star _ _))
  exact eatWord (seq (expectPropertyName (f := 0)) fun newName k _ => tail (some newName) k) (tail none _)

section

variable (hg : Lays T g) (hT : Identifiers T)
include hg

/-! ## Declarations -/

theorem declarator_laid : Builds T 0 (Parser.declarator g) i fun d j => Laid T i j (Piece.declarator d).types := by
  unfold Parser.declarator
  refine currentSpan (seq (expectIdent (f := 0)) fun name k hik => skip (eat_any (f := 0) (by decide)) fun m hkm => ?_)
  refine bind (typeAfter_laid hg (by decide)) fun type n hmn => bind (exprAfter_laid hg (by decide)) fun init j hnj => ?_
  refine spanFrom_any fun s => pure fun hinit htype => ?_
  refine .node (.bare rfl (.append (k := n) (.option fun t ht => ?_) (.option hinit) (by omega) hnj)) rfl
  rw [Piece.types_type]
  exact .mono (by omega) (Nat.le_refl n) (htype t ht).laid

theorem variableStatement_laid (modifiers : Modifiers) (hkind : kindOf T i ≠ .eof) :
    Builds T 0 (Parser.variableStatement g modifiers) i fun d j => LaidStatement T i j (.variableDecl d) := by
  unfold Parser.variableStatement
  refine currentSpan (current ?_)
  extract_lets kind
  refine advance_bind hkind (bind (declarator_laid hg) fun first k hik => ?_)
  refine bind (separated_laid (by decide) _ hik fun _ => declarator_laid hg) fun decls m hkm => ?_
  refine seq expectSemicolon fun _ j hmj => spanFrom_any fun s => pure fun hdecls hfirst => ?_
  exact LaidParts.bare rfl (.mono (Nat.le_succ i) hmj (hdecls hfirst))

theorem functionDecl_laid (modifiers : Modifiers) :
    Builds T 0 (Parser.functionDecl g modifiers) i fun d j => LaidStatement T i j (.function d) := by
  unfold Parser.functionDecl
  refine currentSpan (seq (expect (f := 0) (by decide)) fun _ k₁ h₁ => skip (eat_any (f := 0) (by decide)) fun k₂ h₂ => ?_)
  refine seq (functionName (f := 0) modifiers) fun name k₃ h₃ => seq (typeParams hg.toNests) fun names k₄ h₄ => ?_
  refine bind (params_laid hg) fun ps m h₅ => bind (typeAfter_laid hg (by decide)) fun ret n hmn => atKind ?_
  extract_lets finish
  have tail (body : Option Block) (j : Nat) (hnj : n ≤ j) : Builds T 0 (finish body) j fun d j' =>
      (∀ b ∈ body, Laid T n j (Piece.block b).types) → (∀ t ∈ ret, Whole T (m + 1) n t) →
        (k₄ < m ∧ LaidParts T (k₄ + 1) m (ps.map .param)) → LaidStatement T i j' (.function d) := by
    refine spanFrom_any fun s => pure fun hbody hret hps => ?_
    have hhead : LaidParts T i k₄ (name.toList.map .ident ++ names.map .ident) := by
      rw [← List.map_append]
      exact .idents _
    refine .append (k := n) (.append (k := m) (.append hhead (.mono (Nat.le_succ k₄) (Nat.le_refl m) hps.2) (by omega) h₅)
      (.option fun t ht => ?_) (by omega) hmn) (.option hbody) (by omega) hnj
    rw [Piece.types_type]
    exact .mono (Nat.le_succ m) (Nat.le_refl n) (hret t ht).laid
  split
  · refine bind (block_laid hg) fun body j hnj => (tail (some body) j hnj).mono fun d j' _ h hbody => h ?_
    rintro _ ⟨⟩
    exact hbody
  · exact seq expectSemicolon fun _ j hnj => (tail none j hnj).mono fun d j' _ h => h nofun

theorem interfaceDecl_laid (modifiers : Modifiers) :
    Builds T 0 (Parser.interfaceDecl g modifiers) i fun d j => LaidStatement T i j (.interface d) := by
  unfold Parser.interfaceDecl
  refine currentSpan (seq (expect (f := 0) (by decide)) fun _ k₁ h₁ => seq (expectIdent (f := 0)) fun name k₂ h₂ => ?_)
  refine seq (typeParams hg.toNests) fun names k₃ h₃ => ?_
  extract_lets finish
  have tail (bases : List TypeNode) (m : Nat) (hm : k₃ ≤ m) : Builds T 0 (finish bases) m fun d j =>
      LaidParts T k₃ m (bases.map .type) → LaidStatement T i j (.interface d) := by
    refine bind (typeMembers_laid hg) fun members j hmj => spanFrom_any fun s => pure fun hmembers hbases => ?_
    exact LaidParts.append (.append (.bare rfl (.idents names)) hbases (by omega) hm) hmembers.2 (by omega) hmj
  have base (k : Nat) : Builds T 0 (Parser.typeNode g) k fun t j => Laid T k j (Piece.type t).types :=
    (typeNode_laid hg).mono fun t j _ h => by rw [Piece.types_type]; exact h.laid
  refine eatWord ?_ ((tail [] k₃ (Nat.le_refl k₃)).mono fun d j _ h => h .nil)
  refine bind (base _) fun first n hn => ?_
  refine bind (separated_laid (by decide) _ hn base) fun bases m hnm => ?_
  refine (tail bases m (by omega)).mono fun d j _ h hbases hfirst => h ?_
  exact .mono (Nat.le_succ k₃) (Nat.le_refl m) (hbases hfirst)

theorem typeAlias_laid (modifiers : Modifiers) (hkind : kindOf T i ≠ .eof) :
    Builds T 0 (Parser.typeAlias g modifiers) i fun d j => LaidStatement T i j (.typeAlias d) := by
  unfold Parser.typeAlias
  refine currentSpan (advance_bind hkind (seq (expectIdent (f := 0)) fun name k hik => seq (typeParams hg.toNests) fun names m hkm => ?_))
  refine seq (expect (f := 0) (by decide)) fun _ n hmn => bind (typeNode_laid hg) fun type k' hk' => ?_
  refine seq expectSemicolon fun _ j hj => spanFrom_any fun s => pure fun htype => ?_
  refine LaidParts.append (k := n) (.bare rfl (.idents names)) (.single ?_) (by omega) (by omega)
  rw [Piece.types_type]
  exact .mono (Nat.le_refl n) hj htype.laid

theorem moduleDecl_laid (modifiers : Modifiers) (hkind : kindOf T i = .identifier) :
    Builds T 0 (Parser.moduleDecl g modifiers) i fun d j => LaidStatement T i j (.moduleDecl d) := by
  unfold Parser.moduleDecl
  refine currentSpan (seq (moduleName (f := 0) hkind) fun name k hik => ?_)
  extract_lets finish
  have tail (body : Option (List Statement)) (j : Nat) : Builds T 0 (finish body) j fun d j' =>
      LaidParts T i j ((body.getD []).map .statement) → LaidStatement T i j' (.moduleDecl d) := by
    refine here fun _ _ => spanFrom_any fun s => pure fun hbody => ?_
    exact LaidParts.bare (Piece.types_ofModuleName name) hbody
  refine eat (by decide) (fun _ => ?_) fun _ => ?_
  · refine bind (statementList_laid hg) fun body j hkj => (tail (some body) j).mono fun d j' _ h hbody => h ?_
    exact .mono (by omega) (Nat.le_refl j) hbody
  · exact seq expectSemicolon fun _ j hkj => (tail none j).mono fun d j' _ h => h .nil

theorem declaration_laid (modifiers : Modifiers) {i₀ : Nat} :
    Builds T 0 (Parser.declaration g modifiers (spanOf T i₀)) i fun s j => LaidStatement T i j s := by
  unfold Parser.declaration
  extract_lets failed
  have hfailed (k : Nat) : Builds T 0 failed k fun s j => LaidStatement T i j s :=
    report_bind (read Reads.recoverStatement fun _ j _ _ => spanFrom_any fun s => pure fun hf => absurd rfl hf)
  refine read (Reads.eatWord_any _) fun declared k hik _ => ?_
  extract_lets modifiers
  have stretched {α : Type} {p : Parse α} {make : α → Statement} (hmake : ∀ d, Stretchable (make d))
      (h : Builds T 0 p k fun d j => LaidStatement T k j (make d)) :
      Builds T 0 (p >>= fun d => Pure.pure ((make d).stretch (spanOf T i₀))) k fun s j => LaidStatement T i j s :=
    bind h fun d j _ => pure fun hd => .mono hik (Nat.le_refl j) (hd.stretch (hmake d) _)
  refine current ?_
  split <;> rename_i hkind
  · exact stretched (fun _ _ => ⟨rfl, rfl⟩) (variableStatement_laid hg _ (by rw [hkind]; decide))
  · exact stretched (fun _ _ => ⟨rfl, rfl⟩) (variableStatement_laid hg _ (by rw [hkind]; decide))
  · exact stretched (fun _ _ => ⟨rfl, rfl⟩) (variableStatement_laid hg _ (by rw [hkind]; decide))
  · exact stretched (fun _ _ => ⟨rfl, rfl⟩) (functionDecl_laid hg _)
  · exact stretched (fun _ _ => ⟨rfl, rfl⟩) (interfaceDecl_laid hg _)
  · refine currentText ?_
    split
    · exact stretched (fun _ _ => ⟨rfl, rfl⟩) (typeAlias_laid hg _ (by rw [hkind]; decide))
    · split
      · exact stretched (fun _ _ => ⟨rfl, rfl⟩) (moduleDecl_laid hg _ hkind)
      · exact hfailed k
  · exact hfailed k

include hT

theorem exportStatement_laid (hkind : kindOf T i = .export) :
    Builds T 0 (Parser.exportStatement g) i fun s j => LaidStatement T i j s := by
  unfold Parser.exportStatement
  refine currentSpan (advance_bind (by rw [hkind]; decide) ?_)
  extract_lets finish
  have hfinish (kind : ExportKind) (k : Nat) : Builds T 0 (finish kind) k fun s j =>
      LaidParts T (i + 1) k (Piece.ofExportKind kind) → LaidStatement T i j s :=
    seq expectSemicolon fun _ j hkj => spanFrom_any fun s => pure fun h => LaidParts.mono (Nat.le_succ i) hkj h
  have hparts {p : Parse ExportKind} {k : Nat} (hik : i < k)
      (h : Builds T 0 p k fun kind j => LaidParts T k j (Piece.ofExportKind kind)) :
      Builds T 0 (p >>= finish) k fun s j => LaidStatement T i j s :=
    bind h fun kind m hkm => (hfinish kind m).mono fun s j _ h hkind => h (.mono hik (Nat.le_refl m) hkind)
  have hvalue (make : Expr → ExportKind) (hmake : ∀ e, Piece.ofExportKind (make e) = [.expr e]) (k : Nat) (hik : i < k) :
      Builds T 0 (Parser.exprNode g >>= fun e => finish (make e)) k fun s j => LaidStatement T i j s := by
    refine bind (exprNode_laid hg hT) fun e m hkm => (hfinish (make e) m).mono fun s j _ h he => h ?_
    rw [hmake]
    exact .single (.mono hik (Nat.le_refl m) he)
  refine current ?_
  split <;> rename_i hnext
  · exact hparts (Nat.lt_succ_self i) (exportStar_laid hnext)
  · exact hparts (Nat.lt_succ_self i) exportList_laid
  · exact advance_bind (by rw [hnext]; decide) (hvalue .assignment (fun _ => rfl) _ (by omega))
  · refine advance_bind (by rw [hnext]; decide) (current ?_)
    split
    · refine bind (functionDecl_laid hg _) fun d j hij => spanFrom_any fun s => pure fun h => ?_
      exact LaidParts.mono (by omega) (Nat.le_refl j) h
    · refine bind (interfaceDecl_laid hg _) fun d j hij => spanFrom_any fun s => pure fun h => ?_
      exact LaidParts.mono (by omega) (Nat.le_refl j) h
    · exact hvalue .default (fun _ => rfl) _ (by omega)
  · refine bind ((importStatement_laid true hnext).and (importStatement (f := 0) true hnext)) fun s j _ => pure fun h => ?_
    exact .mono (Nat.le_succ i) (Nat.le_refl j) (h.1.stretch h.2.2 _)
  · refine atWord fun b hb => kindAt ?_
    split
    · rename_i htype
      have hword : kindOf T (i + 1) = .identifier := hb (Bool.and_eq_true_iff.mp htype).1
      exact advance_bind (by rw [hword]; decide) (hparts (by omega) exportList_laid)
    · exact (declaration_laid hg _).mono fun s j _ h => .mono (Nat.le_succ i) (Nat.le_refl j) h

/-! ## Statements -/

theorem ifStatement_laid (hkind : kindOf T i ≠ .eof) :
    Builds T 0 (Parser.ifStatement g) i fun d j => LaidStatement T i j (.ifElse d) := by
  unfold Parser.ifStatement
  refine currentSpan (advance_bind hkind (seq (expect (f := 0) (by decide)) fun _ k hik => ?_))
  refine bind (exprNode_laid hg hT) fun condition m hkm => seq (expect (f := 0) (by decide)) fun _ n hmn => ?_
  refine bind (hg.laidStatement n) fun thenBranch n' hn' => ?_
  extract_lets finish
  have tail (elseBranch : Option Statement) (j : Nat) (hj : n' ≤ j) : Builds T 0 (finish elseBranch) j fun d j' =>
      (∀ s ∈ elseBranch, Laid T n' j (Piece.statement s).types) → Laid T n n' (Piece.statement thenBranch).types →
        Laid T k m (Piece.expr condition).types → LaidStatement T i j' (.ifElse d) := by
    refine spanFrom_any fun s => pure fun helse hthen hcondition => ?_
    have hhead : LaidParts T i n' [.expr condition, .statement thenBranch] :=
      .cons (k := n) (.mono (by omega) hmn hcondition) (.single hthen) (by omega) hn'
    exact LaidParts.append hhead (.option helse) (by omega) hj
  refine eat (by decide) (fun _ => ?_) fun _ => (tail none n' (Nat.le_refl n')).mono fun d j _ h => h nofun
  refine bind (hg.laidStatement (n' + 1)) fun elseBranch j hj => (tail (some elseBranch) j (by omega)).mono fun d j' _ h helse => ?_
  refine h ?_
  rintro _ ⟨⟩
  exact .mono (Nat.le_succ n') (Nat.le_refl j) helse

theorem returnStatement_laid (hkind : kindOf T i ≠ .eof) :
    Builds T 0 (Parser.returnStatement g) i fun d j => LaidStatement T i j (.ret d) := by
  unfold Parser.returnStatement
  refine currentSpan (advance_bind hkind (atKind (atKind (atEnd (newlineBefore ?_)))))
  extract_lets bare finish
  have tail (value : Option Expr) (k : Nat) : Builds T 0 (finish value) k fun d j =>
      (∀ e ∈ value, Laid T i k (Piece.expr e).types) → LaidStatement T i j (.ret d) :=
    seq expectSemicolon fun _ j hkj => spanFrom_any fun s => pure fun hvalue =>
      LaidParts.mono (Nat.le_refl i) hkj (.option hvalue)
  split
  · exact (tail none (i + 1)).mono fun d j _ h => h nofun
  · have hvalue : Builds T 0 (some <$> Parser.exprNode g) (i + 1) fun value j =>
        ∀ e ∈ value, Laid T i j (Piece.expr e).types := by
      refine bind (exprNode_laid hg hT) fun e j hij => pure fun he => ?_
      rintro _ ⟨⟩
      exact .mono (Nat.le_succ i) (Nat.le_refl j) he
    exact bind hvalue fun value k hik => tail value k

theorem expressionStatement_laid : Builds T 0 (Parser.expressionStatement g) i fun s j => LaidStatement T i j s := by
  unfold Parser.expressionStatement
  refine remaining (bind (exprNode_laid hg hT) fun e k hik => remaining ?_)
  split
  · exact pure fun _ => .nil
  · exact seq expectSemicolon fun _ j hkj => pure fun he => LaidParts.single (.mono (Nat.le_refl i) hkj he)

theorem statementForm_laid : Builds T 0 (Parser.statementForm g) i fun s j => LaidStatement T i j s := by
  unfold Parser.statementForm
  refine current ?_
  split <;> rename_i hkind
  · refine kindAt ?_
    split
    · exact expressionStatement_laid hg hT
    · exact expressionStatement_laid hg hT
    · exact importStatement_laid false hkind
  · exact exportStatement_laid hg hT hkind
  · exact bind (variableStatement_laid hg _ (by rw [hkind]; decide)) fun _ _ _ => pure id
  · exact bind (variableStatement_laid hg _ (by rw [hkind]; decide)) fun _ _ _ => pure id
  · exact bind (variableStatement_laid hg _ (by rw [hkind]; decide)) fun _ _ _ => pure id
  · exact bind (functionDecl_laid hg _) fun _ _ _ => pure id
  · exact bind (interfaceDecl_laid hg _) fun _ _ _ => pure id
  · exact bind (ifStatement_laid hg hT (by rw [hkind]; decide)) fun _ _ _ => pure id
  · exact bind (block_laid hg) fun _ _ _ => pure fun h => LaidParts.single h
  · exact bind (returnStatement_laid hg hT (by rw [hkind]; decide)) fun _ _ _ => pure id
  · exact currentSpan (advance_bind (by rw [hkind]; decide) (pure .nil))
  · refine read Reads.atDeclarationWord fun b k _ hk => ?_
    obtain rfl := hk
    split
    · refine currentSpan (read (Reads.eatWord_any _) fun declared m hkm _ => (declaration_laid hg _).mono fun s j _ h => ?_)
      exact .mono hkm (Nat.le_refl j) h
    · exact expressionStatement_laid hg hT
  · exact expressionStatement_laid hg hT

theorem statementNode_laid :
    Builds T 0 (Parser.statementNode g) i fun s j => Laid T i j (Piece.statement s).types := by
  unfold Parser.statementNode
  refine remaining (bind (statementForm_laid hg hT) fun s k hik => remaining ?_)
  split
  · exact currentSpan (report_bind (read Reads.recoverStatement fun _ j _ _ => pure fun hf => absurd rfl hf))
  · exact pure (·.laid)

theorem program_laid :
    Builds T 0 (Parser.program g) 0 fun statements j => LaidParts T 0 j (statements.map .statement) := by
  unfold Parser.program
  refine bind (repeating (I := fun (items : List Statement) k => LaidParts T 0 k (items.map .statement)) ?_) fun items k _ =>
    pure fun hitems => laid_reverse (hitems .nil)
  intro items k _
  unfold Parser.programStep
  refine atEnd ?_
  split
  · exact pure id
  · refine atKind ?_
    split
    · rename_i hbrace
      exact report_bind (advance_bind (by rw [of_decide_eq_true hbrace]; decide) (pure fun hf => absurd rfl hf))
    · exact bind (statementNode_laid hg hT) fun s m hkm => pure fun hs hitems => .behind hitems hs (Nat.zero_le k) hkm

end

end Builds

/-! ## All levels of the grammar -/

theorem lays_failing : Lays T .failing where
  toNests := nests_failing
  laidType _ := .report_bind (.pure fun hf => absurd rfl hf)
  laidPostfixType _ := .report_bind (.pure fun hf => absurd rfl hf)
  laidExpr _ := .report_bind (.pure fun hf => absurd rfl hf)
  laidBinary _ _ := .report_bind (.pure fun hf => absurd rfl hf)
  laidUnary _ := .report_bind (.pure fun hf => absurd rfl hf)
  laidStatement _ := .report_bind (.pure fun hf => absurd rfl hf)

theorem Lays.over {bottom : Grammar} (h : Lays T bottom) (hT : Identifiers T) (n : Nat) : Lays T (Grammar.over bottom n) := by
  induction n with
  | zero => exact h
  | succ n ih =>
    exact {
      toNests := h.toNests.over (n + 1)
      laidType := fun _ => .typeNode_laid ih
      laidPostfixType := fun _ => .postfixType_laid ih
      laidExpr := fun _ => .exprNode_laid ih hT
      laidBinary := fun power _ => .binaryExpr_laid ih hT power
      laidUnary := fun _ => .unaryExpr_laid ih
      laidStatement := fun _ => .statementNode_laid ih hT }

end Parser

/-! ## The types of a text -/

/-- Unless there are faults, the types of a text are read from tokens in front of its end. -/
theorem parse_laid {text : String} (hclean : (parse text).reports = []) :
    ∃ j, j < (lex text).tokens.length ∧ Laid (lex text).tokens 0 j (everyType (parse text).tree.statements) := by
  have hT := identifiers_lex text
  obtain ⟨j, hj, h⟩ := parse_builds_clean hclean (Builds.program_laid (lays_failing.over hT _) hT)
  exact ⟨j, hj, .sub (Piece.type?_met_module_perm _).symm.subperm (Laid.node (p := .module (parse text).tree) h rfl)⟩

end Recheck.Syntax
