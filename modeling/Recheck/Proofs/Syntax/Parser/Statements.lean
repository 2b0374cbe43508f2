import Recheck.Proofs.Syntax.Parser.Exprs

/-!
# Reading statements

Every statement begins with a token of its own, so its names lie behind its first edge. A statement that reads nothing
is skipped up to the end of its line, and so is read as well.
-/

set_option autoImplicit false

namespace Recheck.Syntax.Parser

variable {T : List Token} {i j : Nat} {g g' : Grammar}

namespace Reads

/-! ## Names -/

theorem identifier : Reads T Parser.expectIdent Parser.expectIdent i fun name j => NameReads T i j name := by
  refine expectIdent.mono fun name j hij _ h => ⟨i, Nat.le_refl i, hij, h.1, ?_⟩
  exact h.2.imp (fun h => by omega) And.right

theorem propertyName : Reads T Parser.expectPropertyName Parser.expectPropertyName i fun name j => NameReads T i j name := by
  refine expectPropertyName.mono fun name j hij _ h => ⟨i, Nat.le_refl i, hij, h.1, ?_⟩
  exact h.2.imp (fun h => by omega) And.right

/-! ## Imports -/

theorem fromSource : Reads T Parser.fromSource Parser.fromSource i fun source j => ∃ k, i ≤ k ∧ k ≤ j ∧ source.span = spanOf T k := by
  unfold Parser.fromSource
  refine bind (expectWord _) fun _ k hik _ _ => ?_
  exact expectString.mono fun source j hkj _ h => ⟨k, hik, hkj, h.1⟩

theorem skipType : Reads T Parser.skipType Parser.skipType i fun _ _ => True := by
  unfold Parser.skipType
  refine atWord fun b hb => kindAt ?_
  split
  · rename_i htype
    exact advance (by rw [hb (by simp at htype; exact htype.1)]; decide) fun _ => trivial
  · exact pure trivial

theorem importSpecifier : Reads T Parser.importSpecifier Parser.importSpecifier i fun s j =>
    NameReads T i j s.imported ∧ NameReads T i j s.localName := by
  unfold Parser.importSpecifier
  refine bind skipType fun _ k hik _ _ => bind propertyName fun name m hkm _ hname => ?_
  refine eatWord (fun _ => ?_) (pure ⟨hname.mono hik (Nat.le_refl m), hname.mono hik (Nat.le_refl m)⟩)
  refine bind identifier fun newName j hmj _ hnew => pure ⟨hname.mono hik (by omega), hnew.mono (by omega) (Nat.le_refl j)⟩

theorem atTypeImport : Reads T Parser.atTypeImport Parser.atTypeImport i fun b j =>
    j = i ∧ (b = true → kindOf T i = .identifier) := by
  unfold Parser.atTypeImport
  refine get fun s _ => atWord fun b hb => ?_
  cases b with
  | false => exact pure ⟨rfl, nofun⟩
  | true =>
    have hkind := hb rfl
    simp only [if_true]
    split <;> exact pure ⟨rfl, fun _ => hkind⟩

theorem requireCall : Reads T Parser.requireCall Parser.requireCall i fun source j =>
    ∃ k, i ≤ k ∧ k ≤ j ∧ source.span = spanOf T k := by
  unfold Parser.requireCall
  refine bind (expectWord _) fun _ k _ _ _ => bind (expect (by decide)) fun _ m _ _ _ => ?_
  refine bind expectString fun source n hmn _ h => ?_
  exact bind (expect (by decide)) fun _ j hnj _ _ => pure ⟨m, by omega, by omega, h.1⟩

/-- The names an import brings in apart from its default. -/
theorem importNames (hT : Ruled T) : Reads T Parser.importNames Parser.importNames i fun names j =>
    Placed T (edge T i) (edge T j) ((names.1.toList ++ names.2.map (·.localName)).map fun name => (.variable, name.span)) ∧
      Placed T (edge T i) (edge T j) (names.2.map fun s => (.exported, s.imported.span)) := by
  unfold Parser.importNames
  refine eat (by decide) (fun _ => ?_) fun _ => eat (by decide) (fun _ => ?_) fun _ => ?_
  · refine bind (expectWord _) fun _ k hik _ _ => bind identifier fun name j hkj hj hname => pure ⟨?_, .nil⟩
    exact .single (hname.between hT hj (by omega) (by decide))
  · refine bind (commaList (P := fun a b s => NameReads T a b s.imported ∧ NameReads T a b s.localName) fun k _ =>
      importSpecifier) fun named k hik _ hnamed => ?_
    refine bind (expect (by decide)) fun _ j hkj hj _ => pure ?_
    have hnamed := hnamed.extend hkj
    refine ⟨?_, (hnamed.imp fun _ _ _ h => h.1).placed_names hT hj (Nat.lt_succ_self i) (by decide)⟩
    rw [Option.toList_none, List.nil_append, List.map_map]
    exact (hnamed.imp fun _ _ _ h => h.2).placed_names hT hj (Nat.lt_succ_self i) (by decide)
  · exact report_bind rfl (pure ⟨.nil, .nil⟩)

theorem source_between (hT : Ruled T) {source : StringLiteral} {k : Nat} (hik : i < k) (hkj : k ≤ j) (hj : j < T.length)
    (hsource : source.span = spanOf T k) : Between T (edge T i) (edge T j) (.source, source.span) :=
  hsource ▸ hT.between_start (by decide) hik hkj hj

/-- An import, which begins with a token that has been read. -/
theorem import_reads (hT : Ruled T) {decl : ImportDecl} {k : Nat} (hik : i < k) (hkj : k ≤ j) (hj : j < T.length)
    (hsource : decl.source.span = spanOf T k)
    (hnames : Placed T (edge T i) (edge T j) (decl.localNames.map fun name => (.variable, name.span)))
    (hnamed : Placed T (edge T i) (edge T j) (decl.named.map fun s => (.exported, s.imported.span))) :
    StatementReads T i j (.importDecl decl) where
  fits := by
    have hspots : Placed T (edge T i) (edge T j) decl.spots := by
      refine .cons (source_between hT hik hkj hj hsource) hnamed ?_
      simp
    exact (Fits.ofSpots hspots : Fits T i i j 1 0 _).inside
  imports := hnames

theorem importStatement (hT : Ruled T) (exported : Bool) (hkind : kindOf T i = .import) :
    Reads T (Parser.importStatement exported) (Parser.importStatement exported) i fun s j =>
      i < j ∧ StatementReads T i j s ∧ s.isFixed = true := by
  unfold Parser.importStatement
  refine currentSpan (advance_bind (by rw [hkind]; decide) (bind atTypeImport fun typeOnly k hik _ hk => ?_))
  obtain ⟨rfl, htype⟩ := hk
  extract_lets finish rest
  have hfinish (default star : Option Ident) (named : List ImportSpecifier) (n : Nat) (hn : i < n)
      (hnames : Placed T (edge T i) (edge T n)
        ((default.toList ++ star.toList ++ named.map (·.localName)).map fun name => (.variable, name.span)))
      (hnamed : Placed T (edge T i) (edge T n) (named.map fun s => (.exported, s.imported.span))) :
      Reads T (finish default star named) (finish default star named) n fun s j =>
        i < j ∧ StatementReads T i j s ∧ s.isFixed = true := by
    refine bind fromSource fun source m hnm _ ⟨k, hnk, hkm, hsource⟩ => ?_
    refine bind expectSemicolon fun _ j hmj hj _ => spanFrom (pure ⟨by omega, ?_, rfl⟩)
    have hedge := hT.edge_mono (show n ≤ j by omega)
    exact import_reads hT (by omega) (by omega) hj hsource (hnames.mono (Nat.le_refl _) hedge) (hnamed.mono (Nat.le_refl _) hedge)
  have hrest (n : Nat) (hn : i < n) : Reads T (rest ⟨⟩) (rest ⟨⟩) n fun s j =>
      i < j ∧ StatementReads T i j s ∧ s.isFixed = true := by
    refine atKind ?_
    split
    · refine bind expectString fun source m hnm _ hsource => bind expectSemicolon fun _ j hmj hj _ => spanFrom (pure ?_)
      exact ⟨by omega, import_reads hT hn (by omega) hj hsource.1 .nil .nil, rfl⟩
    · refine atKind ?_
      split
      · rename_i hident
        have hident := of_decide_eq_true hident
        refine bind (takeIdent (by rw [hident]; decide)) fun name m hnm hm ⟨hname, hm'⟩ => ?_
        have hdefault : Between T (edge T i) (edge T m) (.variable, name.span) :=
          hname ▸ hT.between_start (by decide) hn hnm hm
        refine eat (by decide) (fun _ => ?_) fun _ => eat (by decide) (fun _ => ?_) fun _ => ?_
        · refine bind requireCall fun source k hmk _ ⟨k', hk, hk', hsource⟩ => ?_
          refine bind expectSemicolon fun _ j hkj hj _ => spanFrom (pure ⟨by omega, ⟨?_, ?_⟩, rfl⟩)
          · have hspot := Placed.single (source_between hT (show i < k' by omega) (by omega) hj hsource)
            exact (Fits.ofSpots hspot : Fits T i i j 1 0 _).inside
          · exact (Placed.single hdefault).mono (Nat.le_refl _) (hT.edge_mono (by omega))
        · refine bind (importNames hT) fun names k hmk _ hnames => ?_
          refine hfinish (some name) names.1 names.2 k (by omega) ?_ (hnames.2.mono (hT.edge_mono (by omega)) (Nat.le_refl _))
          exact (Placed.single hdefault).append (hnames.1.mono (hT.edge_mono (by omega)) (Nat.le_refl _))
            (hT.edge_mono (by omega)) (hT.edge_mono (by omega))
        · exact hfinish (some name) none [] m (by omega) (.single hdefault) .nil
      · refine bind (importNames hT) fun names k hnk _ hnames => ?_
        have hedge := hT.edge_mono (show i ≤ n by omega)
        exact hfinish none names.1 names.2 k (by omega) (hnames.1.mono hedge (Nat.le_refl _)) (hnames.2.mono hedge (Nat.le_refl _))
  split
  · rename_i h
    exact advance_bind (by rw [htype h]; decide) (hrest _ (by omega))
  · exact hrest _ (by omega)

/-! ## Declarations -/

/-- The name of a variable, in front of its type and its value. -/
theorem declarator_reads (hT : Ruled T) {d : Declarator} (hname : d.name.span = spanOf T i) (hij : i ≤ j)
    (hj : j < T.length) (hinit : d.init.isSome = true → i < j)
    (hrest : Fits T (i + 1) i j 1 0 (typeContent? d.type ++ exprContent? d.init)) {lo : Nat} (hlo : lo < i) :
    Fits T lo i j 1 1 d.content := by
  have hi : i < T.length := by omega
  have hedge := hT.edge_mono (show i ≤ i + 1 by omega)
  have hplaced := hrest.placed.mono (hT.edge_mono (show lo ≤ i + 1 by omega)) (Nat.le_refl _)
  have hvariable : Between T (edge T lo) (edge T j) (.variable, d.name.span) :=
    hname ▸ hT.between_start (by decide) hlo hij hj
  have hfresh : (Role.variable, d.name.span) ∉ (typeContent? d.type ++ exprContent? d.init).spots := by
    intro hmem
    have := (hrest.placed.between _ hmem).2.2
    rw [hname] at this
    simp only [← edge_of_lt hi] at this
    omega
  have hspots : Placed T (edge T lo) (edge T j)
      (declaratorSpots d.name d.init.isSome ++ (typeContent? d.type ++ exprContent? d.init).spots) := by
    unfold declaratorSpots
    split
    · rename_i hsome
      have hij := hinit hsome
      have hspan : d.name.span = across T i (i + 1) := by
        rw [hname, across, edge_of_lt hi]
        rfl
      have hvalue := hspan ▸ hT.between_value (Nat.lt_succ_self i) (show i + 1 < T.length by omega)
      have hvalue := hvalue.mono (hT.edge_mono (show lo ≤ i by omega)) (hT.edge_mono (show i + 1 ≤ j by omega))
      refine .cons hvariable (.cons hvalue hplaced ?_) ?_
      · refine hrest.placed.not_mem_value (.inl ?_)
        rw [hname, ← edge_of_lt hi]
        exact hT.edge_lt_succ (by omega)
      · rintro (_ | ⟨_, hmem⟩)
        exact hfresh hmem
    · exact .cons hvariable hplaced hfresh
  obtain ⟨name, type, init, span⟩ := d
  have hall : Fits T lo i j 1 0
      (.ofSpots (declaratorSpots name init.isSome) ++ (typeContent? type ++ exprContent? init)) := by
    refine ⟨hspots, ?_, ?_⟩
    · simpa using hrest.height_le
    · simpa using hrest.declared_le
  exact hall.declaring

theorem declarator (hT : Ruled T) (hg : Agree T (i + 1) g g') :
    Reads T (Parser.declarator g) (Parser.declarator g') i fun d j => ∀ lo, lo + 1 ≤ i → Fits T lo i j 1 1 d.content := by
  unfold Parser.declarator
  refine currentSpan (bind expectIdent fun name k hik _ hname => bind (eat_any (by decide)).discard fun _ m hkm _ _ => ?_)
  refine bind (typeBehind hT (hg.mono (by omega)) (by decide)) fun type n hmn _ htype => ?_
  refine bind (exprAfter hT (hg.mono (by omega)) (by decide)) fun init j hnj hj hinit => spanFrom (pure fun lo hlo => ?_)
  refine declarator_reads hT hname.1 (by omega) hj (fun h => by have := hinit.2 h; omega) ?_ hlo
  cases type with
  | none =>
    have hinit : Fits T (i + 1) i j 1 0 (exprContent? init) := hinit.1.mono hT (by omega)
    exact ⟨hinit.placed, by simpa [typeContent?] using hinit.height_le, by simpa [typeContent?] using hinit.declared_le⟩
  | some type =>
    have hmn := htype.2 rfl
    exact (htype.1.mono hT (by omega) : Fits T (i + 1) m n 1 0 _).join hT hinit.1 (by omega)

theorem variableStatement (hT : Ruled T) (hg : Agree T (i + 1) g g') (modifiers : Modifiers)
    (hkind : kindOf T i ≠ .eof) :
    Reads T (Parser.variableStatement g modifiers) (Parser.variableStatement g' modifiers) i fun d j =>
      i < j ∧ StatementReads T i j (.variableDecl d) := by
  unfold Parser.variableStatement
  refine currentSpan (current ?_)
  extract_lets kind
  refine advance_bind hkind (bind (declarator hT (hg.mono (by omega))) fun first k hik _ hfirst => ?_)
  refine bind (separated (P := fun a b d => ∀ lo, lo + 1 ≤ a → Fits T lo a b 1 1 (Declarator.content d)) (by decide)
    fun m hm => declarator hT (hg.mono (by omega))) fun decls m hkm _ hdecls => ?_
  refine bind expectSemicolon fun _ j hmj hj _ => spanFrom (pure ⟨by omega, ?_, .nil⟩)
  have hrow := (hdecls.row hik hfirst).fits hT (by omega) (fun _ _ _ h => h) i (Nat.le_refl _)
  rw [← declaratorsContent_eq] at hrow
  exact (hrow.inside.mono hT (by omega) : Fits T i i j 2 0 _)

/-- A function, which begins with the word itself. -/
theorem functionDecl (hT : Ruled T) (hg : Agree T (i + 1) g g') (modifiers : Modifiers) (hkind : kindOf T i = .function) :
    Reads T (Parser.functionDecl g modifiers) (Parser.functionDecl g' modifiers) i fun d j =>
      i < j ∧ StatementReads T i j (.function d) := by
  unfold Parser.functionDecl
  refine currentSpan (bind (expect (by decide)) fun _ k _ _ hk => ?_)
  obtain rfl := hk.2 hkind
  refine bind (eat_any (by decide)).discard fun _ k₁ h₁ _ _ => bind (Q := fun _ _ => True) ?_ fun name k₂ h₂ _ _ => ?_
  · unfold Parser.functionName
    refine atKind ?_
    split
    · rename_i hident
      exact bind (takeIdent (by rw [of_decide_eq_true hident]; decide)) fun _ _ _ _ _ => pure trivial
    · split
      · exact pure trivial
      · exact bind expectIdent.discard fun _ _ _ _ _ => pure trivial
  refine bind (typeParams hT (hg.mono (by omega))) fun names k₃ h₃ _ _ => ?_
  refine bind (params hT (hg.mono (by omega))) fun ps m h₄ _ ⟨k, hk, hkm, _, hps, _, _⟩ => ?_
  refine bind (typeAfter hT (hg.mono (by omega)) (by decide)) fun ret n hmn _ hret => atKind ?_
  extract_lets finish
  have tail (body : Option Block) (n' j : Nat) (hn : n ≤ n') (hj' : n' ≤ j) (hbody : Fits T n' n' j 2 0 (blockContent? body)) :
      Reads T (finish body) (finish body) j fun d j => i < j ∧ StatementReads T i j (.function d) := by
    refine here fun hj => spanFrom (pure ⟨by omega, ?_, .nil⟩)
    have hrest := hret.join hT hbody (u := m) (v := 2) (w := 0) (by omega)
    have hall := ((hps i (by omega)).join hT hrest (u := k) (v := 2) (w := 1) (by omega)).declaring.inside
    exact (hall.mono hT (by omega) : Fits T i i j 2 0 _)
  split
  · refine bind (block hT (hg.mono (by omega)) fun _ => hg.mono (by omega)) fun b j hnj _ ⟨n', hn, hj', _, hb⟩ => ?_
    exact tail (some b) n' j hn hj' (blockContent?_some b ▸ hb)
  · exact bind expectSemicolon fun _ j hnj _ _ => tail none j j hnj (Nat.le_refl j) .none

/-- An interface, which begins with the word itself. -/
theorem interfaceDecl (hT : Ruled T) (hg : Agree T (i + 1) g g') (modifiers : Modifiers) (hkind : kindOf T i = .interface) :
    Reads T (Parser.interfaceDecl g modifiers) (Parser.interfaceDecl g' modifiers) i fun d j =>
      i < j ∧ StatementReads T i j (.interface d) := by
  unfold Parser.interfaceDecl
  refine currentSpan (bind (expect (by decide)) fun _ k _ _ hk => ?_)
  obtain rfl := hk.2 hkind
  refine bind expectIdent fun name k h _ _ => bind (typeParams hT (hg.mono (by omega))) fun names m hkm _ _ => ?_
  extract_lets finish finish'
  have tail (bases : List TypeNode) (n : Nat) (hmn : m ≤ n) (hbases : Fits T m m n 1 0 (typesContent bases)) :
      Reads T (finish bases) (finish' bases) n fun d j => i < j ∧ StatementReads T i j (.interface d) := by
    refine bind (typeMembers hT (hg.mono (by omega))) fun members j hnj hj ⟨n', hn', hj', _, hmembers⟩ => spanFrom (pure ?_)
    refine ⟨by omega, ?_, .nil⟩
    have hall := (hbases.join hT hmembers (u := m) (v := 1) (w := 0) (by omega)).declaring.inside
    exact (hall.mono hT (by omega) : Fits T i i j 2 0 _)
  refine eatWord (fun _ => ?_) (tail [] m (Nat.le_refl m) .none)
  refine bind (typeNode hT (hg.mono (by omega))) fun first n hmn _ hfirst => ?_
  refine bind (separated (P := TypeReads T) (by decide) fun n' hn' => typeNode hT (hg.mono (by omega))) fun bases n' hn' _ hbases => ?_
  refine tail bases n' (by omega) ?_
  rw [typesContent_eq]
  exact ((hbases.row (by omega) hfirst).fits_of_le hT fun _ _ _ h => h).mono hT (by omega)

/-- A type alias, which begins with the word itself. -/
theorem typeAlias (hT : Ruled T) (hg : Agree T (i + 1) g g') (modifiers : Modifiers) (hkind : kindOf T i ≠ .eof) :
    Reads T (Parser.typeAlias g modifiers) (Parser.typeAlias g' modifiers) i fun d j =>
      i < j ∧ StatementReads T i j (.typeAlias d) := by
  unfold Parser.typeAlias
  refine currentSpan (advance_bind hkind (bind expectIdent fun name k h _ _ => ?_))
  refine bind (typeParams hT (hg.mono (by omega))) fun names m hkm _ _ => bind (expect (by decide)) fun _ n hmn _ _ => ?_
  refine bind (typeNode hT (hg.mono (by omega))) fun type n' hn' _ htype => ?_
  refine bind expectSemicolon fun _ j hj' hj _ => spanFrom (pure ⟨by omega, ?_, .nil⟩)
  exact (htype.declaring.inside.mono hT (by omega) : Fits T i i j 2 0 _)

/-! ## Namespaces -/

theorem nameStep {name : Ident} : Reads T (Parser.nameStep name) (Parser.nameStep name) i
    (Round (fun _ _ => True) (fun _ _ => True) name i) := by
  unfold Parser.nameStep
  refine eat (by decide) (fun _ => ?_) fun _ => pure fun _ => trivial
  exact bind expectIdent fun next j hij _ _ => pure ⟨by omega, fun _ => trivial⟩

theorem moduleName (hkind : kindOf T i = .identifier) : Reads T Parser.moduleName Parser.moduleName i fun _ j => i < j := by
  have hread : kindOf T i ≠ .eof := by rw [hkind]; decide
  unfold Parser.moduleName
  refine atWord fun b _ => ?_
  cases b with
  | true => exact currentSpan (advance_bind hread (pure (Nat.lt_succ_self i)))
  | false =>
    refine advance_bind hread (atKind ?_)
    split
    · exact bind expectString fun _ j hj _ _ => pure hj
    · unfold Parser.namespaceName
      refine bind (bind expectIdent fun name k hk _ _ => ?_) fun name j hj _ (h : i < j) => pure h
      exact (repeating (I := fun _ _ => True) (R := fun _ _ => True) (fun _ _ _ => nameStep) trivial).mono
        fun _ j hkj _ _ => by omega

/-- What is said of a namespace. -/
structure ModuleReads (T : List Token) (i j : Nat) (d : ModuleDecl) : Prop where
  lt : i < j
  start : d.span.start = edge T i
  body : Fits T (i + 1) (i + 1) j 2 0 (statementsContent? d.body)

/-- As a statement, with the words in front of it. -/
theorem ModuleReads.statement (hT : Ruled T) {d : ModuleDecl} (h : ModuleReads T i j d) (hj : j < T.length) {i₀ : Nat}
    (hi : i₀ ≤ i) {span : Span} (hspan : span.start = edge T i₀) : StatementReads T i₀ j (.moduleDecl { d with span := span }) := by
  have hlt := h.lt
  have hedge := hT.edge_lt_succ (show i₀ + 1 < T.length by omega)
  have hlimit := hT.edge_le_limit (i₀ + 1)
  have hspot : Between T (edge T i₀) (edge T (i₀ + 1)) (.module, ⟨span.start, span.start + 1⟩) := by
    refine ⟨Nat.le_succ _, ?_, ?_⟩ <;> simp only [hspan] <;> omega
  have hall : Fits T i₀ i₀ j 1 0 (.ofSpots [(.module, ⟨span.start, span.start + 1⟩)] ++ statementsContent? d.body) :=
    (Fits.ofSpots (.single hspot) : Fits T i₀ i₀ (i₀ + 1) 0 0 _).join hT h.body (by omega)
  exact ⟨hall.inside, .nil⟩

theorem moduleDecl (hT : Ruled T) (hg : Agree T (i + 1) g g') (modifiers : Modifiers) (hkind : kindOf T i = .identifier) :
    Reads T (Parser.moduleDecl g modifiers) (Parser.moduleDecl g' modifiers) i fun d j => ModuleReads T i j d := by
  unfold Parser.moduleDecl
  refine currentSpan (bind (moduleName hkind) fun name k hik _ hk => ?_)
  extract_lets finish
  have tail (body : Option (List Statement)) (m j : Nat) (hm : i < m) (hmj : m ≤ j)
      (hbody : Fits T m m j 2 0 (statementsContent? body)) :
      Reads T (finish body) (finish body) j fun d j => ModuleReads T i j d := by
    refine here fun hj => spanFrom (pure ⟨by omega, ?_, hbody.mono hT (by omega)⟩)
    rw [hT.merge_eq_across (by omega) hj]
    rfl
  refine eat (by decide) (fun _ => ?_) fun _ => ?_
  · exact bind (statementList hT (hg.mono (by omega))) fun statements j hkj _ h => tail (some statements) (k + 1) j (by omega) hkj h
  · exact bind expectSemicolon fun _ j hkj _ _ => tail none j j (by omega) (Nat.le_refl j) .none

/-- A declaration that begins at `i₀` with the words in front of it. -/
theorem declaration (hT : Ruled T) (hg : Agree T (i + 1) g g') (modifiers : Modifiers) {i₀ : Nat} (hi : i₀ ≤ i) :
    Reads T (Parser.declaration g modifiers (spanOf T i₀)) (Parser.declaration g' modifiers (spanOf T i₀)) i fun s j =>
      StatementReads T i₀ j s := by
  unfold Parser.declaration
  extract_lets failed
  have hfailed (k : Nat) : Reads T failed failed k fun s j => StatementReads T i₀ j s := by
    refine report_bind rfl (bind recoverStatement fun _ j _ _ _ => spanFrom (pure ⟨?_, .nil⟩))
    exact (Fits.none : Fits T i₀ i₀ j 1 0 .none).inside
  refine bind (eatWord_any _) fun declared k hik _ _ => ?_
  extract_lets modifiers
  have hgk : Agree T (k + 1) g g' := hg.mono (by omega)
  have stretched {s : Statement} {j : Nat} (h : k < j ∧ StatementReads T k j s) (hs : s.isFixed = true) :
      StatementReads T i₀ j (s.stretch (spanOf T i₀)) := h.2.withSpan hT (by omega) (by omega) hs _
  refine current ?_
  split <;> rename_i hkind
  · exact bind (variableStatement hT hgk _ (by rw [hkind]; decide)) fun d j _ _ h => pure (stretched h rfl)
  · exact bind (variableStatement hT hgk _ (by rw [hkind]; decide)) fun d j _ _ h => pure (stretched h rfl)
  · exact bind (variableStatement hT hgk _ (by rw [hkind]; decide)) fun d j _ _ h => pure (stretched h rfl)
  · exact bind (functionDecl hT hgk _ hkind) fun d j _ _ h => pure (stretched h rfl)
  · exact bind (interfaceDecl hT hgk _ hkind) fun d j _ _ h => pure (stretched h rfl)
  · refine currentText ?_
    split
    · exact bind (typeAlias hT hgk _ (by rw [hkind]; decide)) fun d j _ _ h => pure (stretched h rfl)
    · split
      · refine bind (moduleDecl hT hgk _ hkind) fun d j hkj hj h => pure ?_
        refine h.statement hT hj (show i₀ ≤ k by omega) ?_
        have := hT.edge_mono (show i₀ ≤ k by omega)
        rw [Span.start_merge, ← edge_of_lt (show i₀ < T.length by omega)]
        exact (Nat.min_eq_right (h.start ▸ this))
      · exact hfailed k
  · exact hfailed k

theorem atDeclarationWord : Reads T Parser.atDeclarationWord Parser.atDeclarationWord i fun _ j => j = i := by
  unfold Parser.atDeclarationWord
  refine get fun s _ => ?_
  extract_lets next
  clear_value next
  split
  · exact pure rfl
  · split
    · split <;> exact pure rfl
    · exact pure rfl
    · exact pure rfl
    · exact pure rfl
    · exact pure rfl

/-! ## Exports -/

theorem exportSpecifier : Reads T Parser.exportSpecifier Parser.exportSpecifier i fun s j => NameReads T i j s.localName := by
  unfold Parser.exportSpecifier
  refine bind skipType fun _ k hik _ _ => bind propertyName fun name m hkm _ hname => ?_
  refine eatWord (fun _ => ?_) (pure (hname.mono hik (Nat.le_refl m)))
  exact bind propertyName fun newName j hmj _ _ => pure (hname.mono hik (by omega))

theorem exportList (hT : Ruled T) {i₀ : Nat} (hi : i₀ < i) :
    Reads T Parser.exportList Parser.exportList i fun kind j => Fits T i₀ i j 1 1 kind.content := by
  unfold Parser.exportList
  refine bind (expect (by decide)) fun _ k hik _ _ => ?_
  refine bind (commaList (P := fun a b s => NameReads T a b (ExportSpecifier.localName s)) fun _ _ => exportSpecifier)
    fun specifiers m hkm _ hrow => bind (expect (by decide)) fun _ n hmn _ _ => ?_
  refine eatWord (fun _ => ?_) (here fun hn => pure ?_)
  · refine bind expectString fun source j hnj hj hsource => pure (.ofSpots ?_)
    have hnames := (hrow.extend (show m ≤ j by omega)).placed_names hT hj (show i₀ < k by omega)
      (show Role.exported ∉ [Role.param, .value, .module, .surplus] by decide)
    refine .cons (source_between hT (show i₀ < n + 1 by omega) hnj hj hsource.1) hnames ?_
    simp
  · exact .ofSpots ((hrow.extend hmn).placed_names hT hn (show i₀ < k by omega) (by decide))

theorem exportStar (hT : Ruled T) (hkind : kindOf T i = .star) {i₀ : Nat} (hi : i₀ < i) :
    Reads T Parser.exportStar Parser.exportStar i fun kind j => Fits T i₀ i j 1 1 kind.content := by
  unfold Parser.exportStar
  refine advance_bind (by rw [hkind]; decide) ?_
  extract_lets finish
  have tail (newName : Option Ident) (k : Nat) (hik : i < k) :
      Reads T (finish newName) (finish newName) k fun kind j => Fits T i₀ i j 1 1 kind.content := by
    refine bind fromSource fun source j hkj hj ⟨m, hkm, hmj, hsource⟩ => pure (.ofSpots (.single ?_))
    exact source_between hT (by omega) hmj hj hsource
  refine eatWord (fun _ => ?_) (tail none (i + 1) (by omega))
  exact bind propertyName fun newName k hk _ _ => tail (some newName) k (by omega)

theorem exportStatement (hT : Ruled T) (hg : Agree T (i + 1) g g') (hkind : kindOf T i = .export) :
    Reads T (Parser.exportStatement g) (Parser.exportStatement g') i fun s j => StatementReads T i j s := by
  unfold Parser.exportStatement
  refine currentSpan (advance_bind (by rw [hkind]; decide) ?_)
  extract_lets finish
  have hfinish (kind : ExportKind) (k : Nat) (hik : i < k) (hfits : Fits T i (i + 1) k 1 1 kind.content) :
      Reads T (finish kind) (finish kind) k fun s j => StatementReads T i j s := by
    refine bind expectSemicolon fun _ j hkj hj _ => spanFrom (pure ⟨?_, .nil⟩)
    exact (hfits.inside.mono hT (by omega) : Fits T i i j 2 0 _)
  have hvalue (kind : Expr → ExportKind) (hkind : ∀ e, (kind e).content = e.content.declaring) (k : Nat) (hik : i < k) :
      Reads T (Parser.exprNode g >>= fun e => finish (kind e)) (Parser.exprNode g' >>= fun e => finish (kind e)) k
        fun s j => StatementReads T i j s := by
    refine bind (exprNode hT (hg.mono (by omega))) fun e m hkm _ he => hfinish _ m (by omega) (hkind e ▸ ?_)
    exact (he.fits hT).declaring.mono hT (by omega)
  have hgk : Agree T (i + 1 + 1) g g' := hg.mono (by omega)
  have hedge : i ≤ i + 1 := by omega
  refine current ?_
  split <;> rename_i hnext
  · exact bind (exportStar hT hnext (Nat.lt_succ_self i)) fun kind k hik _ h => hfinish kind k (by omega) h
  · exact bind (exportList hT (Nat.lt_succ_self i)) fun kind k hik _ h => hfinish kind k (by omega) h
  · exact advance_bind (by rw [hnext]; decide) (hvalue .assignment (fun _ => rfl) _ (by omega))
  · refine advance_bind (by rw [hnext]; decide) (current ?_)
    split <;> rename_i hdefault
    · refine bind (functionDecl hT (hg.mono (by omega)) _ hdefault) fun d j hij _ h => spanFrom (pure ?_)
      exact h.2.withSpan hT (by omega) hij rfl _
    · refine bind (interfaceDecl hT (hg.mono (by omega)) _ hdefault) fun d j hij _ h => spanFrom (pure ?_)
      exact h.2.withSpan hT (by omega) hij rfl _
    · exact hvalue .default (fun _ => rfl) _ (by omega)
  · exact bind (importStatement hT true hnext) fun s j hij _ h => pure (h.2.1.withSpan hT hedge hij h.2.2 _)
  · refine atWord fun b hb => kindAt ?_
    split
    · rename_i htype
      refine advance_bind (by rw [hb (by simp at htype; exact htype.1)]; decide) ?_
      refine bind (exportList hT (show i < i + 1 + 1 by omega)) fun kind k hik _ h => hfinish kind k (by omega) ?_
      exact h.mono hT (by omega)
    · exact declaration hT hgk _ hedge

/-! ## Statements -/

theorem ifStatement (hT : Ruled T) (hg : Agree T (i + 1) g g') (hkind : kindOf T i ≠ .eof) :
    Reads T (Parser.ifStatement g) (Parser.ifStatement g') i fun d j => StatementReads T i j (.ifElse d) := by
  unfold Parser.ifStatement
  refine currentSpan (advance_bind hkind (bind (expect (by decide)) fun _ k hik _ _ => ?_))
  refine bind (exprNode hT (hg.mono (by omega))) fun condition m hkm _ hcondition => ?_
  refine bind (expect (by decide)) fun _ n hmn _ _ => ?_
  refine bind (hg.statement n (by omega)) fun thenBranch n' hn' _ hthen => ?_
  extract_lets finish
  have tail (elseBranch : Option Statement) (m' j : Nat) (hm' : n' ≤ m') (hj' : m' ≤ j)
      (helse : Fits T m' m' j 2 0 (statementContent? elseBranch)) :
      Reads T (finish elseBranch) (finish elseBranch) j fun d j => StatementReads T i j (.ifElse d) := by
    refine spanFrom (pure ⟨?_, .nil⟩)
    have hbranches := hthen.1.fits.join hT helse (u := n) (v := 2) (w := 0) (by omega)
    have hall := ((hcondition.fits hT).join hT hbranches (u := k) (v := 2) (w := 0) (by omega)).inside
    exact (hall.mono hT (by omega) : Fits T i i j 2 0 _)
  refine eat (by decide) (fun _ => ?_) fun _ => tail none n' n' (Nat.le_refl n') (Nat.le_refl n') .none
  exact bind (hg.statement (n' + 1) (by omega)) fun elseBranch j hj _ helse =>
    tail (some elseBranch) (n' + 1) j (by omega) hj helse.1.fits

theorem returnStatement (hT : Ruled T) (hg : Agree T (i + 1) g g') (hkind : kindOf T i ≠ .eof) :
    Reads T (Parser.returnStatement g) (Parser.returnStatement g') i fun d j => StatementReads T i j (.ret d) := by
  unfold Parser.returnStatement
  refine currentSpan (advance_bind hkind (atKind (atKind (atEnd (newlineBefore ?_)))))
  extract_lets bare finish
  have tail (value : Option Expr) (k : Nat) (hik : i < k) (hvalue : Fits T (i + 1) (i + 1) k 1 0 (exprContent? value)) :
      Reads T (finish value) (finish value) k fun d j => StatementReads T i j (.ret d) := by
    refine bind expectSemicolon fun _ j hkj _ _ => spanFrom (pure ⟨?_, .nil⟩)
    exact (hvalue.inside.mono hT (by omega) : Fits T i i j 2 0 _)
  split
  · exact tail none (i + 1) (by omega) .none
  · refine bind (bind (exprNode hT (hg.mono (by omega))) fun value k hik _ h => pure ?_) fun value k hik _ h => tail value k (by omega) h
    exact h.fits hT

theorem expressionStatement (hT : Ruled T) (hg : Agree T (i + 1) g g') :
    Reads T (Parser.expressionStatement g) (Parser.expressionStatement g') i fun s j => StatementReads T i j s := by
  unfold Parser.expressionStatement
  refine remaining (bind (exprNode hT hg) fun e k hik _ he => remaining ?_)
  split
  · exact pure ⟨(Fits.none : Fits T i i k 1 0 .none).inside, .nil⟩
  · refine bind expectSemicolon fun _ j hkj _ _ => pure ⟨?_, .nil⟩
    exact ((he.fits hT).inside.mono hT (by omega) : Fits T i i j 2 0 _)

theorem statementForm (hT : Ruled T) (hg : Agree T (i + 1) g g') :
    Reads T (Parser.statementForm g) (Parser.statementForm g') i fun s j => StatementReads T i j s := by
  unfold Parser.statementForm
  refine current ?_
  split <;> rename_i hkind
  · refine kindAt ?_
    split
    · exact expressionStatement hT hg
    · exact expressionStatement hT hg
    · exact (importStatement hT false hkind).mono fun _ _ _ _ h => h.2.1
  · exact exportStatement hT hg hkind
  · exact bind (variableStatement hT hg _ (by rw [hkind]; decide)) fun d j _ _ h => pure h.2
  · exact bind (variableStatement hT hg _ (by rw [hkind]; decide)) fun d j _ _ h => pure h.2
  · exact bind (variableStatement hT hg _ (by rw [hkind]; decide)) fun d j _ _ h => pure h.2
  · exact bind (functionDecl hT hg _ hkind) fun d j _ _ h => pure h.2
  · exact bind (interfaceDecl hT hg _ hkind) fun d j _ _ h => pure h.2
  · exact bind (ifStatement hT hg (by rw [hkind]; decide)) fun d j _ _ h => pure h
  · refine bind (block hT hg fun h => absurd hkind h) fun b j _ _ ⟨k, hik, hkj, hk, hb⟩ => pure ⟨?_, .nil⟩
    have hik := hk hkind
    obtain ⟨statements, span⟩ := b
    exact (hb.inside.mono hT (by omega) : Fits T i i j 2 0 _)
  · exact bind (returnStatement hT hg (by rw [hkind]; decide)) fun d j _ _ h => pure h
  · refine currentSpan (advance_bind (by rw [hkind]; decide) (pure ⟨?_, .nil⟩))
    exact (Fits.none : Fits T i i (i + 1) 1 0 .none).inside
  · refine bind atDeclarationWord fun b k _ _ hk => ?_
    obtain rfl := hk
    split
    · refine currentSpan (bind (eatWord_any _) fun declared m hkm _ _ => ?_)
      exact declaration hT (hg.mono (by omega)) _ hkm
    · exact expressionStatement hT hg
  · exact expressionStatement hT hg

/-- A statement reads a token, unless the text ends. -/
theorem statementNode (hT : Ruled T) (hg : Agree T (i + 1) g g') :
    Reads T (Parser.statementNode g) (Parser.statementNode g') i fun s j =>
      StatementReads T i j s ∧ (kindOf T i ≠ .eof → i < j) := by
  unfold Parser.statementNode
  refine remaining (bind (statementForm hT hg) fun s k hik hk hs => remaining ?_)
  split
  · have hki : k = i := by omega
    subst hki
    refine currentSpan (report_bind rfl (bind recoverStatement fun _ j hkj _ hread => pure ⟨⟨?_, .nil⟩, hread⟩))
    exact (Fits.none : Fits T k k j 1 0 .none).inside
  · exact pure ⟨hs, fun _ => by omega⟩

/-! ## Programs -/

theorem programStep (hT : Ruled T) (hg : Agree T (j + 1) g g') {items : List Statement} :
    Reads T (Parser.programStep g items) (Parser.programStep g' items) j
      (Round (Behind 0 (StatementReads T) i)
        (fun items k => kindOf T k = .eof ∧ Row 0 (StatementReads T) i k items.reverse) items j) := by
  unfold Parser.programStep
  refine atEnd ?_
  split
  · rename_i hend
    exact pure fun hitems => ⟨of_decide_eq_true hend, hitems.row⟩
  · rename_i hend
    refine atKind ?_
    split
    · rename_i hbrace
      refine report_bind rfl (advance_bind (by rw [of_decide_eq_true hbrace]; decide) (pure ⟨Nat.lt_succ_self j, ?_⟩))
      exact fun hitems => hitems.mono (Nat.le_succ j)
    · refine bind (statementNode hT hg) fun s k hjk _ hs => pure ⟨hs.2 (by simpa using hend), ?_⟩
      exact fun hitems => hitems.cons (Nat.le_refl j) hjk hs.1

/-- A program is read up to the end of the text. -/
theorem program (hT : Ruled T) (hg : Agree T (i + 1) g g') :
    Reads T (Parser.program g) (Parser.program g') i fun statements j =>
      kindOf T j = .eof ∧ Row 0 (StatementReads T) i j statements := by
  unfold Parser.program
  refine bind (repeating (I := Behind 0 (StatementReads T) i)
    (R := fun items j => kindOf T j = .eof ∧ Row 0 (StatementReads T) i j items.reverse) ?_ .start)
    fun items j _ _ hitems => pure hitems
  exact fun items k hik => programStep hT (hg.mono (by omega))

end Reads

end Recheck.Syntax.Parser
