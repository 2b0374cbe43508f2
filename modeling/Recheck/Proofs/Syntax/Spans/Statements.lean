import Recheck.Proofs.Syntax.Progress
import Recheck.Proofs.Syntax.Spans.Exprs

/-!
# Where statements lie

A declaration is read behind the words in front of it and is stretched over them afterwards, so its parts lie in the
statement before it is stretched already.
-/

set_option autoImplicit false

namespace Recheck.Syntax.Parser

variable {T : List Token} {f i j : Nat} {g : Grammar}

/-- The parts of a statement do not depend on its span, so words may be put in front of it. -/
def Stretchable (s : Statement) : Prop :=
  ∀ span, (Piece.statement (s.withSpan span)).parts = (Piece.statement s).parts ∧
    (Piece.statement (s.withSpan span)).statements = (Piece.statement s).statements

theorem span_withSpan (s : Statement) (span : Span) : (s.withSpan span).span = span := by cases s <;> rfl

/-- A statement with the words in front of it, the first of which is the token `i₀`. -/
theorem Stretchable.within {s : Statement} (hs : Stretchable s) (hT : Ruled T) {i₀ : Nat} (hi : i₀ ≤ i)
    (h : Within T f i j (.statement s)) : Within T f i₀ j (.statement (s.stretch (spanOf T i₀))) := by
  have hspan : (Piece.statement (s.stretch (spanOf T i₀))).span = s.span.merge (spanOf T i₀) := span_withSpan s _
  refine h.stretch ?_ (fun _ => hspan ▸ Span.encloses_merge_left s.span _) (hs _).1 (hs _).2
  rw [hspan]
  refine ⟨h.lies.merge (.token hT i₀), fun hf => Nat.lt_of_le_of_lt hi (h.lt hf), fun hf outer houter => ?_, fun hf => ?_⟩
  · have hlt := h.lt hf
    exact (h.least hf outer (houter.mono hi (Nat.le_refl j))).merge (houter i₀ (Nat.le_refl i₀) (by omega))
  · exact Nat.lt_of_le_of_lt (Nat.min_le_left _ _) (Nat.lt_of_lt_of_le (h.pos hf) (Nat.le_max_left _ _))

namespace Builds

/-! ## Imports -/

theorem fromSource : Builds T f Parser.fromSource i fun source j => Within T f i j (.literal source) := by
  unfold Parser.fromSource
  refine read (Reads.expectWord _) fun _ k hik _ => expectString.mono fun source j _ h => h.mono hik (Nat.le_refl j)

theorem importSpecifier : Builds T f Parser.importSpecifier i fun s j => Parts T f i j (Piece.ofImport s) := by
  unfold Parser.importSpecifier
  refine read Reads.skipType fun _ k hik _ => bind expectPropertyName fun name m hkm => ?_
  refine eatWord (bind expectIdent fun newName j hmj => pure fun hnew hname => ?_) (pure fun hname => ?_)
  · exact .cons (hname.mono hik (by omega)) (.single (hnew.mono (by omega) (Nat.le_refl j)))
  · exact .single (hname.mono hik (Nat.le_refl m))

theorem requireCall : Builds T f Parser.requireCall i fun source j => Within T f i j (.literal source) := by
  unfold Parser.requireCall
  refine read (Reads.expectWord _) fun _ k hik _ => seq (expect (by decide)) fun _ m hkm => ?_
  refine bind expectString fun source n hmn => seq (expect (by decide)) fun _ j hnj => pure fun h => ?_
  exact h.mono (by omega) hnj

theorem importNames : Builds T f Parser.importNames i fun names j =>
    Parts T f i j (names.1.toList.map .ident ++ names.2.flatMap Piece.ofImport) := by
  unfold Parser.importNames
  refine eat (by decide) (fun _ => ?_) fun _ => eat (by decide) (fun _ => ?_) fun _ => ?_
  · refine read (Reads.expectWord _) fun _ k hik _ => bind expectIdent fun name j hkj => pure fun hname => ?_
    exact .single (hname.mono (by omega) (Nat.le_refl j))
  · refine bind (commaList (fun _ => importSpecifier) (grows_parts _)) fun named k hik => ?_
    refine seq (expect (by decide)) fun _ j hkj => pure fun hnamed => .flatMap fun s hs => ?_
    exact (hnamed s hs).mono (by omega) hkj
  · exact report_bind (pure fun _ => .nil)

/-- An import, which begins with a token that has been read. -/
theorem importStatement (exported : Bool) (hkind : kindOf T i = .import) :
    Builds T f (Parser.importStatement exported) i fun s j => Within T f i j (.statement s) ∧ Stretchable s := by
  unfold Parser.importStatement
  refine currentSpan (advance_bind (by rw [hkind]; decide) (read Reads.atTypeImport fun typeOnly k _ hk => ?_))
  obtain ⟨rfl, htype⟩ := hk
  extract_lets finish rest
  have hfinish (default star : Option Ident) (named : List ImportSpecifier) (n : Nat) (hn : i < n) :
      Builds T f (finish default star named) n fun s j =>
        Parts T f i n ((default.toList ++ star.toList).map .ident ++ named.flatMap Piece.ofImport) →
          Within T f i j (.statement s) ∧ Stretchable s := by
    refine bind fromSource fun source m hnm => seq expectSemicolon fun _ j hmj => spanFrom fun s hs _ => pure ?_
    intro hsource hnames
    refine ⟨.node (hs (by omega)) (.append (hnames.mono (Nat.le_refl i) (by omega)) (.single ?_)) rfl, fun _ => ⟨rfl, rfl⟩⟩
    exact hsource.mono (by omega) hmj
  have hrest (n : Nat) (hn : i < n) : Builds T f (rest ⟨⟩) n fun s j => Within T f i j (.statement s) ∧ Stretchable s := by
    refine atKind ?_
    split
    · refine bind expectString fun source m hnm => seq expectSemicolon fun _ j hmj => spanFrom fun s hs _ => pure ?_
      intro hsource
      exact ⟨.node (hs (by omega)) (.single (hsource.mono (by omega) hmj)) rfl, fun _ => ⟨rfl, rfl⟩⟩
    · refine atKind ?_
      split
      · rename_i hident
        refine bind (takeIdent (by rw [of_decide_eq_true hident]; decide)) fun name m hnm => ?_
        refine eat (by decide) (fun _ => ?_) fun _ => eat (by decide) (fun _ => ?_) fun _ => ?_
        · refine bind requireCall fun source k hmk => seq expectSemicolon fun _ j hkj => spanFrom fun s hs _ => pure ?_
          intro hsource hname
          refine ⟨.node (hs (by omega)) (.cons ?_ (.single ?_)) rfl, fun _ => ⟨rfl, rfl⟩⟩
          · exact hname.2.mono (by omega) (by omega)
          · exact hsource.mono (by omega) hkj
        · refine bind importNames fun names k hmk => ?_
          refine (hfinish (some name) names.1 names.2 k (by omega)).mono fun s j _ h hnames hname => h ?_
          refine .append (.map fun n hn => ?_) fun p hp => ?_
          · rcases List.mem_cons.mp hn with rfl | hn
            · exact hname.2.mono (by omega) (by omega)
            · exact (hnames _ (List.mem_append_left _ (List.mem_map_of_mem hn))).mono (by omega) (Nat.le_refl k)
          · exact (hnames p (List.mem_append_right _ hp)).mono (by omega) (Nat.le_refl k)
        · refine (hfinish (some name) none [] m (by omega)).mono fun s j _ h hname => h ?_
          exact .single (hname.2.mono (by omega) (Nat.le_refl m))
      · refine bind importNames fun names k hnk => ?_
        refine (hfinish none names.1 names.2 k (by omega)).mono fun s j _ h hnames => h ?_
        exact hnames.mono (by omega) (Nat.le_refl k)
  split
  · rename_i h
    exact advance_bind (by rw [htype h]; decide) (hrest _ (by omega))
  · exact hrest _ (by omega)

/-! ## Declarations -/

/-- Only a default export may lack a name. -/
theorem functionName (modifiers : Modifiers) : Builds T f (Parser.functionName modifiers) i fun name j =>
    ∀ n ∈ name, Within T f i j (.ident n) := by
  unfold Parser.functionName
  refine atKind ?_
  split
  · rename_i hident
    refine bind (takeIdent (by rw [of_decide_eq_true hident]; decide)) fun name j _ => pure fun hname => ?_
    rintro _ ⟨⟩
    exact hname.2
  · split
    · exact pure nofun
    · exact skip expectIdent fun j _ => pure nofun

section

variable (hg : Nests T f g)
include hg

theorem declarator : Builds T f (Parser.declarator g) i fun d j => Within T f i j (.declarator d) := by
  unfold Parser.declarator
  refine currentSpan (bind expectIdent fun name k hik => skip (eat_any (by decide)) fun m hkm => ?_)
  refine bind (typeAfter hg (by decide)) fun type n hmn => bind (exprAfter hg (by decide)) fun init j hnj => ?_
  refine spanFrom fun s hs _ => pure fun hinit htype hname => ?_
  have hlt := hname.lt
  refine .node (hs (by omega)) (.cons (hname.mono (Nat.le_refl i) (by omega)) (.append (.option ?_) (.option ?_))) rfl
  · exact fun t ht => (htype t ht).mono (by omega) hnj
  · exact fun e he => (hinit e he).mono (by omega) (Nat.le_refl j)

theorem variableStatement (modifiers : Modifiers) (hkind : kindOf T i ≠ .eof) :
    Builds T f (Parser.variableStatement g modifiers) i fun d j => Within T f i j (.statement (.variableDecl d)) := by
  unfold Parser.variableStatement
  refine currentSpan (current ?_)
  extract_lets kind
  refine advance_bind hkind (bind (declarator hg) fun first k hik => ?_)
  refine bind (separated (by decide) hik (fun _ => declarator hg) (grows_within _)) fun decls m hkm => ?_
  refine seq expectSemicolon fun _ j hmj => spanFrom fun s hs _ => here fun hT hj => pure fun hdecls hfirst => ?_
  refine .node (hs (by omega)) (.cons (.token hT hj (by omega) rfl rfl rfl) (.map fun d hd => ?_)) rfl
  exact (hdecls hfirst d hd).mono (Nat.le_succ i) hmj

theorem functionDecl (modifiers : Modifiers) :
    Builds T f (Parser.functionDecl g modifiers) i fun d j => Within T f i j (.statement (.function d)) := by
  unfold Parser.functionDecl
  refine currentSpan (seq (expect (by decide)) fun _ k₁ h₁ => skip (eat_any (by decide)) fun k₂ h₂ => ?_)
  refine bind (functionName modifiers) fun name k₃ h₃ => bind (typeParams hg) fun names k₄ h₄ => ?_
  refine bind (params hg) fun ps m h₅ => bind (typeAfter hg (by decide)) fun ret n hmn => atKind ?_
  extract_lets finish
  have tail (body : Option Block) (j : Nat) (hnj : n ≤ j) : Builds T f (finish body) j fun d j' =>
      (∀ b ∈ body, Within T f n j (.block b)) → (∀ t ∈ ret, Within T f m n (.type t)) →
        ((f = 0 → k₄ < m) ∧ ∀ p ∈ ps, Within T f k₄ m (.param p)) → (∀ t ∈ names, Within T f k₃ k₄ (.ident t)) →
          (∀ t ∈ name, Within T f k₂ k₃ (.ident t)) → Within T f i j' (.statement (.function d)) := by
    refine spanFrom fun s hs _ => pure fun hbody hret hps hnames hname => ?_
    have hlt := hps.1
    refine .node (hs (by omega)) (.append (.append (.append (.append (.option ?_) (.map ?_)) (.map ?_)) (.option ?_)) (.option ?_)) rfl
    · exact fun t ht => (hname t ht).mono (by omega) (by omega)
    · exact fun t ht => (hnames t ht).mono (by omega) (by omega)
    · exact fun p hp => (hps.2 p hp).mono (by omega) (by omega)
    · exact fun t ht => (hret t ht).mono (by omega) (by omega)
    · exact fun b hb => (hbody b hb).mono (by omega) (Nat.le_refl j)
  split
  · refine bind (block hg) fun body j hnj => (tail (some body) j hnj).mono fun d j' _ h hbody => h ?_
    rintro _ ⟨⟩
    exact hbody
  · exact seq expectSemicolon fun _ j hnj => (tail none j hnj).mono fun d j' _ h => h nofun

theorem interfaceDecl (modifiers : Modifiers) :
    Builds T f (Parser.interfaceDecl g modifiers) i fun d j => Within T f i j (.statement (.interface d)) := by
  unfold Parser.interfaceDecl
  refine currentSpan (seq (expect (by decide)) fun _ k₁ h₁ => bind expectIdent fun name k₂ h₂ => ?_)
  refine bind (typeParams hg) fun names k₃ h₃ => ?_
  extract_lets finish
  have tail (bases : List TypeNode) (m : Nat) (hm : k₃ ≤ m) : Builds T f (finish bases) m fun d j =>
      (∀ t ∈ bases, Within T f k₃ m (.type t)) → (∀ t ∈ names, Within T f k₂ k₃ (.ident t)) →
        Within T f k₁ k₂ (.ident name) → Within T f i j (.statement (.interface d)) := by
    refine bind (typeMembers hg) fun members j hmj => spanFrom fun s hs _ => pure fun hmembers hbases hnames hname => ?_
    have hlt := hname.lt
    refine .node (hs (by omega)) (.append (.append (.cons ?_ (.map ?_)) (.map ?_)) (.map ?_)) rfl
    · exact hname.mono h₁ (by omega)
    · exact fun t ht => (hnames t ht).mono (by omega) (by omega)
    · exact fun t ht => (hbases t ht).mono (by omega) hmj
    · exact fun m hm => (hmembers.2 m hm).mono (by omega) (Nat.le_refl j)
  refine eatWord ?_ ((tail [] k₃ (Nat.le_refl k₃)).mono fun d j _ h => h nofun)
  refine bind (typeNode hg) fun first n hn => ?_
  refine bind (separated (by decide) (show k₃ ≤ n by omega) (fun _ => typeNode hg) (grows_within _)) fun bases m hnm => ?_
  refine (tail bases m (by omega)).mono fun d j _ h hbases hfirst => h ?_
  exact hbases (hfirst.mono (by omega) (Nat.le_refl n))

theorem typeAlias (modifiers : Modifiers) (hkind : kindOf T i ≠ .eof) :
    Builds T f (Parser.typeAlias g modifiers) i fun d j => Within T f i j (.statement (.typeAlias d)) := by
  unfold Parser.typeAlias
  refine currentSpan (advance_bind hkind (bind expectIdent fun name k hik => bind (typeParams hg) fun names m hkm => ?_))
  refine seq (expect (by decide)) fun _ n hmn => bind (typeNode hg) fun type k' hk' => ?_
  refine seq expectSemicolon fun _ j hj => spanFrom fun s hs _ => pure fun htype hnames hname => ?_
  refine .node (hs (by omega)) (.append (.cons ?_ (.map ?_)) (.single ?_)) rfl
  · exact hname.mono (by omega) (by omega)
  · exact fun t ht => (hnames t ht).mono (by omega) (by omega)
  · exact htype.mono (by omega) hj

end

/-! ## Namespaces -/

/-- Dots make one name of several, which reaches from the first to the last of them. -/
theorem namespaceName : Builds T f Parser.namespaceName i fun name j => Within T f i j (.ident name) := by
  unfold Parser.namespaceName
  refine bind expectIdent fun first k hik => ?_
  refine (repeating (I := fun name m => Within T f i m (.ident name)) fun name m hkm => ?_).mono fun name j _ h hfirst => ?_
  · unfold Parser.nameStep
    refine eat (by decide) (fun _ => bind expectIdent fun next j hmj => pure fun hnext hname => ?_) fun _ => pure id
    have hlt := hname.lt
    have hname : Within T f i j (.ident name) := hname.mono (Nat.le_refl i) (by omega)
    have hnext : Within T f i j (.ident next) := hnext.mono (by omega) (Nat.le_refl j)
    refine ⟨⟨hname.lies.merge hnext.lies, by omega, fun hf outer houter => ?_, fun hf => ?_⟩, nofun, fun _ => .nil⟩
    · exact (hname.least hf outer houter).merge (hnext.least hf outer houter)
    · exact Nat.lt_of_le_of_lt (Nat.min_le_left _ _) (Nat.lt_of_lt_of_le (hname.pos hf) (Nat.le_max_left _ _))
  · exact h (hfirst.mono (Nat.le_refl i) (Nat.le_refl k))

theorem moduleName (hkind : kindOf T i = .identifier) : Builds T f Parser.moduleName i fun name j =>
    Within T f i j (Piece.ofModuleName name) := by
  have hread : kindOf T i ≠ .eof := by rw [hkind]; decide
  unfold Parser.moduleName
  refine atWord fun b _ => ?_
  cases b with
  | true =>
    exact currentSpan (advance_bind hread (here fun hT hi => pure (.token hT hi (fun _ => Nat.lt_succ_self i) rfl rfl rfl)))
  | false =>
    refine advance_bind hread (atKind ?_)
    split
    · exact bind expectString fun s j hj => pure fun h => h.mono (Nat.le_succ i) (Nat.le_refl j)
    · exact bind namespaceName fun name j hj => pure fun h => h.mono (Nat.le_succ i) (Nat.le_refl j)

/-! ## Export lists -/

theorem exportSpecifier : Builds T f Parser.exportSpecifier i fun s j => Parts T f i j (Piece.ofExport s) := by
  unfold Parser.exportSpecifier
  refine read Reads.skipType fun _ k hik _ => bind expectPropertyName fun name m hkm => ?_
  refine eatWord (bind expectPropertyName fun newName j hmj => pure fun hnew hname => ?_) (pure fun hname => ?_)
  · exact .cons (hname.mono hik (by omega)) (.single (hnew.mono (by omega) (Nat.le_refl j)))
  · exact .single (hname.mono hik (Nat.le_refl m))

theorem exportList : Builds T f Parser.exportList i fun kind j => Parts T f i j (Piece.ofExportKind kind) := by
  unfold Parser.exportList
  refine seq (expect (by decide)) fun _ k hik => ?_
  refine bind (commaList (fun _ => exportSpecifier) (grows_parts _)) fun specifiers m hkm => ?_
  refine seq (expect (by decide)) fun _ n hmn => ?_
  have hnames {j : Nat} (hnj : n ≤ j) (h : ∀ s ∈ specifiers, Parts T f k m (Piece.ofExport s)) :
      Parts T f i j (specifiers.flatMap Piece.ofExport) :=
    .flatMap fun s hs => (h s hs).mono hik (by omega)
  refine eatWord (bind expectString fun source j hnj => pure fun hsource h => ?_) (pure fun h => ?_)
  · exact .append (hnames (by omega) h) (.single (hsource.mono (by omega) (Nat.le_refl j)))
  · exact .append (hnames (Nat.le_refl n) h) .nil

theorem exportStar (hkind : kindOf T i = .star) :
    Builds T f Parser.exportStar i fun kind j => Parts T f i j (Piece.ofExportKind kind) := by
  unfold Parser.exportStar
  refine advance_bind (by rw [hkind]; decide) ?_
  extract_lets finish
  have tail (newName : Option Ident) (k : Nat) (hik : i ≤ k) : Builds T f (finish newName) k fun kind j =>
      (∀ n ∈ newName, Within T f i k (.ident n)) → Parts T f i j (Piece.ofExportKind kind) := by
    refine bind fromSource fun source j hkj => pure fun hsource hname => ?_
    refine .append (.option fun n hn => ?_) (.single (hsource.mono hik (Nat.le_refl j)))
    exact (hname n hn).mono (Nat.le_refl i) hkj
  refine eatWord ?_ ((tail none (i + 1) (Nat.le_succ i)).mono fun kind j _ h => h nofun)
  refine bind expectPropertyName fun newName k hk => (tail (some newName) k (by omega)).mono fun kind j _ h hname => h ?_
  rintro _ ⟨⟩
  exact hname.mono (by omega) (Nat.le_refl k)

section

variable (hg : Nests T f g)
include hg

theorem moduleDecl (modifiers : Modifiers) (hkind : kindOf T i = .identifier) :
    Builds T f (Parser.moduleDecl g modifiers) i fun d j => Within T f i j (.statement (.moduleDecl d)) := by
  unfold Parser.moduleDecl
  refine currentSpan (bind (moduleName hkind) fun name k hik => ?_)
  extract_lets finish
  have tail (body : Option (List Statement)) (j : Nat) (hkj : k ≤ j) : Builds T f (finish body) j fun d j' =>
      (∀ s ∈ body.getD [], Within T f k j (.statement s)) ∧ (f = 0 → InOrder (body.getD [])) →
        Within T f i k (Piece.ofModuleName name) → Within T f i j' (.statement (.moduleDecl d)) := by
    refine spanFrom fun s hs _ => pure fun hbody hname => ?_
    have hlt := hname.lt
    refine .ordered (hs (by omega)) (.cons (hname.mono (Nat.le_refl i) hkj) (.map fun s hs => ?_)) hbody.2
    exact (hbody.1 s hs).mono hik (Nat.le_refl j)
  refine eat (by decide) (fun _ => ?_) fun _ => ?_
  · refine bind (statementList hg) fun body j hkj => (tail (some body) j (by omega)).mono fun d j' _ h hbody => h ?_
    exact ⟨fun s hs => (hbody.2.1 s hs).mono (Nat.le_succ k) (Nat.le_refl j), hbody.2.2⟩
  · exact seq expectSemicolon fun _ j hkj => (tail none j hkj).mono fun d j' _ h => h ⟨nofun, fun _ => .nil⟩

/-- A declaration that begins at `i₀` with the words in front of it. -/
theorem declaration (modifiers : Modifiers) {i₀ : Nat} (hi : i₀ ≤ i) :
    Builds T f (Parser.declaration g modifiers (spanOf T i₀)) i fun s j => Within T f i₀ j (.statement s) := by
  unfold Parser.declaration
  extract_lets failed
  have hfailed (k : Nat) : Builds T f failed k fun s j => Within T f i₀ j (.statement s) := by
    refine report_bind (read Reads.recoverStatement fun _ j _ _ => spanFrom fun s _ hlies => pure fun hf => ?_)
    exact .missing hf hlies rfl
  refine read (Reads.eatWord_any _) fun declared k hik _ => ?_
  extract_lets modifiers
  have stretched {α : Type} {p : Parse α} {make : α → Statement} (hmake : ∀ d, Stretchable (make d))
      (h : Builds T f p k fun d j => Within T f k j (.statement (make d))) :
      Builds T f (p >>= fun d => Pure.pure ((make d).stretch (spanOf T i₀))) k
        fun s j => Within T f i₀ j (.statement s) :=
    bind h fun d j _ => here fun hT _ => pure fun hd => (hmake d).within hT (by omega) hd
  refine current ?_
  split <;> rename_i hkind
  · exact stretched (fun _ _ => ⟨rfl, rfl⟩) (variableStatement hg _ (by rw [hkind]; decide))
  · exact stretched (fun _ _ => ⟨rfl, rfl⟩) (variableStatement hg _ (by rw [hkind]; decide))
  · exact stretched (fun _ _ => ⟨rfl, rfl⟩) (variableStatement hg _ (by rw [hkind]; decide))
  · exact stretched (fun _ _ => ⟨rfl, rfl⟩) (functionDecl hg _)
  · exact stretched (fun _ _ => ⟨rfl, rfl⟩) (interfaceDecl hg _)
  · refine currentText ?_
    split
    · exact stretched (fun _ _ => ⟨rfl, rfl⟩) (typeAlias hg _ (by rw [hkind]; decide))
    · split
      · exact stretched (fun _ _ => ⟨rfl, rfl⟩) (moduleDecl hg _ hkind)
      · exact hfailed k
  · exact hfailed k

theorem exportStatement (hkind : kindOf T i = .export) :
    Builds T f (Parser.exportStatement g) i fun s j => Within T f i j (.statement s) := by
  unfold Parser.exportStatement
  refine currentSpan (advance_bind (by rw [hkind]; decide) ?_)
  extract_lets finish
  have hfinish (kind : ExportKind) (k : Nat) (hik : i < k) : Builds T f (finish kind) k fun s j =>
      Parts T f i k (Piece.ofExportKind kind) → Within T f i j (.statement s) := by
    refine seq expectSemicolon fun _ j hkj => spanFrom fun s hs _ => pure fun h => ?_
    exact .node (hs (by omega)) (h.mono (Nat.le_refl i) hkj) rfl
  have hparts {p : Parse ExportKind} {k : Nat} (hik : i < k)
      (h : Builds T f p k fun kind j => Parts T f k j (Piece.ofExportKind kind)) :
      Builds T f (p >>= finish) k fun s j => Within T f i j (.statement s) :=
    bind h fun kind m hkm => (hfinish kind m (by omega)).mono fun s j _ h hkind => h (hkind.mono (by omega) (Nat.le_refl m))
  have hvalue (make : Expr → ExportKind) (hmake : ∀ e, Piece.ofExportKind (make e) = [.expr e]) (k : Nat) (hik : i < k) :
      Builds T f (Parser.exprNode g >>= fun e => finish (make e)) k fun s j => Within T f i j (.statement s) := by
    refine bind (exprNode hg) fun e m hkm => (hfinish (make e) m (by omega)).mono fun s j _ h he => h ?_
    rw [hmake]
    exact .single (he.mono (by omega) (Nat.le_refl m))
  refine current ?_
  split <;> rename_i hnext
  · exact hparts (Nat.lt_succ_self i) (exportStar hnext)
  · exact hparts (Nat.lt_succ_self i) exportList
  · exact advance_bind (by rw [hnext]; decide) (hvalue .assignment (fun _ => rfl) _ (by omega))
  · refine advance_bind (by rw [hnext]; decide) (current ?_)
    split
    · refine bind (functionDecl hg _) fun d j hij => spanFrom fun s hs _ => pure fun h => ?_
      exact (h.mono (by omega) (Nat.le_refl j)).withSpan (hs (by omega)) rfl rfl
    · refine bind (interfaceDecl hg _) fun d j hij => spanFrom fun s hs _ => pure fun h => ?_
      exact (h.mono (by omega) (Nat.le_refl j)).withSpan (hs (by omega)) rfl rfl
    · exact hvalue .default (fun _ => rfl) _ (by omega)
  · exact bind (importStatement true hnext) fun s j _ => here fun hT _ => pure fun h => h.2.within hT (Nat.le_succ i) h.1
  · refine atWord fun b hb => kindAt ?_
    split
    · rename_i htype
      refine advance_bind (by rw [hb (by simp at htype; exact htype.1)]; decide) (hparts (by omega) exportList)
    · exact declaration hg _ (Nat.le_succ i)

/-! ## Statements -/

theorem ifStatement (hkind : kindOf T i ≠ .eof) :
    Builds T f (Parser.ifStatement g) i fun d j => Within T f i j (.statement (.ifElse d)) := by
  unfold Parser.ifStatement
  refine currentSpan (advance_bind hkind (seq (expect (by decide)) fun _ k hik => ?_))
  refine bind (exprNode hg) fun condition m hkm => seq (expect (by decide)) fun _ n hmn => ?_
  refine bind (hg.statement n) fun thenBranch n' hn' => ?_
  extract_lets finish
  have tail (elseBranch : Option Statement) (j : Nat) (hj : n' ≤ j) : Builds T f (finish elseBranch) j fun d j' =>
      (∀ s ∈ elseBranch, Within T f n' j (.statement s)) → Within T f n n' (.statement thenBranch) →
        Within T f k m (.expr condition) → Within T f i j' (.statement (.ifElse d)) := by
    refine spanFrom fun s hs _ => pure fun helse hthen hcondition => ?_
    refine .node (hs (by omega)) (.cons ?_ (.cons ?_ (.option fun s hs => ?_))) rfl
    · exact hcondition.mono (by omega) (by omega)
    · exact hthen.mono (by omega) hj
    · exact (helse s hs).mono (by omega) (Nat.le_refl j)
  refine eat (by decide) (fun _ => ?_) fun _ => (tail none n' (Nat.le_refl n')).mono fun d j _ h => h nofun
  refine bind (hg.statement (n' + 1)) fun elseBranch j hj => (tail (some elseBranch) j (by omega)).mono fun d j' _ h helse => h ?_
  rintro _ ⟨⟩
  exact helse.mono (Nat.le_succ n') (Nat.le_refl j)

theorem returnStatement (hkind : kindOf T i ≠ .eof) :
    Builds T f (Parser.returnStatement g) i fun d j => Within T f i j (.statement (.ret d)) := by
  unfold Parser.returnStatement
  refine currentSpan (advance_bind hkind (atKind (atKind (atEnd (newlineBefore ?_)))))
  extract_lets bare finish
  have tail (value : Option Expr) (k : Nat) (hik : i < k) : Builds T f (finish value) k fun d j =>
      (∀ e ∈ value, Within T f i k (.expr e)) → Within T f i j (.statement (.ret d)) := by
    refine seq expectSemicolon fun _ j hkj => spanFrom fun s hs _ => pure fun hvalue => ?_
    exact .node (hs (by omega)) (.option fun e he => (hvalue e he).mono (Nat.le_refl i) hkj) rfl
  split
  · exact (tail none (i + 1) (Nat.lt_succ_self i)).mono fun d j _ h => h nofun
  · have hvalue : Builds T f (some <$> Parser.exprNode g) (i + 1) fun value j => ∀ e ∈ value, Within T f i j (.expr e) := by
      refine bind (exprNode hg) fun e j hij => pure fun he => ?_
      rintro _ ⟨⟩
      exact he.mono (Nat.le_succ i) (Nat.le_refl j)
    exact bind hvalue fun value k hik => tail value k hik

theorem expressionStatement :
    Builds T f (Parser.expressionStatement g) i fun s j => Within T f i j (.statement s) := by
  unfold Parser.expressionStatement
  refine remaining (bind (exprNode hg) fun e k hik => here fun _ hk => remaining ?_)
  split
  · -- Nothing has been read, so the expression is missing.
    refine pure fun he => .missing (fun hf => ?_) he.lies rfl
    have := he.lt hf
    omega
  · refine seq expectSemicolon fun _ j hkj => pure fun he => ?_
    exact (he.mono (Nat.le_refl i) hkj).wrap rfl rfl rfl

theorem statementForm : Builds T f (Parser.statementForm g) i fun s j => Within T f i j (.statement s) := by
  unfold Parser.statementForm
  refine current ?_
  split <;> rename_i hkind
  · refine kindAt ?_
    split
    · exact expressionStatement hg
    · exact expressionStatement hg
    · exact (importStatement false hkind).mono fun _ _ _ h => h.1
  · exact exportStatement hg hkind
  · exact bind (variableStatement hg _ (by rw [hkind]; decide)) fun _ _ _ => pure id
  · exact bind (variableStatement hg _ (by rw [hkind]; decide)) fun _ _ _ => pure id
  · exact bind (variableStatement hg _ (by rw [hkind]; decide)) fun _ _ _ => pure id
  · exact bind (functionDecl hg _) fun _ _ _ => pure id
  · exact bind (interfaceDecl hg _) fun _ _ _ => pure id
  · exact bind (ifStatement hg (by rw [hkind]; decide)) fun _ _ _ => pure id
  · exact bind (block hg) fun _ _ _ => pure fun h => h.wrap rfl rfl rfl
  · exact bind (returnStatement hg (by rw [hkind]; decide)) fun _ _ _ => pure id
  · refine currentSpan (advance_bind (by rw [hkind]; decide) (here fun hT hi => pure ?_))
    exact .token hT hi (fun _ => Nat.lt_succ_self i) rfl rfl rfl
  · refine read Reads.atDeclarationWord fun b k _ hk => ?_
    obtain rfl := hk
    split
    · exact currentSpan (read (Reads.eatWord_any _) fun declared m hkm _ => declaration hg _ hkm)
    · exact expressionStatement hg
  · exact expressionStatement hg

theorem statementNode : Builds T f (Parser.statementNode g) i fun s j => Within T f i j (.statement s) := by
  unfold Parser.statementNode
  refine remaining (bind (statementForm hg) fun s k hik => remaining ?_)
  split
  · refine currentSpan (report_bind (read Reads.recoverStatement fun _ j _ _ => here fun hT _ => pure fun hf _ => ?_))
    exact .missing hf (.token hT k) rfl
  · exact pure id

/-- The statements of a text are read from its first token on. -/
theorem program : Builds T f (Parser.program g) 0 fun statements j =>
    (∀ s ∈ statements, Within T f 0 j (.statement s)) ∧ (f = 0 → InOrder statements) := by
  unfold Parser.program
  refine bind (repeating (I := Listed T f 0) ?_) fun items k _ => pure fun h => (h .nil).reverse
  intro items k hk
  unfold Parser.programStep
  refine atEnd ?_
  split
  · exact pure id
  · refine atKind ?_
    split
    · rename_i hbrace
      refine report_bind (advance_bind (by rw [of_decide_eq_true hbrace]; decide) (pure fun _ hitems => ?_))
      exact hitems.mono (Nat.le_succ k)
    · refine bind (statementNode hg) fun s m hkm => here fun hT hm => pure fun hs hitems => ?_
      exact hitems.cons hT hm hk hkm hs

end

end Builds

end Recheck.Syntax.Parser
