import Recheck.Proofs.Syntax.Building

/-!
# Where types, parameters and blocks lie
-/

set_option autoImplicit false

namespace Recheck.Syntax.Parser

variable {T : List Token} {f i j : Nat} {g : Grammar}

/-- The parts of a grammar build what lies where it is read, wherever they are asked for. -/
structure Nests (T : List Token) (f : Nat) (g : Grammar) : Prop where
  type : ∀ i, Builds T f g.type i fun t j => Within T f i j (.type t)
  postfixType : ∀ i, Builds T f g.postfixType i fun t j => Within T f i j (.type t)
  expr : ∀ i, Builds T f g.expr i fun e j => Within T f i j (.expr e)
  binary : ∀ power i, Builds T f (g.binary power) i fun e j => Within T f i j (.expr e)
  unary : ∀ i, Builds T f g.unary i fun e j => Within T f i j (.expr e)
  statement : ∀ i, Builds T f g.statement i fun s j => Within T f i j (.statement s)

namespace Builds

/-! ## What types, expressions and declarations share -/

section

variable (hg : Nests T f g)
include hg

theorem typeAfter {k : TokenKind} (hk : k ≠ .eof) :
    Builds T f (Parser.typeAfter g k) i fun type j => ∀ t ∈ type, Within T f i j (.type t) := by
  unfold Parser.typeAfter
  refine eat hk (fun _ => bind (hg.type (i + 1)) fun t j _ => pure ?_) fun _ => pure nofun
  rintro h _ ⟨⟩
  exact h.mono (Nat.le_succ i) (Nat.le_refl j)

theorem exprAfter {k : TokenKind} (hk : k ≠ .eof) :
    Builds T f (Parser.exprAfter g k) i fun value j => ∀ e ∈ value, Within T f i j (.expr e) := by
  unfold Parser.exprAfter
  refine eat hk (fun _ => bind (hg.expr (i + 1)) fun e j _ => pure ?_) fun _ => pure nofun
  rintro h _ ⟨⟩
  exact h.mono (Nat.le_succ i) (Nat.le_refl j)

theorem typeParam : Builds T f (Parser.typeParam g) i fun name j => Within T f i j (.ident name) := by
  unfold Parser.typeParam
  refine skip (of_reads (Reads.eatWord_any _)) fun k hik => bind expectIdent fun name m hkm => ?_
  have last {n : Nat} (hn : m ≤ n) : Builds T f (Functor.discard (Parser.typeAfter g .eq) >>= fun _ => Pure.pure name) n
      fun name j => Within T f k m (.ident name) → Within T f i j (.ident name) :=
    skip (typeAfter hg (by decide)) fun j hj => pure fun h => h.mono hik (Nat.le_trans hn hj)
  refine eatWord ?_ (last (Nat.le_refl m))
  exact skip (hg.type (m + 1)) fun n hn => last (Nat.le_of_succ_le hn)

theorem typeParams : Builds T f (Parser.typeParams g) i fun names j => ∀ name ∈ names, Within T f i j (.ident name) := by
  unfold Parser.typeParams
  refine eat (by decide) (fun _ => ?_) fun _ => pure nofun
  refine bind (commaList (fun _ => typeParam hg) (grows_within _)) fun names k _ => ?_
  refine seq (expect (by decide)) fun _ j hkj => pure fun h name hname => ?_
  exact (h name hname).mono (Nat.le_succ i) hkj

theorem param : Builds T f (Parser.param g) i fun p j => Within T f i j (.param p) := by
  unfold Parser.param
  refine currentSpan (seq (eat_any (by decide)) fun rest k hik => atKind ?_)
  extract_lets next
  have tail (name : Ident) (m : Nat) (hkm : k ≤ m) :
      Builds T f (next name) m fun p j => Within T f k m (.ident name) → Within T f i j (.param p) := by
    refine seq (eat_any (by decide)) fun optional m₁ h₁ => bind (typeAfter hg (by decide)) fun type m₂ h₂ => ?_
    refine bind (exprAfter hg (by decide)) fun default j hj => spanFrom fun s hs _ => pure fun hdefault htype hname => ?_
    have hlt := hname.lt
    refine .node (hs (by omega)) (.cons (hname.mono hik (by omega)) (.append (.option ?_) (.option ?_))) rfl
    · exact fun t ht => (htype t ht).mono (by omega) hj
    · exact fun e he => (hdefault e he).mono (by omega) (Nat.le_refl j)
  split
  · rename_i hthis
    refine bind (takeIdent (by rw [of_decide_eq_true hthis]; decide)) fun name m hkm => ?_
    exact (tail name m hkm).mono fun _ _ _ h hname => h hname.2
  · exact bind expectIdent fun name m hkm => tail name m hkm

theorem params : Builds T f (Parser.params g) i fun ps j => (f = 0 → i < j) ∧ ∀ p ∈ ps, Within T f i j (.param p) := by
  unfold Parser.params
  refine bind (expect (by decide)) fun _ k hik => bind (commaList (fun _ => param hg) (grows_within _)) fun ps m hkm => ?_
  refine seq (expect (by decide)) fun _ j hmj => pure fun hps hopen => ⟨by omega, fun p hp => ?_⟩
  exact (hps p hp).mono hik hmj

theorem statementList : Builds T f (Parser.statementList g) i fun statements j =>
    (f = 0 → i < j) ∧ (∀ s ∈ statements, Within T f i j (.statement s)) ∧ (f = 0 → InOrder statements) := by
  unfold Parser.statementList
  refine bind (repeating (I := Listed T f i) ?_) fun items k hik => bind (expect (by decide)) fun _ j hkj => pure ?_
  · intro items k hik
    unfold Parser.statementStep
    refine atEnd (atKind ?_)
    split
    · exact pure id
    · refine bind (hg.statement k) fun s m hkm => here fun hT hm => pure fun hs hitems => ?_
      exact hitems.cons hT hm hik hkm hs
  · intro hclose hitems
    exact ⟨by omega, ((hitems .nil).mono hkj).reverse⟩

theorem block : Builds T f (Parser.block g) i fun b j => Within T f i j (.block b) := by
  unfold Parser.block
  refine currentSpan (bind (expect (by decide)) fun _ k hik => bind (statementList hg) fun statements j hkj => ?_)
  refine spanFrom fun s hs _ => pure fun hstatements hopen => ?_
  refine .ordered (hs (by omega)) (.map fun s hs => ?_) hstatements.2.2
  exact (hstatements.2.1 s hs).mono hik (Nat.le_refl j)

end

/-! ## Types -/

theorem dottedName : Builds T f Parser.dottedName i fun names j =>
    (f = 0 → i < j) ∧ ∀ name ∈ names, Within T f i j (.ident name) := by
  unfold Parser.dottedName
  refine bind expectIdent fun first k hik => ?_
  refine (separated (by decide) hik (fun _ => expectPropertyName) (grows_within _)).mono fun names j hkj h hfirst => ?_
  have hlt := hfirst.lt
  exact ⟨by omega, h hfirst⟩

/-- Types joined by an operator lie in the type they make. -/
theorem joined {operator : TokenKind} (hop : operator ≠ .eof) {part : Parse TypeNode} {join : List TypeNode → TypeKind}
    (hjoin : ∀ members, Piece.ofType (join members) = members.map .type)
    (hpart : ∀ k, Builds T f part k fun type j => Within T f k j (.type type)) :
    Builds T f (Parser.joined operator part join) i fun type j => Within T f i j (.type type) := by
  unfold Parser.joined
  refine currentSpan (skip (eat_any hop) fun k hik => bind (hpart k) fun first m hkm => atKind ?_)
  split
  · refine bind (separated hop hkm hpart (grows_within _)) fun members j hmj => spanFrom fun s hs _ => pure ?_
    intro hmembers hfirst
    have hlt := hfirst.lt
    have hparts : Parts T f i j (Piece.ofType (join members)) := by
      rw [hjoin]
      exact .map fun t ht => (hmembers hfirst t ht).mono hik (Nat.le_refl j)
    exact .node (hs (by omega)) hparts rfl
  · exact pure fun hfirst => hfirst.mono hik (Nat.le_refl m)

section

variable (hg : Nests T f g)
include hg

theorem typeReference : Builds T f (Parser.typeReference g) i fun kind j => Fills T f i j (Piece.ofType kind) := by
  unfold Parser.typeReference
  refine bind dottedName fun name k hik => atKind (newlineBefore ?_)
  split
  · rename_i hopen
    have hkind : kindOf T k = .lt := by simp at hopen; exact hopen.1
    refine advance_bind (by rw [hkind]; decide) (bind (commaList hg.type (grows_within _)) fun args m hkm => ?_)
    refine seq (expect (by decide)) fun _ j hmj => pure fun hargs hname => ⟨by omega, .append (.map ?_) (.map ?_)⟩
    · exact fun n hn => (hname.2 n hn).mono (Nat.le_refl i) (by omega)
    · exact fun t ht => (hargs t ht).mono (by omega) hmj
  · refine pure fun hname => ⟨hname.1, ?_⟩
    exact .append (.map hname.2) (.map nofun)

theorem functionType : Builds T f (Parser.functionType g) i fun kind j => Fills T f i j (Piece.ofType kind) := by
  unfold Parser.functionType
  refine bind (params hg) fun ps k hik => seq (expect (by decide)) fun _ m hkm => bind (hg.type m) fun ret j hmj => pure ?_
  intro hret hps
  refine ⟨by omega, .append (.map fun p hp => ?_) (.single (hret.mono (by omega) (Nat.le_refl j)))⟩
  exact (hps.2 p hp).mono (Nat.le_refl i) (by omega)

/-- The member begins at `i₀`, with a token that has been read. -/
theorem indexMember {i₀ : Nat} (h₀ : i₀ < i) :
    Builds T f (Parser.indexMember g (spanOf T i₀)) i fun m j => Within T f i₀ j (.member m) := by
  unfold Parser.indexMember
  refine skip expectIdent fun k₁ h₁ => seq (expect (by decide)) fun _ k₂ h₂ => skip (hg.type k₂) fun k₃ h₃ => ?_
  refine seq (expect (by decide)) fun _ k₄ h₄ => seq (expect (by decide)) fun _ k₅ h₅ => ?_
  refine bind (hg.type k₅) fun type j hj => spanFrom fun s hs _ => here fun hT hlt => pure fun htype => ?_
  refine .node (hs (by omega)) (.cons (.token hT hlt (by omega) rfl rfl rfl) (.option ?_)) rfl
  rintro _ ⟨⟩
  exact htype.mono (by omega) (Nat.le_refl j)

theorem methodType : Builds T f (Parser.methodType g) i fun type j => Within T f i j (.type type) := by
  unfold Parser.methodType
  refine currentSpan (skip (typeParams hg) fun k hik => bind (params hg) fun ps m hkm => ?_)
  refine bind (typeAfter hg (by decide)) fun ret j hmj => spanFrom fun s hs _ => here fun hT hj => pure fun hret hps => ?_
  have hlt := hps.1
  refine .node (hs (by omega)) (.append (.map fun p hp => (hps.2 p hp).mono hik hmj) (.single ?_)) rfl
  cases ret with
  | some type => exact (hret type rfl).mono (by omega) (Nat.le_refl j)
  | none => exact .token hT hj (by omega) rfl rfl rfl

/-- Where nothing can be read there is no member. -/
theorem namedMember {i₀ : Nat} (h₀ : i₀ ≤ i) : Builds T f (Parser.namedMember g (spanOf T i₀)) i fun m j =>
    ∀ m' ∈ m, Within T f i₀ j (.member m') := by
  unfold Parser.namedMember
  refine remaining (bind expectPropertyName fun name k hik => seq (eat_any (by decide)) fun optional m hkm => ?_)
  refine atKind (atKind ?_)
  extract_lets last
  have tail (type : Option TypeNode) (n : Nat) (hn : k ≤ n) : Builds T f (last type) n fun m' j =>
      (∀ t ∈ type, Within T f k n (.type t)) → Within T f i k (.ident name) → ∀ m ∈ m', Within T f i₀ j (.member m) := by
    refine remaining ?_
    split
    · exact pure fun _ _ => nofun
    · refine spanFrom fun s hs _ => pure fun htype hname => ?_
      rintro _ ⟨⟩
      have hlt := hname.lt
      refine .node (hs (by omega)) (.cons (hname.mono h₀ hn) (.option fun t ht => ?_)) rfl
      exact (htype t ht).mono (by omega) (Nat.le_refl n)
  split
  · refine bind (methodType hg) fun type n hmn => (tail (some type) n (by omega)).mono fun m' j _ h htype hname => ?_
    refine h ?_ hname
    rintro _ ⟨⟩
    exact htype.mono hkm (Nat.le_refl n)
  · refine bind (typeAfter hg (by decide)) fun type n hmn => (tail type n (by omega)).mono fun m' j _ h htype hname => ?_
    exact h (fun t ht => (htype t ht).mono hkm (Nat.le_refl n)) hname

theorem typeMembers : Builds T f (Parser.typeMembers g) i fun members j =>
    (f = 0 → i < j) ∧ ∀ m ∈ members, Within T f i j (.member m) := by
  unfold Parser.typeMembers
  have hgrows : Grows fun i j m => Within T f i j (.member m) := grows_within _
  refine bind (expect (by decide)) fun _ k hik => ?_
  refine bind (repeating (I := fun items n => ∀ m ∈ items, Within T f k n (.member m)) ?_) fun items n hkn => ?_
  · intro items k₁ h₁
    unfold Parser.memberStep
    refine atEnd (atKind ?_)
    split
    · exact pure id
    · refine currentSpan (read Reads.skipReadonly fun _ k₂ h₂ _ => eat (by decide) (fun _ => ?_) fun _ => ?_)
      · refine bind (indexMember hg (by omega)) fun m k₃ h₃ => read Reads.memberEnd fun _ j hj _ => pure ?_
        exact fun hm hitems => hgrows.all hj (hgrows.cons h₁ (by omega) hitems hm)
      · refine bind (namedMember hg h₂) fun m k₃ h₃ => ?_
        cases m with
        | some m =>
          refine read Reads.memberEnd fun _ j hj _ => pure fun hm hitems => ?_
          exact hgrows.all hj (hgrows.cons h₁ (by omega) hitems (hm m rfl))
        | none =>
          refine read Reads.advance_any fun _ j hj _ => pure fun _ hitems => ?_
          exact hgrows.all (by omega) hitems
  · refine bind (expect (by decide)) fun _ j hnj => pure fun _ hitems hopen => ⟨by omega, fun m hm => ?_⟩
    exact (hitems nofun m (List.mem_reverse.mp hm)).mono hik hnj

/-! ### Forms of types -/

theorem tupleElement : Builds T f (Parser.tupleElement g) i fun type j => Within T f i j (.type type) := by
  unfold Parser.tupleElement
  refine skip (eat_any (by decide)) fun k hik => bind (hg.type k) fun type m hkm => ?_
  exact skip (eat_any (by decide)) fun j hmj => pure fun htype => htype.mono hik hmj

theorem wordType {i₀ : Nat} (h₀ : i₀ ≤ i) (hkind : kindOf T i = .identifier) :
    Builds T f (Parser.wordType g (spanOf T i₀)) i fun type j => Within T f i₀ j (.type type) := by
  have hread : kindOf T i ≠ .eof := by rw [hkind]; decide
  unfold Parser.wordType
  refine currentText ?_
  split
  · exact advance_bind hread (spanFrom fun s hs _ => pure (.node (hs (by omega)) .nil rfl))
  · refine kindAt ?_
    split
    · refine advance_bind hread (bind (hg.postfixType (i + 1)) fun inner j hij => ?_)
      split
      · exact spanFrom fun s hs _ => pure fun _ => .node (hs (by omega)) .nil rfl
      · exact pure fun hinner => hinner.mono (by omega) (Nat.le_refl j)
    · refine bind (typeReference hg) fun kind j hij => spanFrom fun s hs _ => pure fun h => ?_
      have hlt := h.lt
      exact .node (hs (by omega)) (h.parts.mono h₀ (Nat.le_refl j)) rfl

theorem otherType : Builds T f (Parser.otherType g) i fun kind j => Fills T f i j (Piece.ofType kind) := by
  have hleaf {j : Nat} (h : f = 0 → i < j) : Fills T f i j [] := ⟨h, .nil⟩
  unfold Parser.otherType
  refine current ?_
  split <;> rename_i hkind
  · exact advance_bind (by rw [hkind]; decide) (pure (hleaf (by omega)))
  · exact advance_bind (by rw [hkind]; decide) (pure (hleaf (by omega)))
  · exact advance_bind (by rw [hkind]; decide) (pure (hleaf (by omega)))
  · exact advance_bind (by rw [hkind]; decide) (pure (hleaf (by omega)))
  · exact bind expectString fun _ j _ => pure fun h => hleaf h.lt
  · exact advance_bind (by rw [hkind]; decide) (pure (hleaf (by omega)))
  · exact currentText (advance_bind (by rw [hkind]; decide) (pure (hleaf (by omega))))
  · refine kindAt ?_
    split
    · rename_i hnumber
      refine advance_bind (by rw [hkind]; decide) (currentText ?_)
      exact advance_bind (by rw [hnumber]; decide) (pure (hleaf (by omega)))
    · exact report_bind (pure fun hf => hleaf fun h => absurd h hf)
  · refine advance_bind (by rw [hkind]; decide) (bind dottedName fun name j hij => pure fun hname => ⟨by omega, ?_⟩)
    exact .map fun n hn => (hname.2 n hn).mono (Nat.le_succ i) (Nat.le_refl j)
  · exact bind (typeMembers hg) fun members j hij => pure fun h => ⟨h.1, .map h.2⟩
  · refine advance_bind (by rw [hkind]; decide) (bind (commaList (fun _ => tupleElement hg) (grows_within _)) fun ts k hik => ?_)
    refine seq (expect (by decide)) fun _ j hkj => pure fun h => ⟨by omega, .map fun t ht => ?_⟩
    exact (h t ht).mono (Nat.le_succ i) hkj
  · refine skip (typeParams hg) fun k hik => (functionType hg).mono fun kind j hkj h => h.mono hik (Nat.le_refl j)
  · refine advance_bind (by rw [hkind]; decide) (skip (typeParams hg) fun k hik => ?_)
    exact (functionType hg).mono fun kind j hkj h => h.mono (by omega) (Nat.le_refl j)
  · exact report_bind (pure fun hf => hleaf fun h => absurd h hf)

theorem primaryType : Builds T f (Parser.primaryType g) i fun type j => Within T f i j (.type type) := by
  unfold Parser.primaryType
  refine currentSpan (current ?_)
  split <;> rename_i hkind
  · exact wordType hg (Nat.le_refl i) hkind
  · refine read Reads.atFunctionType fun b k _ hk => ?_
    subst hk
    split
    · exact bind (functionType hg) fun kind j hkj => spanFrom fun s hs _ => pure fun h => .node (hs h.lt) h.parts rfl
    · refine advance_bind (by rw [hkind]; decide) (bind (hg.type (k + 1)) fun inner m hkm => ?_)
      refine seq (expect (by decide)) fun _ j hmj => spanFrom fun s hs _ => pure fun h => ?_
      exact (h.mono (by omega) hmj).withSpan (hs (by omega)) rfl rfl
  · refine bind (otherType hg) fun kind j hij => spanFrom fun s hs _ => pure fun h => ?_
    exact .node (hs h.lt) h.parts rfl

theorem postfixType : Builds T f (Parser.postfixType g) i fun type j => Within T f i j (.type type) := by
  unfold Parser.postfixType
  refine currentSpan (bind (primaryType hg) fun type k hik => ?_)
  refine (repeating (I := fun type m => Within T f i m (.type type)) ?_).mono fun last j _ h htype => h htype
  intro type m hkm
  unfold Parser.bracketStep
  refine atKind (newlineBefore ?_)
  split
  · rename_i hopen
    have hkind : kindOf T m = .lBracket := by simp at hopen; exact hopen.1
    refine advance_bind (by rw [hkind]; decide) (eat (by decide) (fun _ => ?_) fun _ => ?_)
    · refine spanFrom fun s hs _ => pure fun htype => .node (hs (by omega)) (.single ?_) rfl
      exact htype.mono (Nat.le_refl i) (by omega)
    · refine skip (hg.type (m + 1)) fun k₁ h₁ => seq (expect (by decide)) fun _ j hj => spanFrom fun s hs _ => pure ?_
      exact fun _ => .node (hs (by omega)) .nil rfl
  · exact pure id

theorem intersectionType : Builds T f (Parser.intersectionType g) i fun type j => Within T f i j (.type type) :=
  joined (by decide) (fun _ => rfl) fun _ => postfixType hg

theorem typeNode : Builds T f (Parser.typeNode g) i fun type j => Within T f i j (.type type) :=
  joined (by decide) (fun _ => rfl) fun _ => intersectionType hg

end

end Builds

end Recheck.Syntax.Parser
