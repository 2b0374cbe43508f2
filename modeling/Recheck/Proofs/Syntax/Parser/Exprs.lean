import Recheck.Proofs.Syntax.Parser.Types

/-!
# Reading expressions
-/

set_option autoImplicit false

namespace Recheck.Syntax.Parser

variable {T : List Token} {i j : Nat} {g g' : Grammar}

namespace Reads

/-! ## Lists -/

theorem argument (hg : Agree T i g g') :
    Reads T (Parser.argument g) (Parser.argument g') i fun e j => ExprReads T i j e := by
  unfold Parser.argument
  refine bind (eat_any (by decide)).discard fun _ k hik _ _ => ?_
  exact (hg.expr k hik).mono fun e j _ _ h => h.mono hik (Nat.le_refl j)

theorem arguments (hg : Agree T (i + 1) g g') (hkind : kindOf T i = .lParen) :
    Reads T (Parser.arguments g) (Parser.arguments g') i fun args j => Row 1 (ExprReads T) (i + 1) j args := by
  unfold Parser.arguments
  refine bind (expect (by decide)) fun _ k _ _ hk => ?_
  obtain rfl := hk.2 hkind
  refine bind (commaList fun m hm => argument (hg.mono hm)) fun args m _ _ hargs => ?_
  exact bind (expect (by decide)) fun _ j hmj _ _ => pure (hargs.extend hmj)

theorem itemStep (hg : Agree T j g g') {items : List Expr} :
    Reads T (Parser.itemStep g items) (Parser.itemStep g' items) j
      (Round (Behind 0 (ExprReads T) i) (fun items k => Row 0 (ExprReads T) i k items.reverse) items j) := by
  unfold Parser.itemStep
  refine atEnd (atKind ?_)
  split
  · exact pure Behind.row
  · refine eat (by decide) (fun _ => pure ⟨Nat.lt_succ_self j, fun hitems => hitems.mono (Nat.le_succ j)⟩) fun _ => ?_
    refine bind (argument hg) fun e k hjk _ he => eat (by decide) (fun _ => pure ⟨by omega, ?_⟩) fun _ => pure ?_
    · exact fun hitems => (hitems.cons (Nat.le_refl j) hjk he).mono (Nat.le_succ k)
    · exact fun hitems => hitems.row_cons (Nat.le_refl j) hjk he

theorem arrayItems (hg : Agree T i g g') :
    Reads T (Parser.arrayItems g) (Parser.arrayItems g') i fun items j => Row 0 (ExprReads T) i j items := by
  unfold Parser.arrayItems
  refine bind (repeating (I := Behind 0 (ExprReads T) i) (R := fun items j => Row 0 (ExprReads T) i j items.reverse) ?_
    .start) fun items k _ _ hitems => ?_
  · exact fun items k hik => itemStep (hg.mono hik)
  · exact bind (expect (by decide)) fun _ j hkj _ _ => pure (hitems.extend hkj)

/-! ## Functions and properties -/

/-- The function from its parameters on. -/
theorem functionRest (hT : Ruled T) (hg : Agree T i g g') :
    Reads T (Parser.functionRest g) (Parser.functionRest g') i fun kind j =>
      ∃ k, i ≤ k ∧ k ≤ j ∧ (kindOf T i = .lParen ∨ kindOf T i = .lt → i < k) ∧
        (∀ lo, lo + 1 ≤ k → Fits T lo k j 2 2 kind.content) ∧ Deep T k kind.content.spots ∧
        ∃ ps ret body, kind = .function ps ret body := by
  unfold Parser.functionRest
  refine bind (typeParams hT (hg.mono (by omega))).discard fun _ m him _ ⟨_, hm⟩ => ?_
  refine bind (params hT (hg.mono (by omega))) fun ps n hmn _ ⟨k, hmk, hkn, hk, hps, hdeep, _⟩ => ?_
  refine bind (typeAfter hT (hg.mono (by omega)) (by decide)) fun ret m₁ hnm₁ _ hret => ?_
  refine bind (block hT (hg.mono (by omega)) fun _ => hg.mono (by omega)) fun b j hmj _ ⟨k', hk', hkj', _, hb⟩ => pure ?_
  refine ⟨k, by omega, by omega, ?_, fun lo hlo => ?_, ?_, ps, ret, _, rfl⟩
  · rintro (h | h)
    · by_cases him : m = i
      · subst him
        exact hk h
      · omega
    · have := hm h
      omega
  · rw [← FunctionBody.content_block] at hb
    have hrest : Fits T n n j 2 0 (typeContent? ret ++ (FunctionBody.block b).content) :=
      (hret.mono hT (by omega) : Fits T n n m₁ 2 0 _).append hT hb (by omega)
    exact (((hps lo hlo).mono hT (by omega) : Fits T lo k n 2 1 _).append hT hrest (by omega)).declaring
  · rw [← FunctionBody.content_block] at hb
    exact hdeep.append ((hret.placed.deep.mono hT (by omega)).append (hb.placed.deep.mono hT (by omega)))

/-- The value stands behind the name, unless it is the variable of that name. -/
theorem propertyValue (hT : Ruled T) (hg : Agree T i g g') (name : Ident) :
    Reads T (Parser.propertyValue g name) (Parser.propertyValue g' name) i fun e j =>
      e = ⟨.ident name.name, name.span⟩ ∧ j = i ∨ Fits T i i j 1 0 e.bareContent := by
  unfold Parser.propertyValue
  refine eat (by decide) (fun _ => ?_) fun _ => atKind (atKind ?_)
  · refine (hg.expr (i + 1) (Nat.le_succ i)).mono fun e j hj _ h => .inr ?_
    exact ((h.fits hT).mono hT (by omega)).bare
  · split
    · rename_i hkind
      refine currentSpan (bind (functionRest hT hg) fun kind j _ hj ⟨k, hik, hkj, hk, hfits, hdeep, hfun⟩ => spanFrom (pure (.inr ?_)))
      have hik := hk (by simpa using hkind)
      have hread : KindReads T i j kind := {
        fits := (hfits i hik).mono hT (by omega)
        proper := hdeep.proper hT hik (by omega)
        ident := by
          obtain ⟨ps, ret, body, rfl⟩ := hfun
          exact nofun }
      exact ((ExprReads.of_kind hread (by omega) hj).fits hT).bare
    · exact pure (.inl ⟨rfl, rfl⟩)

/-- What is said of a property that is read behind the token `lo`. -/
structure PropertyReads (T : List Token) (i j : Nat) (p : Property) : Prop where
  fits : ∀ lo, lo + 1 ≤ i → Fits T lo i j 1 0 p.content
  deep : Deep T i p.content.spots

/-- A property by its name, which is a token of its own. -/
theorem PropertyReads.of_name (hT : Ruled T) {name : Ident} {value : Expr} {span : Span} (hname : name.span = spanOf T i)
    (hij : i < j) (hj : j < T.length)
    (hvalue : value = ⟨.ident name.name, name.span⟩ ∨ Fits T (i + 1) (i + 1) j 1 0 value.bareContent) :
    PropertyReads T i j ⟨name, value, span⟩ := by
  have hi : i + 1 < T.length := by omega
  have hspan : name.span = across T i (i + 1) := by
    rw [hname, across, edge_of_lt (by omega)]
    rfl
  have hspot : Between T (edge T i) (edge T (i + 1)) (.value, name.span) :=
    hspan ▸ hT.between_value (Nat.lt_succ_self i) hi
  rcases hvalue with rfl | hvalue
  · have hcontent : (Property.content ⟨name, ⟨.ident name.name, name.span⟩, span⟩).spots =
        (.value, name.span) :: nameSpots name.name name.span := by
      change (.value, name.span) :: (nameSpots name.name name.span ++ []) = _
      rw [List.append_nil]
    refine ⟨fun lo hlo => ⟨?_, ?_, ?_⟩, ?_⟩
    · rw [hcontent]
      have hvalue := hspot.mono (hT.edge_mono (show lo ≤ i by omega)) (hT.edge_mono (show i + 1 ≤ j by omega))
      unfold nameSpots
      split
      · exact .single hvalue
      · refine .cons hvalue (.single ?_) ?_
        · exact hname ▸ hT.between_name (.inl rfl) (.inl hlo) (by omega) hj (.inl hij)
        · rintro (_ | ⟨_, ⟨⟩⟩)
    · exact Nat.le_add_left 1 _
    · exact Nat.zero_le _
    · rw [hcontent]
      rintro x (_ | ⟨_, hx⟩) hrole
      · exact hspot.2.2.1
      · unfold nameSpots at hx
        split at hx
        · cases hx
        · obtain rfl := List.mem_singleton.mp hx
          rcases hrole with hrole | hrole <;> cases hrole
  · have hall : Fits T i i j 1 0 (Property.content ⟨name, value, span⟩) :=
      (Fits.ofSpots (.single hspot) : Fits T i i (i + 1) 1 0 _).append hT hvalue (by omega)
    exact ⟨fun lo hlo => hall.mono hT (by omega), hall.placed.deep⟩

theorem property (hT : Ruled T) (hg : Agree T (i + 1) g g') :
    Reads T (Parser.property g) (Parser.property g') i fun p j =>
      (p = none → j = i) ∧ ∀ p' ∈ p, PropertyReads T i j p' := by
  unfold Parser.property
  refine currentSpan (eat (by decide) (fun _ => ?_) fun _ => ?_)
  · refine bind (hg.expr (i + 1) (Nat.le_refl _)) fun e j hij hj he => spanFrom (pure ⟨nofun, ?_⟩)
    rintro _ ⟨⟩
    exact .of_name hT rfl (by omega) hj (.inr (he.fits hT).bare)
  · refine remaining (bind expectPropertyName fun name k hik hk hname => remaining ?_)
    split
    · exact pure ⟨fun _ => by omega, nofun⟩
    · have hk : k = i + 1 := by have := hname.2; omega
      subst hk
      refine bind (propertyValue hT hg name) fun value j hij hj hvalue => spanFrom (pure ⟨nofun, ?_⟩)
      rintro _ ⟨⟩
      exact .of_name hT hname.1 (by omega) hj (hvalue.imp And.left id)

theorem propertyStep (hT : Ruled T) (hg : Agree T (j + 1) g g') {items : List Property} :
    Reads T (Parser.propertyStep g items) (Parser.propertyStep g' items) j
      (Round (Behind 1 (PropertyReads T) i) (fun items k => Row 1 (PropertyReads T) i k items.reverse) items j) := by
  unfold Parser.propertyStep
  refine atEnd (atKind ?_)
  split
  · exact pure Behind.row
  · rename_i hstop
    refine bind (property hT hg) fun p k hjk _ hp => ?_
    cases p with
    | none =>
      obtain rfl := hp.1 rfl
      refine advance_bind ?_ (pure ⟨Nat.lt_succ_self k, fun hitems => hitems.mono (Nat.le_succ k)⟩)
      intro h
      simp [h] at hstop
    | some p =>
      have hp := hp.2 p rfl
      refine eat (by decide) (fun _ => pure ⟨by omega, ?_⟩) fun _ => pure ?_
      · exact fun hitems => hitems.cons (Nat.le_refl j) hjk hp
      · exact fun hitems => hitems.row_cons (Nat.le_refl j) hjk hp

theorem objectLiteral (hT : Ruled T) (hg : Agree T (i + 1) g g') (hkind : kindOf T i = .lBrace) :
    Reads T (Parser.objectLiteral g) (Parser.objectLiteral g') i fun properties j =>
      i < j ∧ Row 1 (PropertyReads T) (i + 1) j properties := by
  unfold Parser.objectLiteral
  refine bind (expect (by decide)) fun _ k _ _ hk => ?_
  obtain rfl := hk.2 hkind
  refine bind (repeating (I := Behind 1 (PropertyReads T) (i + 1))
    (R := fun items j => Row 1 (PropertyReads T) (i + 1) j items.reverse) ?_ .start) fun items m hm _ hitems => ?_
  · exact fun items k hk => propertyStep hT (hg.mono (by omega))
  · exact bind (expect (by decide)) fun _ j hmj _ _ => pure ⟨by omega, hitems.extend hmj⟩

/-! ## Operands -/

theorem primaryKind (hT : Ruled T) (hg : Agree T (i + 1) g g') :
    Reads T (Parser.primaryKind g) (Parser.primaryKind g') i fun kind j =>
      kind = .error ∧ j = i ∨ i < j ∧ KindReads T i j kind := by
  unfold Parser.primaryKind
  have leaf {kind : ExprKind} (hkind : kind.content = .none)
      (hident : ∀ name, kind = .ident name → name = "import" ∨ kindOf T i = .identifier) :
      kind = .error ∧ i + 1 = i ∨ i < i + 1 ∧ KindReads T i (i + 1) kind :=
    .inr ⟨Nat.lt_succ_self i, hkind ▸ .none, hkind ▸ nofun, fun name h => (hident name h).imp_right .inr⟩
  refine current ?_
  split <;> rename_i hkind
  · refine currentText (advance_bind (by rw [hkind]; decide) (pure (leaf rfl ?_)))
    exact fun _ _ => .inr hkind
  · refine advance_bind (by rw [hkind]; decide) (pure (leaf rfl ?_))
    rintro _ ⟨⟩
    exact .inl rfl
  · exact currentText (advance_bind (by rw [hkind]; decide) (pure (leaf rfl nofun)))
  · exact advance_bind (by rw [hkind]; decide) (pure (leaf rfl nofun))
  · exact currentText (advance_bind (by rw [hkind]; decide) (pure (leaf rfl nofun)))
  · exact advance_bind (by rw [hkind]; decide) (pure (leaf rfl nofun))
  · exact advance_bind (by rw [hkind]; decide) (pure (leaf rfl nofun))
  · exact advance_bind (by rw [hkind]; decide) (pure (leaf rfl nofun))
  · exact advance_bind (by rw [hkind]; decide) (pure (leaf rfl nofun))
  · refine advance_bind (by rw [hkind]; decide) (bind (arrayItems hg) fun items j hij hj hitems => pure (.inr ⟨hij, ?_⟩))
    refine .of_behind hT ?_ (by omega) nofun
    have hitems : Fits T (i + 1) (i + 1) j 1 0 (exprsContent items) := by
      rw [exprsContent_eq]
      exact hitems.fits_of_le hT fun _ _ _ h => h.fits hT
    exact hitems.mono hT (by omega)
  · refine bind (objectLiteral hT hg hkind) fun properties j _ hj ⟨hij, hrow⟩ => pure (.inr ⟨hij, ?_, ?_, nofun⟩)
    · have := hrow.fits hT (Nat.zero_le _) (fun _ _ _ h => h.fits) i (Nat.le_refl _)
      rw [ExprKind.content, propertiesContent_eq]
      exact this.mono hT (by omega)
    · have := hrow.deep hT fun _ _ _ h => h.deep
      rw [ExprKind.content, propertiesContent_eq]
      exact this.proper hT (Nat.lt_succ_self i) (by omega)
  · refine advance_bind (by rw [hkind]; decide) (bind (eat_any (by decide)).discard fun _ k hik _ _ => ?_)
    refine bind (eat_any (by decide)).discard fun _ m hkm _ _ => ?_
    refine (functionRest hT (hg.mono (by omega))).mono ?_
    rintro kind j hmj hj ⟨n, hmn, hnj, -, hfits, hdeep, ps, ret, body, rfl⟩
    exact .inr ⟨by omega, (hfits i (by omega)).mono hT (by omega), hdeep.proper hT (by omega) (by omega), nofun⟩
  · exact report_bind rfl (pure (.inl ⟨rfl, rfl⟩))

/-- An operand, which reads an opening parenthesis at least. -/
theorem primary (hT : Ruled T) (hg : Agree T (i + 1) g g') :
    Reads T (Parser.primary g) (Parser.primary g') i fun e j => ExprReads T i j e ∧ (kindOf T i = .lParen → i < j) := by
  unfold Parser.primary
  refine currentSpan (eat (by decide) (fun _ => ?_) fun hparen => ?_)
  · refine bind (hg.expr (i + 1) (Nat.le_refl _)) fun inner k hik _ hinner => ?_
    refine bind (expect (by decide)) fun _ j hkj hj _ => spanFrom (pure ⟨?_, fun _ => by omega⟩)
    exact .of_kind (hinner.kind_of_inner hT hkj) (by omega) hj
  · refine bind (primaryKind hT hg) fun kind j hij hj h => spanFrom (pure ⟨?_, fun h => absurd h hparen⟩)
    exact ⟨i, j, Nat.le_refl i, hij, Nat.le_refl j, hj, rfl, h.imp And.left id⟩

/-! ## Accesses and calls -/

/-- A member of an expression in front of it. -/
theorem member_fits (hT : Ruled T) {k m lo i' : Nat} {e : Expr} {name : Ident} (he : Fits T lo i' k 1 0 e.content)
    (hname : name.span = spanOf T m) (hle : lo ≤ k ∧ i' ≤ k ∧ k < m ∧ m ≤ j) (hj : j < T.length) :
    Fits T lo i' j 0 0 (ExprKind.member e name).content := by
  have hspot : Placed T (edge T k) (edge T j) [(.member, name.span)] :=
    .single (hname ▸ hT.between_start (by decide) hle.2.2.1 hle.2.2.2 hj)
  exact he.join hT (.ofSpots hspot : Fits T k j j 0 0 _) (by omega)

/-- A member says nothing of the node around it. -/
theorem member_proper {e : Expr} {name : Ident} (he : ∀ x ∈ e.content.spots, Proper T i j x) :
    ∀ x ∈ (ExprKind.member e name).content.spots, Proper T i j x := by
  intro x hx
  rcases List.mem_append.mp hx with hx | hx
  · exact he x hx
  · obtain rfl := List.mem_singleton.mp hx
    exact ⟨nofun, nofun⟩

/-- What is said of the callee of a constructor call that begins at `i`: its members begin there too. -/
structure CalleeReads (T : List Token) (i j : Nat) (e : Expr) : Prop where
  fits : Fits T i (i + 1) j 1 0 e.content
  proper : ∀ x ∈ e.bareContent.spots, Proper T i j x

/-- As a part of a node that reaches further. -/
theorem CalleeReads.proper_of_lt (hT : Ruled T) {k : Nat} {e : Expr} (he : CalleeReads T i k e) (hkj : k < j)
    (hj : j < T.length) : ∀ x ∈ e.content.spots, Proper T i j x := by
  have hedge := hT.edge_mono (show k ≤ j - 1 by omega)
  have hlast := hT.ordered (j - 1) (by omega)
  rw [edge_of_lt (show j - 1 < T.length by omega)] at hedge
  rintro ⟨role, s⟩ hx
  refine ⟨?_, ?_⟩ <;> rintro rfl
  · rintro rfl
    have := (he.fits.placed.between _ hx).2.2
    simp only [across] at this
    omega
  · rw [e.content_eq] at hx
    rcases List.mem_append.mp hx with hx | hx
    · exact absurd rfl (e.kind.role_of_mem_spots hx)
    · refine (he.proper _ ?_).2 rfl
      rw [e.bareContent_eq]
      exact List.mem_append_right _ hx

theorem chainStep (hT : Ruled T) {e : Expr} (hij : i < j) :
    Reads T (Parser.chainStep (spanOf T i) e) (Parser.chainStep (spanOf T i) e) j
      (Round (fun e k => CalleeReads T i k e) (fun e k => CalleeReads T i k e) e j) := by
  unfold Parser.chainStep
  refine eat (by decide) (fun _ => ?_) fun _ => pure id
  refine bind expectPropertyName fun name k hjk hk hname => spanFrom (pure ⟨by omega, fun he => ?_⟩)
  have hfits := member_fits hT he.fits hname.1 (by omega) hk
  have hproper : ∀ x ∈ (ExprKind.member e name).content.spots, Proper T i k x := member_proper (he.proper_of_lt hT hjk hk)
  have hread : KindReads T i k (.member e name) := ⟨hfits.mono hT (by omega), hproper, nofun⟩
  refine ⟨⟨((ExprReads.of_kind hread (by omega) hk).fits hT).placed, ?_, ?_⟩, hproper⟩
  · simpa [Expr.content_eq, ExprKind.spots] using hfits.height_le
  · simpa [Expr.content_eq, ExprKind.spots] using hfits.declared_le

theorem newExpr (hT : Ruled T) (hg : Agree T (i + 1) g g') (hkind : kindOf T i = .new) :
    Reads T (Parser.newExpr g) (Parser.newExpr g') i fun e j => i < j ∧ ExprReads T i j e := by
  unfold Parser.newExpr
  refine currentSpan (advance_bind (by rw [hkind]; decide) ?_)
  refine bind (primary hT (hg.mono (by omega))) fun first k hik hk hfirst => ?_
  have hfirst : CalleeReads T i k first := by
    have hfits := hfirst.1.fits hT
    refine ⟨hfits.mono hT (by omega), fun x hx => ?_⟩
    exact hfits.placed.deep.proper hT (Nat.lt_succ_self i) (by omega) x (first.bareContent_sublist.subset hx)
  refine bind (repeating (fun e m hm => chainStep hT (by omega)) hfirst) fun callee m hkm _ hcallee => ?_
  refine atKind ?_
  extract_lets finish
  have tail (args : List Expr) (j : Nat) (hmj : m ≤ j) (hargs : Fits T m m j 1 0 (exprsContent args)) :
      Reads T (finish args) (finish args) j fun e j => i < j ∧ ExprReads T i j e := by
    refine here fun hj => spanFrom (pure ⟨by omega, .of_kind ⟨?_, fun x hx => ?_, nofun⟩ (by omega) hj⟩)
    · exact hcallee.fits.bare.join hT hargs (by omega)
    · rcases List.mem_append.mp hx with hx | hx
      · by_cases hmj : m = j
        · exact hmj ▸ hcallee.proper x hx
        · exact hcallee.proper_of_lt hT (by omega) hj x (callee.bareContent_sublist.subset hx)
      · exact hargs.placed.deep.proper hT (by omega) (by omega) x hx
  split
  · rename_i hparen
    refine bind (arguments (hg.mono (by omega)) (of_decide_eq_true hparen)) fun args n hmn _ hargs => tail args n hmn ?_
    rw [exprsContent_eq]
    exact (hargs.fits_of_le hT fun _ _ _ h => h.fits hT).mono hT (by have := hargs.le; omega)
  · exact tail [] m (Nat.le_refl m) .none

/-! ## What follows an operand -/

/-- What is said of an operand that begins at `i`: a call of it begins at a later token. -/
structure OperandReads (T : List Token) (i j : Nat) (e : Expr) : Prop where
  reads : ExprReads T i j e
  paren : kindOf T i = .lParen → i < j

theorem indexRest (hg : Agree T i g g') :
    Reads T (Parser.indexRest g) (Parser.indexRest g') i fun e j => ExprReads T i j e := by
  unfold Parser.indexRest
  refine bind (hg.expr i (Nat.le_refl i)) fun e k hik _ he => ?_
  exact bind (expect (by decide)) fun _ j hkj _ _ => pure (he.mono (Nat.le_refl i) hkj)

/-- A node of an expression and of what stands behind it. -/
theorem behind_reads (hT : Ruled T) {k lo m : Nat} {e : Expr} {rest : Content} {kind : ExprKind}
    (hcontent : kind.content = e.content ++ rest) (he : ExprReads T i k e) (hrest : Fits T lo m j 2 0 rest)
    (hle : i ≤ k ∧ k < j ∧ i < lo ∧ k ≤ lo ∧ lo ≤ j ∧ k < m) (hj : j < T.length)
    (hkind : ∀ name, kind ≠ .ident name) : KindReads T i j kind where
  fits := hcontent ▸ (he.fits hT).join hT hrest (by omega)
  proper x hx := by
    rw [hcontent] at hx
    rcases List.mem_append.mp hx with hx | hx
    · exact he.proper hT hle.2.1 hj x hx
    · exact hrest.placed.deep.proper hT hle.2.2.1 (by omega) x hx
  ident name h := absurd h (hkind name)

theorem call_reads (hT : Ruled T) {k m : Nat} {e : Expr} {args : List Expr} (he : ExprReads T i k e)
    (hargs : Row 1 (ExprReads T) (m + 1) j args) (hle : i ≤ k ∧ k ≤ m ∧ i < m) (hj : j < T.length) :
    KindReads T i j (.call e args) := by
  have hmj := hargs.le
  exact behind_reads hT rfl he ((hargs.fits_args hT (by omega)).mono hT (by omega) : Fits T m (m + 1) j 2 0 _) (by omega) hj nofun

theorem index_reads (hT : Ruled T) {k m : Nat} {e index : Expr} (he : ExprReads T i k e)
    (hindex : ExprReads T m j index) (hle : i ≤ k ∧ k < m ∧ m ≤ j) (hj : j < T.length) :
    KindReads T i j (.index e index) :=
  behind_reads hT rfl he ((hindex.fits hT).mono hT (by omega) : Fits T m m j 2 0 _) (by omega) hj nofun

theorem member_reads (hT : Ruled T) {k m : Nat} {e : Expr} {name : Ident} (he : ExprReads T i k e)
    (hname : name.span = spanOf T m) (hle : i ≤ k ∧ k < m ∧ m ≤ j) (hj : j < T.length) :
    KindReads T i j (.member e name) :=
  ⟨member_fits hT (he.fits hT) hname (by omega) hj, member_proper (he.proper hT (by omega) hj), nofun⟩

theorem postfixStep (hT : Ruled T) (hg : Agree T (j + 1) g g') {e : Expr} (hij : i ≤ j) :
    Reads T (Parser.postfixStep g (spanOf T i) e) (Parser.postfixStep g' (spanOf T i) e) j
      (Round (fun e k => OperandReads T i k e) (fun e k => OperandReads T i k e) e j) := by
  have longer {k : Nat} {kind : ExprKind} (hjk : j < k) (hk : k < T.length)
      (h : OperandReads T i j e → KindReads T i k kind) :
      Round (fun e k => OperandReads T i k e) (fun e k => OperandReads T i k e) e j
        (.more ⟨kind, (spanOf T i).merge (spanOf T (k - 1))⟩) k :=
    ⟨hjk, fun he => ⟨.of_kind (h he) (by omega) hk, fun _ => by omega⟩⟩
  unfold Parser.postfixStep
  refine current ?_
  split <;> rename_i hkind
  · refine advance_bind (by rw [hkind]; decide) (bind expectPropertyName fun name k hjk hk hname => spanFrom (pure ?_))
    exact longer hjk hk fun he => member_reads hT he.reads hname.1 (by omega) hk
  · refine advance_bind (by rw [hkind]; decide) (atKind ?_)
    split
    · rename_i hparen
      refine bind (arguments (hg.mono (by omega)) (of_decide_eq_true hparen)) fun args k hjk hk hargs => spanFrom (pure ?_)
      exact longer (by omega) hk fun he => call_reads hT he.reads hargs (by omega) hk
    · refine eat (by decide) (fun _ => ?_) fun _ => ?_
      · refine bind (indexRest (hg.mono (by omega))) fun index k hjk hk hindex => spanFrom (pure ?_)
        exact longer (by omega) hk fun he => index_reads hT he.reads hindex (by omega) hk
      · refine bind expectPropertyName fun name k hjk hk hname => spanFrom (pure ?_)
        exact longer hjk hk fun he => member_reads hT he.reads hname.1 (by omega) hk
  · refine advance_bind (by rw [hkind]; decide) (bind (indexRest hg) fun index k hjk hk hindex => spanFrom (pure ?_))
    exact longer hjk hk fun he => index_reads hT he.reads hindex (by omega) hk
  · refine bind (arguments hg hkind) fun args k hjk hk hargs => spanFrom (pure ?_)
    have hle := hargs.le
    refine longer (by omega) hk fun he => ?_
    have hlt : i < j := by
      rcases Nat.lt_or_eq_of_le hij with h | rfl
      · exact h
      · exact he.paren hkind
    exact call_reads hT he.reads hargs (by omega) hk
  · refine newlineBefore ?_
    split
    · exact pure id
    · refine advance_bind (by rw [hkind]; decide) (pure ⟨Nat.lt_succ_self j, fun he => ⟨?_, fun _ => by omega⟩⟩)
      exact he.reads.mono (Nat.le_refl i) (Nat.le_succ j)
  · refine newlineBefore ?_
    split
    · exact pure id
    · refine advance_bind (by rw [hkind]; decide) (here fun hj => spanFrom (pure (longer (Nat.lt_succ_self j) hj ?_)))
      exact fun he => ⟨(he.reads.fits hT).mono hT (by omega), he.reads.proper hT (Nat.lt_succ_self j) hj, nofun⟩
  · exact pure id

theorem postfixExpr (hT : Ruled T) (hg : Agree T (i + 1) g g') :
    Reads T (Parser.postfixExpr g) (Parser.postfixExpr g') i fun e j => ExprReads T i j e := by
  unfold Parser.postfixExpr
  refine currentSpan (atKind ?_)
  extract_lets rest rest'
  have tail (first : Expr) (k : Nat) (hik : i ≤ k) (hfirst : OperandReads T i k first) :
      Reads T (rest first) (rest' first) k fun e j => ExprReads T i j e := by
    refine (repeating (fun e m hkm => postfixStep hT (hg.mono (by omega)) (by omega)) hfirst).mono ?_
    exact fun e j _ _ h => h.reads
  split
  · rename_i hnew
    refine bind (newExpr hT hg (of_decide_eq_true hnew)) fun first k hik _ h => tail first k hik ⟨h.2, fun _ => h.1⟩
  · exact bind (primary hT hg) fun first k hik _ h => tail first k hik ⟨h.1, h.2⟩

theorem unaryExpr (hT : Ruled T) (hg : Agree T (i + 1) g g') :
    Reads T (Parser.unaryExpr g) (Parser.unaryExpr g') i fun e j => ExprReads T i j e := by
  unfold Parser.unaryExpr
  refine currentSpan (current ?_)
  split
  · rename_i op hop
    refine advance_bind (fun h => by rw [h] at hop; exact nomatch hop) ?_
    refine bind (hg.unary (i + 1) (Nat.le_refl _)) fun e j hij hj he => spanFrom (pure (.of_kind ?_ hij hj))
    exact .of_behind hT ((he.fits hT).mono hT (by omega)) (by omega) nofun
  · refine atWord fun b hb => get fun s _ => ?_
    split
    · rename_i hawait
      refine advance_bind (by rw [hb (by simp at hawait; exact hawait.1)]; decide) ?_
      exact (hg.unary (i + 1) (Nat.le_refl _)).mono fun e j _ _ h => h.mono (Nat.le_succ i) (Nat.le_refl j)
    · exact postfixExpr hT hg

/-! ## Operators -/

theorem castType (hT : Ruled T) (hg : Agree T (i + 1) g g') :
    Reads T (Parser.castType g) (Parser.castType g') i fun type j => TypeReads T i j type := by
  unfold Parser.castType
  refine eatWord (fun _ => get fun s _ => pure ?_) (typeNode hT hg)
  exact (Fits.none : Fits T i i (i + 1) 0 0 .none).inside

theorem binaryStep (hT : Ruled T) (hg : Agree T (j + 1) g g') (power : Nat) {e : Expr} (hij : i ≤ j) :
    Reads T (Parser.binaryStep g power (spanOf T i) e) (Parser.binaryStep g' power (spanOf T i) e) j
      (Round (fun e k => ExprReads T i k e) (fun e k => ExprReads T i k e) e j) := by
  unfold Parser.binaryStep
  refine atWord fun b hb => newlineBefore ?_
  split
  · rename_i has
    refine advance_bind (by rw [hb (by simp at has; exact has.1.1)]; decide) ?_
    refine bind (castType hT (hg.mono (by omega))) fun type k hjk hk htype => spanFrom (pure ?_)
    refine ⟨hjk, fun he => .of_kind ?_ (by omega) hk⟩
    exact behind_reads hT rfl he (htype.mono hT (by omega) : Fits T (j + 1) (j + 1) k 2 0 _) (by omega) hk nofun
  · refine current ?_
    split
    · exact pure id
    · rename_i op strength hop
      split
      · exact pure id
      · refine advance_bind (fun h => by rw [h] at hop; exact nomatch hop) ?_
        refine bind (hg.binary (strength + 1) (j + 1) (Nat.le_refl _)) fun right k hjk hk hright => spanFrom (pure ?_)
        refine ⟨hjk, fun he => .of_kind ?_ (by omega) hk⟩
        exact behind_reads hT rfl he ((hright.fits hT).mono hT (by omega) : Fits T (j + 1) (j + 1) k 2 0 _) (by omega) hk nofun

theorem binaryExpr (hT : Ruled T) (hg : Agree T (i + 1) g g') (power : Nat) :
    Reads T (Parser.binaryExpr g power) (Parser.binaryExpr g' power) i fun e j => ExprReads T i j e := by
  unfold Parser.binaryExpr
  refine currentSpan (bind (unaryExpr hT hg) fun e k hik _ he => ?_)
  exact repeating (I := fun e k => ExprReads T i k e)
    (fun e m hkm => binaryStep hT (hg.mono (by omega)) power (by omega)) he

theorem conditionalExpr (hT : Ruled T) (hg : Agree T (i + 1) g g') :
    Reads T (Parser.conditionalExpr g) (Parser.conditionalExpr g') i fun e j => ExprReads T i j e := by
  unfold Parser.conditionalExpr
  refine currentSpan (bind (binaryExpr hT hg 0) fun condition k hik _ hcondition => eat (by decide) (fun _ => ?_) fun _ => ?_)
  · refine bind (hg.expr (k + 1) (by omega)) fun thenValue m hkm _ hthen => ?_
    refine bind (expect (by decide)) fun _ n hmn _ _ => ?_
    refine bind (hg.expr n (by omega)) fun elseValue j hnj hj helse => spanFrom (pure (.of_kind ?_ (by omega) hj))
    have hvalues := (hthen.fits hT).join hT (helse.fits hT) (u := k + 1) (v := 2) (w := 0) (by omega)
    exact behind_reads hT rfl hcondition hvalues (by omega) hj nofun
  · exact pure hcondition

/-! ## Arrow functions -/

/-- The parameters of an arrow function stand behind its first token, or are that token. -/
theorem arrowParams (hT : Ruled T) (hg : Agree T (i + 1) g g')
    (hkind : kindOf T i = .identifier ∨ kindOf T i = .lt ∨ kindOf T i = .lParen) :
    Reads T (Parser.arrowParams g) (Parser.arrowParams g') i fun ps j =>
      i < j ∧ Fits T i (i + 1) j 1 1 (paramsContent ps) ∧ Deep T (i + 1) (paramsContent ps).spots := by
  unfold Parser.arrowParams
  refine atKind ?_
  split
  · rename_i hident
    have hident := of_decide_eq_true hident
    refine bind (takeIdent (by rw [hident]; decide)) fun name j _ hj hname => pure ?_
    obtain ⟨hspan, rfl⟩ := hname
    have hspots : (paramsContent [⟨name, false, false, none, none, name.span⟩]).spots = [(.param, name.span)] := rfl
    refine ⟨Nat.lt_succ_self i, ⟨?_, Nat.zero_le _, ?_⟩, ?_⟩
    · rw [hspots, hspan]
      exact .single (hT.between_name (.inr rfl) (.inr ⟨rfl, hident⟩) (by omega) hj (.inl (Nat.lt_succ_self i)))
    · exact Nat.le_add_left 1 _
    · rw [hspots]
      rintro x (_ | ⟨_, ⟨⟩⟩) (h | h) <;> exact nomatch h
  · rename_i hident
    refine bind (typeParams hT hg).discard fun _ m him _ ⟨_, hm⟩ => ?_
    refine (params hT (hg.mono (by omega))).mono fun ps j hmj hj ⟨k, hmk, hkj, hk, hps, hdeep, _⟩ => ?_
    have hik : i < k := by
      rcases hkind with h | h | h
      · exact absurd (decide_eq_true h) hident
      · have := hm h
        omega
      · by_cases hmi : m = i
        · exact hmi ▸ hk (hmi ▸ h)
        · omega
    exact ⟨by omega, (hps i hik).mono hT (by omega), hdeep.mono hT hik⟩

theorem startsArrow_kind (h : startsArrow (T.drop i) = true) :
    kindOf T i = .identifier ∨ kindOf T i = .lt ∨ kindOf T i = .lParen := by
  have hkind (t : Token) (rest : List Token) (hrest : T.drop i = t :: rest) : kindOf T i = t.kind := by
    rw [kindOf, ← Nat.add_zero i, ← List.getElem?_drop, hrest]
    rfl
  unfold startsArrow at h
  split at h
  · rename_i hrest
    exact .inl (hkind _ _ hrest)
  · rename_i hrest
    exact .inr (.inl (hkind _ _ hrest))
  · rename_i hrest
    exact .inr (.inr (hkind _ _ hrest))
  · cases h

theorem arrowFunction (hT : Ruled T) (hg : Agree T (i + 1) g g')
    (hkind : kindOf T i = .identifier ∨ kindOf T i = .lt ∨ kindOf T i = .lParen) :
    Reads T (Parser.arrowFunction g) (Parser.arrowFunction g') i fun e j => ExprReads T i j e := by
  unfold Parser.arrowFunction
  refine currentSpan (bind (arrowParams hT hg hkind) fun ps k hik _ ⟨hik', hps, hdeep⟩ => ?_)
  refine bind (typeAfter hT (hg.mono (by omega)) (by decide)) fun ret m hkm _ hret => ?_
  refine bind (expect (by decide)) fun _ n hmn _ _ => atKind ?_
  extract_lets finish
  have tail (body : FunctionBody) (n' j : Nat) (hn : n ≤ n') (hj' : n' ≤ j) (hbody : Fits T n' n' j 2 0 body.content) :
      Reads T (finish body) (finish body) j fun e j => ExprReads T i j e := by
    refine here fun hj => spanFrom (pure (.of_kind ⟨?_, ?_, nofun⟩ (by omega) hj))
    · have hrest := hret.join hT hbody (u := k) (v := 2) (w := 0) (by omega)
      exact (hps.join hT hrest (u := i + 1) (v := 2) (w := 1) (by omega)).declaring.mono hT (by omega)
    · have hrest := (hret.placed.deep.mono hT (show i + 1 ≤ k by omega)).append (hbody.placed.deep.mono hT (by omega))
      exact (hdeep.append hrest).proper hT (Nat.lt_succ_self i) (by omega)
  split
  · refine bind (block hT (hg.mono (by omega)) fun _ => hg.mono (by omega)) fun b j hnj _ ⟨n', hn, hj', _, hb⟩ => ?_
    exact tail (.block b) n' j hn hj' (FunctionBody.content_block b ▸ hb)
  · refine bind (hg.expr n (by omega)) fun value j hnj _ hvalue => ?_
    exact tail (.expr value) n j (Nat.le_refl n) hnj ((hvalue.fits hT).mono hT (by omega))

theorem skipAsync : Reads T Parser.skipAsync Parser.skipAsync i fun _ _ => True := by
  unfold Parser.skipAsync
  refine get fun s _ => atWord fun b hb => ?_
  split
  · rename_i hasync
    have hread : kindOf T i ≠ .eof := by
      rw [hb (by simp at hasync; exact hasync.1)]
      decide
    split <;> first | exact advance hread fun _ => trivial | exact pure trivial
  · exact pure trivial

theorem exprNode (hT : Ruled T) (hg : Agree T (i + 1) g g') :
    Reads T (Parser.exprNode g) (Parser.exprNode g') i fun e j => ExprReads T i j e := by
  unfold Parser.exprNode
  refine bind skipAsync fun _ k hik _ _ => get fun s hs => ?_
  have hgk : Agree T (k + 1) g g' := hg.mono (by omega)
  split
  · rename_i harrow
    exact (arrowFunction hT hgk (startsArrow_kind (hs.rest ▸ harrow))).mono fun e j _ _ h => h.mono hik (Nat.le_refl j)
  · refine currentSpan (bind (conditionalExpr hT hgk) fun target m hkm _ htarget => atKind (atKind ?_))
    split
    · rename_i hassign
      refine advance_bind (fun h => by simp [h] at hassign) ?_
      refine bind (hg.expr (m + 1) (by omega)) fun value j hmj hj hvalue => spanFrom (pure ?_)
      refine (ExprReads.of_kind ?_ (by omega) hj).mono hik (Nat.le_refl j)
      exact behind_reads hT rfl htarget ((hvalue.fits hT).mono hT (by omega) : Fits T (m + 1) (m + 1) j 2 0 _) (by omega) hj nofun
    · exact pure (htarget.mono hik (Nat.le_refl m))

end Reads

end Recheck.Syntax.Parser
