import Recheck.Proofs.Syntax.Parser.Grammar

/-!
# Reading types
-/

set_option autoImplicit false

namespace Recheck.Syntax.Parser

variable {T : List Token} {i j : Nat} {g g' : Grammar}

namespace Reads

/-- The first part of a dotted name is looked up where the name begins. -/
theorem dottedName (hT : Ruled T) : Reads T Parser.dottedName Parser.dottedName i fun name j =>
    (kindOf T i = .identifier → i < j) ∧
      ∀ lo, lo < i ∨ lo = i ∧ kindOf T i = .identifier → Placed T (edge T lo) (edge T j) (headSpots name) := by
  unfold Parser.dottedName
  refine bind expectIdent fun first k hik _ hfirst => ?_
  refine (separated (P := fun _ _ _ => True) (by decide) fun m _ => expectPropertyName.mono fun _ _ _ _ _ => trivial).mono ?_
  rintro name j hkj hj ⟨rest, rfl, -⟩
  have hread : i < j ∨ kindOf T i ≠ .identifier := hfirst.2.imp (fun h => by omega) And.right
  refine ⟨fun h => hread.resolve_right (not_not_intro h), fun lo hlo => ?_⟩
  exact .single (hfirst.1 ▸ hT.between_name (.inl rfl) hlo (by omega) hj hread)

theorem typeReference (hT : Ruled T) (hg : Agree T (i + 1) g g') (hkind : kindOf T i = .identifier) :
    Reads T (Parser.typeReference g) (Parser.typeReference g') i fun kind j => Fits T i i j 0 0 kind.content := by
  unfold Parser.typeReference
  refine bind (dottedName hT) fun name k _ hk hname => atKind (newlineBefore ?_)
  have hik := hname.1 hkind
  have hhead : Fits T i i k 0 0 (.ofSpots (headSpots name)) := .ofSpots (hname.2 i (.inr ⟨rfl, hkind⟩))
  split
  · rename_i hlt
    have hlt : kindOf T k = .lt := by simp at hlt; exact hlt.1
    refine advance_bind (by rw [hlt]; decide) ?_
    refine bind (commaList fun m hm => hg.type m (by omega)) fun args m hkm _ hargs => ?_
    refine bind (expect (by decide)) fun _ j hmj _ _ => pure ?_
    have hargs : Fits T (k + 1) (k + 1) m 1 0 (typesContent args) := by
      rw [typesContent_eq]
      exact hargs.fits_of_le hT fun _ _ _ h => h
    have hargs : Fits T k k m 0 0 (typesContent args) := hargs.mono hT (by omega)
    exact (hhead.append hT hargs (by omega)).mono hT (by omega)
  · exact pure (hhead.append hT (.none : Fits T k k k 0 0 .none) (by omega))

theorem atFunctionType : Reads T Parser.atFunctionType Parser.atFunctionType i fun _ j => j = i := by
  unfold Parser.atFunctionType
  refine get fun s _ => ?_
  split
  · exact pure rfl
  · exact pure rfl
  · exact pure rfl
  · split <;> exact pure rfl
  · exact pure rfl

/-- A function type turns to its grammar behind the opening parenthesis, which may only be missing behind another
token. -/
theorem functionType (hT : Ruled T) (hg : Agree T (i + 1) g g') (h : kindOf T i ≠ .lParen → Agree T i g g') :
    Reads T (Parser.functionType g) (Parser.functionType g') i fun kind j =>
      ∃ k, i ≤ k ∧ k ≤ j ∧ (kindOf T i = .lParen → i < k) ∧ Fits T k k j 1 0 kind.content := by
  unfold Parser.functionType
  refine bind (params hT hg) fun ps m him _ ⟨k, hik, hkm, hk, _, _, hps⟩ => ?_
  refine bind (expect (by decide)) fun _ n hmn _ _ => ?_
  have hgn : Agree T n g g' := by
    by_cases hkind : kindOf T i = .lParen
    · exact hg.mono (by have := hk hkind; omega)
    · exact (h hkind).mono (by omega)
  refine bind (hgn.type n (Nat.le_refl n)) fun ret j hnj _ hret => pure ⟨k, hik, by omega, hk, ?_⟩
  exact (hps.append hT hret (by omega)).mono hT (by omega)

theorem indexMember (hT : Ruled T) (hg : Agree T i g g') (start : Span) :
    Reads T (Parser.indexMember g start) (Parser.indexMember g' start) i fun m j =>
      Fits T i i j 1 0 (typeContent? m.type) := by
  unfold Parser.indexMember
  refine bind expectIdent.discard fun _ k₁ _ _ _ => bind (expect (by decide)) fun _ k₂ _ _ _ => ?_
  refine bind (hg.type k₂ (by omega)).discard fun _ k₃ _ _ _ => ?_
  refine bind (expect (by decide)) fun _ k₄ _ _ _ => bind (expect (by decide)) fun _ k₅ _ _ _ => ?_
  refine bind (hg.type k₅ (by omega)) fun type j _ _ htype => spanFrom (pure ?_)
  exact htype.mono hT (by omega)

/-- A method begins with a bracket. -/
theorem methodType (hT : Ruled T) (hg : Agree T (i + 1) g g') (h : kindOf T i = .lParen ∨ kindOf T i = .lt) :
    Reads T (Parser.methodType g) (Parser.methodType g') i fun type j => i < j ∧ TypeReads T i j type := by
  unfold Parser.methodType
  refine currentSpan (bind (typeParams hT hg).discard fun _ m him _ ⟨_, hm⟩ => ?_)
  refine bind (params hT (hg.mono (by omega))) fun ps n hmn _ ⟨k, hmk, hkn, hk, _, _, hps⟩ => ?_
  have hik : i < k := by
    rcases h with h | h
    · by_cases him : m = i
      · subst him
        exact hk h
      · omega
    · have := hm h
      omega
  refine bind (typeAfter hT (hg.mono (by omega)) (by decide)) fun ret j hnj _ hret => spanFrom (pure ⟨by omega, ?_⟩)
  have hret : Fits T n n j 1 0 ((ret.getD ⟨.keyword .any, spanOf T i⟩).content) := by
    cases ret with
    | some type => exact hret
    | none => exact (Fits.none : Fits T n n j 0 0 .none).inside
  exact (hps.append hT hret (by omega)).inside.mono hT (by omega)

theorem namedMember (hT : Ruled T) (hg : Agree T (i + 1) g g') (start : Span) :
    Reads T (Parser.namedMember g start) (Parser.namedMember g' start) i fun m j =>
      (m = none → j = i) ∧ ∀ m' ∈ m, i < j ∧ Fits T i i j 1 0 (typeContent? m'.type) := by
  unfold Parser.namedMember
  refine remaining (bind expectPropertyName fun name k hik _ _ => bind (eat_any (by decide)) fun optional m hkm _ _ => ?_)
  refine atKind (atKind ?_)
  extract_lets last
  have tail (type : Option TypeNode) (n : Nat) (hmn : m ≤ n) (htype : Fits T i i n 1 0 (typeContent? type)) :
      Reads T (last type) (last type) n fun m j =>
        (m = none → j = i) ∧ ∀ m' ∈ m, i < j ∧ Fits T i i j 1 0 (typeContent? m'.type) := by
    refine here fun hn => remaining ?_
    split
    · exact pure ⟨fun _ => by omega, nofun⟩
    · refine spanFrom (pure ⟨nofun, ?_⟩)
      rintro m' ⟨⟩
      exact ⟨by omega, htype⟩
  split
  · rename_i hkind
    refine bind (methodType hT (hg.mono (by omega)) (by simpa using hkind)) fun type n hmn _ htype => ?_
    exact tail (some type) n hmn (htype.2.mono hT (by omega))
  · refine bind (typeAfter hT (hg.mono (by omega)) (by decide)) fun type n hmn _ htype => ?_
    exact tail type n hmn (htype.mono hT (by omega))

theorem memberEnd : Reads T Parser.memberEnd Parser.memberEnd i fun _ _ => True := by
  unfold Parser.memberEnd
  refine eat (by decide) (fun _ => pure trivial) fun _ => eat (by decide) (fun _ => pure trivial) fun _ => ?_
  refine atKind (newlineBefore ?_)
  split
  · exact pure trivial
  · exact report_bind rfl (advance_any.mono fun _ _ _ _ _ => trivial)

theorem skipReadonly : Reads T Parser.skipReadonly Parser.skipReadonly i fun _ _ => True := by
  unfold Parser.skipReadonly
  refine atWord fun b hb => ?_
  cases b with
  | false => exact pure trivial
  | true =>
    refine kindAt ?_
    split
    · exact pure trivial
    · exact pure trivial
    · exact pure trivial
    · exact advance (by rw [hb rfl]; decide) fun _ => trivial

/-- Where no member can be read, a token is skipped. -/
theorem memberStep (hT : Ruled T) (hg : Agree T (j + 1) g g') {items : List Member} :
    Reads T (Parser.memberStep g items) (Parser.memberStep g' items) j
      (Round (Behind 0 (fun a b m => Fits T a a b 1 0 (typeContent? m.type)) i)
        (fun items k => Row 0 (fun a b m => Fits T a a b 1 0 (typeContent? m.type)) i k items.reverse) items j) := by
  unfold Parser.memberStep
  refine atEnd (atKind ?_)
  split
  · exact pure Behind.row
  · rename_i hstop
    refine currentSpan (bind skipReadonly fun _ k hjk _ _ => eat (by decide) (fun _ => ?_) fun _ => ?_)
    · refine bind (indexMember hT (hg.mono (by omega)) _) fun m n hkn _ hm => bind memberEnd fun _ n' hn' _ _ => pure ⟨by omega, ?_⟩
      exact fun hitems => (hitems.cons (by omega) hkn hm).mono hn'
    · refine bind (namedMember hT (hg.mono (by omega)) _) fun m n hkn _ hm => ?_
      cases m with
      | some m =>
        have hm := hm.2 m rfl
        refine bind memberEnd fun _ n' hn' _ _ => pure ⟨by omega, ?_⟩
        exact fun hitems => (hitems.cons hjk hkn hm.2).mono hn'
      | none =>
        obtain rfl := hm.1 rfl
        refine bind advance_any fun _ n' hn' _ hskip => pure ⟨?_, fun hitems => hitems.mono (by omega)⟩
        by_cases hnj : n = j
        · subst hnj
          refine hskip ?_
          intro h
          simp [h] at hstop
        · omega

/-- The members, which begin behind the opening brace. -/
theorem typeMembers (hT : Ruled T) (hg : Agree T (i + 1) g g') :
    Reads T (Parser.typeMembers g) (Parser.typeMembers g') i fun members j =>
      ∃ k, i ≤ k ∧ k ≤ j ∧ (kindOf T i = .lBrace → i < k) ∧ Fits T k k j 1 0 (membersContent members) := by
  unfold Parser.typeMembers
  refine bind (expect (by decide)) fun _ k hik _ hk => ?_
  refine bind (repeating (I := Behind 0 (fun a b m => Fits T a a b 1 0 (typeContent? m.type)) k)
    (R := fun items j => Row 0 (fun a b m => Fits T a a b 1 0 (typeContent? m.type)) k j items.reverse) ?_ .start)
    fun members m hkm _ hmembers => ?_
  · exact fun items m hkm => memberStep hT (hg.mono (by omega))
  · refine bind (expect (by decide)) fun _ j hmj _ _ => pure ⟨k, hik, by omega, fun h => by have := hk.2 h; omega, ?_⟩
    rw [membersContent_eq]
    exact (hmembers.fits_of_le hT fun _ _ _ h => h).mono hT (by omega)

/-! ## Forms of types -/

theorem tupleElement (hT : Ruled T) (hg : Agree T i g g') :
    Reads T (Parser.tupleElement g) (Parser.tupleElement g') i fun type j => TypeReads T i j type := by
  unfold Parser.tupleElement
  refine bind (eat_any (by decide)).discard fun _ k hik _ _ => ?_
  refine bind (hg.type k hik) fun type m hkm _ htype => ?_
  refine bind (eat_any (by decide)).discard fun _ j hmj _ _ => pure ?_
  exact htype.mono hT (by omega)

theorem wordType (hT : Ruled T) (hg : Agree T (i + 1) g g') (hkind : kindOf T i = .identifier) (start : Span) :
    Reads T (Parser.wordType g start) (Parser.wordType g' start) i fun type j => TypeReads T i j type := by
  have hread : kindOf T i ≠ .eof := by rw [hkind]; decide
  unfold Parser.wordType
  refine currentText ?_
  split
  · exact advance_bind hread (spanFrom (pure (Fits.none : Fits T i i (i + 1) 0 0 .none).inside))
  · refine kindAt ?_
    split
    · refine advance_bind hread (bind (hg.postfixType (i + 1) (Nat.le_refl _)) fun inner j hij _ hinner => ?_)
      split
      · exact spanFrom (pure (Fits.none : Fits T i i j 0 0 .none).inside)
      · exact pure (hinner.mono hT (by omega))
    · exact bind (typeReference hT hg hkind) fun kind j _ _ hk => spanFrom (pure hk.inside)

theorem otherType (hT : Ruled T) (hg : Agree T (i + 1) g g') :
    Reads T (Parser.otherType g) (Parser.otherType g') i fun kind j => Fits T i i j 0 0 kind.content := by
  have none (j : Nat) : Fits T i i j 0 0 Content.none := .none
  unfold Parser.otherType
  refine current ?_
  split <;> rename_i hkind
  · exact advance_bind (by rw [hkind]; decide) (pure (none _))
  · exact advance_bind (by rw [hkind]; decide) (pure (none _))
  · exact advance_bind (by rw [hkind]; decide) (pure (none _))
  · exact advance_bind (by rw [hkind]; decide) (pure (none _))
  · exact bind expectString fun _ j _ _ _ => pure (none j)
  · exact advance_bind (by rw [hkind]; decide) (pure (none _))
  · exact currentText (advance_bind (by rw [hkind]; decide) (pure (none _)))
  · refine kindAt ?_
    split
    · rename_i hnumber
      refine advance_bind (by rw [hkind]; decide) (currentText ?_)
      exact advance_bind (by rw [hnumber]; decide) (pure (none _))
    · exact report_bind rfl (pure (none _))
  · refine advance_bind (by rw [hkind]; decide) (bind (dottedName hT) fun name j hij _ hname => pure ?_)
    exact .ofSpots (hname.2 i (.inl (Nat.lt_succ_self i)))
  · refine bind (typeMembers hT hg) fun members j _ _ ⟨k, hik, hkj, hk, hm⟩ => pure ?_
    have := hk hkind
    exact hm.mono hT (by omega)
  · refine advance_bind (by rw [hkind]; decide) ?_
    refine bind (commaList fun m hm => tupleElement hT (hg.mono hm)) fun elements k hik _ hrow => ?_
    refine bind (expect (by decide)) fun _ j hkj _ _ => pure ?_
    have helements : Fits T (i + 1) (i + 1) k 1 0 (typesContent elements) := by
      rw [typesContent_eq]
      exact hrow.fits_of_le hT fun _ _ _ h => h
    exact helements.mono hT (by omega)
  · refine bind (typeParams hT hg).discard fun _ k hik _ ⟨_, hk⟩ => ?_
    have hik := hk hkind
    refine (functionType hT (hg.mono (by omega)) fun _ => hg.mono hik).mono ?_
    rintro kind j hkj - ⟨m, hkm, hmj, -, h⟩
    exact h.mono hT (by omega)
  · refine advance_bind (by rw [hkind]; decide) ?_
    refine bind (typeParams hT (hg.mono (by omega))).discard fun _ k hik _ _ => ?_
    refine (functionType hT (hg.mono (by omega)) fun _ => hg.mono hik).mono ?_
    rintro kind j hkj - ⟨m, hkm, hmj, -, h⟩
    exact h.mono hT (by omega)
  · exact report_bind rfl (pure (none _))

theorem primaryType (hT : Ruled T) (hg : Agree T (i + 1) g g') :
    Reads T (Parser.primaryType g) (Parser.primaryType g') i fun type j => TypeReads T i j type := by
  unfold Parser.primaryType
  refine currentSpan (current ?_)
  split <;> rename_i hkind
  · exact wordType hT hg hkind _
  · refine bind atFunctionType fun b k _ _ hk => ?_
    subst hk
    split
    · refine bind (functionType hT hg fun h => absurd hkind h) fun kind j _ _ ⟨k, hik, hkj, hk, h⟩ => spanFrom (pure ?_)
      have := hk hkind
      exact h.inside.mono hT (by omega)
    · refine advance_bind (by rw [hkind]; decide) (bind (hg.type (k + 1) (Nat.le_refl _)) fun inner m hkm _ h => ?_)
      refine bind (expect (by decide)) fun _ j hmj _ _ => spanFrom (pure ?_)
      rw [TypeReads, TypeNode.content_eq] at h
      exact h.mono hT (by omega)
  · exact bind (otherType hT hg) fun kind j _ _ hk => spanFrom (pure hk.inside)

theorem bracketStep (hT : Ruled T) (hg : Agree T (j + 1) g g') (start : Span) {type : TypeNode} (hij : i ≤ j) :
    Reads T (Parser.bracketStep g start type) (Parser.bracketStep g' start type) j
      (Round (fun type k => TypeReads T i k type) (fun type k => TypeReads T i k type) type j) := by
  unfold Parser.bracketStep
  refine atKind (newlineBefore ?_)
  split
  · rename_i hkind
    have hkind : kindOf T j = .lBracket := by simp at hkind; exact hkind.1
    refine advance_bind (by rw [hkind]; decide) (eat (by decide) (fun _ => ?_) fun _ => ?_)
    · exact spanFrom (pure ⟨by omega, fun htype => htype.inside.mono hT (by omega)⟩)
    · refine bind (hg.type (j + 1) (Nat.le_refl _)).discard fun _ k hjk _ _ => ?_
      refine bind (expect (by decide)) fun _ m hkm _ _ => spanFrom (pure ⟨by omega, fun _ => ?_⟩)
      exact (Fits.none : Fits T i i m 0 0 .none).inside
  · exact pure id

theorem postfixType (hT : Ruled T) (hg : Agree T (i + 1) g g') :
    Reads T (Parser.postfixType g) (Parser.postfixType g') i fun type j => TypeReads T i j type := by
  unfold Parser.postfixType
  refine currentSpan (bind (primaryType hT hg) fun type k hik _ htype => ?_)
  exact repeating (I := fun type m => TypeReads T i m type) (fun type m hkm =>
    bracketStep hT (hg.mono (by omega)) _ (by omega)) htype

/-- Parts joined by an operator are a list behind the first of them. -/
theorem joined (hT : Ruled T) {operator : TokenKind} (hop : operator ≠ .eof) {part part' : Parse TypeNode}
    {join : List TypeNode → TypeKind} (hjoin : ∀ members, (join members).content = typesContent members)
    (hpart : ∀ k, i ≤ k → Reads T part part' k fun type j => TypeReads T k j type) :
    Reads T (Parser.joined operator part join) (Parser.joined operator part' join) i
      fun type j => TypeReads T i j type := by
  unfold Parser.joined
  refine currentSpan (bind (eat_any hop).discard fun _ k hik _ _ => ?_)
  refine bind (hpart k hik) fun first m hkm _ hfirst => atKind ?_
  split
  · rename_i hmore
    refine bind (separated (P := TypeReads T) hop fun n hn => hpart n (by omega)) fun members j hmj _ hmembers => ?_
    refine spanFrom (pure ?_)
    obtain ⟨rest, rfl, ⟨-, -, hno⟩ | ⟨hmj, hrest⟩⟩ := hmembers
    · exact absurd (of_decide_eq_true hmore) hno
    · have hrest : Fits T (m + 1) (m + 1) j 1 0 (typesContent rest) := by
        rw [typesContent_eq]
        exact hrest.fits_of_le hT fun _ _ _ h => h
      have hall : Fits T k k j 1 0 (first.content ++ typesContent rest) := hfirst.append hT hrest (by omega)
      -- Each part leaves at least the operator to the others.
      have hall : Fits T k k j 0 0 (typesContent (first :: rest)) := by
        refine ⟨hall.placed, ?_, hall.declared_le⟩
        have := hfirst.height_le
        have := hrest.height_le
        rw [typesContent, Content.height_append]
        omega
      have := (hjoin (first :: rest)).symm ▸ hall
      exact this.inside.mono hT (by omega)
  · exact pure (hfirst.mono hT (by omega))

theorem intersectionType (hT : Ruled T) (hg : Agree T (i + 1) g g') :
    Reads T (Parser.intersectionType g) (Parser.intersectionType g') i fun type j => TypeReads T i j type :=
  joined hT (by decide) (fun _ => rfl) fun _ hk => postfixType hT (hg.mono (by omega))

theorem typeNode (hT : Ruled T) (hg : Agree T (i + 1) g g') :
    Reads T (Parser.typeNode g) (Parser.typeNode g') i fun type j => TypeReads T i j type :=
  joined hT (by decide) (fun _ => rfl) fun _ hk => intersectionType hT (hg.mono (by omega))

end Reads

end Recheck.Syntax.Parser
