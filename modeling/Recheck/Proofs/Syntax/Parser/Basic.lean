import Recheck.Proofs.Syntax.Parts

/-!
# Reading tokens and lists
-/

set_option autoImplicit false

namespace Recheck.Syntax.Parser

variable {α β : Type} {T : List Token} {i j : Nat}

namespace Reads

variable {R : β → Nat → Prop}

theorem eatWord {word : String} {f f' : Bool → Parse β}
    (yes : kindOf T i = .identifier → Reads T (f true) (f' true) (i + 1) R) (no : Reads T (f false) (f' false) i R) :
    Reads T (Parser.eatWord word >>= f) (Parser.eatWord word >>= f') i R := by
  refine bind (Q := fun b j => b = true ∧ kindOf T i = .identifier ∧ j = i + 1 ∨ b = false ∧ j = i) ?_ ?_
  · unfold Parser.eatWord
    refine atWord fun b hb => ?_
    cases b with
    | true => exact advance_bind (by rw [hb rfl]; decide) (pure (.inl ⟨rfl, hb rfl, rfl⟩))
    | false => exact pure (.inr ⟨rfl, rfl⟩)
  · rintro b j - - (⟨rfl, h, rfl⟩ | ⟨rfl, rfl⟩)
    · exact yes h
    · exact no

/-- A token that may be left out. -/
theorem eat_any {k : TokenKind} (hk : k ≠ .eof) :
    Reads T (Parser.eat k) (Parser.eat k) i fun _ j => j ≤ i + 1 := by
  have h : Reads T (Parser.eat k >>= Pure.pure) (Parser.eat k >>= Pure.pure) i fun _ j => j ≤ i + 1 :=
    eat hk (fun _ => pure (Nat.le_refl _)) fun _ => pure (Nat.le_succ i)
  exact h

theorem eatWord_any (word : String) :
    Reads T (Parser.eatWord word) (Parser.eatWord word) i fun _ j => j ≤ i + 1 := by
  have h : Reads T (Parser.eatWord word >>= Pure.pure) (Parser.eatWord word >>= Pure.pure) i fun _ j => j ≤ i + 1 :=
    eatWord (fun _ => pure (Nat.le_refl _)) (pure (Nat.le_succ i))
  exact h

theorem expect {k : TokenKind} (hk : k ≠ .eof) :
    Reads T (Parser.expect k) (Parser.expect k) i fun _ j => j ≤ i + 1 ∧ (kindOf T i = k → j = i + 1) := by
  unfold Parser.expect
  refine eat hk (fun h => pure ⟨Nat.le_refl _, fun _ => rfl⟩) fun h => ?_
  exact report rfl ⟨Nat.le_succ i, fun h' => absurd h' h⟩

theorem expectWord (word : String) :
    Reads T (Parser.expectWord word) (Parser.expectWord word) i fun _ j => j ≤ i + 1 := by
  unfold Parser.expectWord
  exact eatWord (fun _ => pure (Nat.le_refl _)) (report rfl (Nat.le_succ i))

theorem takeIdent (hkind : kindOf T i ≠ .eof) :
    Reads T Parser.takeIdent Parser.takeIdent i fun id j => id.span = spanOf T i ∧ j = i + 1 := by
  unfold Parser.takeIdent
  refine currentText (currentSpan ?_)
  exact advance_bind hkind (pure ⟨rfl, rfl⟩)

/-- A name has the span of the token here, whether it is read or not. -/
theorem expectIdent : Reads T Parser.expectIdent Parser.expectIdent i fun id j =>
    id.span = spanOf T i ∧ (j = i + 1 ∧ kindOf T i = .identifier ∨ j = i ∧ kindOf T i ≠ .identifier) := by
  unfold Parser.expectIdent
  refine atKind ?_
  by_cases h : kindOf T i = .identifier
  · rw [if_pos (decide_eq_true h)]
    refine (takeIdent (by rw [h]; decide)).mono ?_
    rintro id j - - ⟨hspan, rfl⟩
    exact ⟨hspan, .inl ⟨rfl, h⟩⟩
  · rw [if_neg (by simpa using h)]
    exact report_bind rfl (currentSpan (pure ⟨rfl, .inr ⟨rfl, h⟩⟩))

theorem expectString : Reads T Parser.expectString Parser.expectString i fun literal j =>
    literal.span = spanOf T i ∧ j ≤ i + 1 ∧ (kindOf T i = .stringLiteral → j = i + 1) := by
  unfold Parser.expectString
  refine currentSpan (atKind ?_)
  by_cases h : kindOf T i = .stringLiteral
  · rw [if_pos (decide_eq_true h)]
    exact currentText (advance_bind (by rw [h]; decide) (pure ⟨rfl, Nat.le_refl _, fun _ => rfl⟩))
  · rw [if_neg (by simpa using h)]
    exact report_bind rfl (pure ⟨rfl, Nat.le_succ i, fun h' => absurd h' h⟩)

theorem expectPropertyName : Reads T Parser.expectPropertyName Parser.expectPropertyName i fun id j =>
    id.span = spanOf T i ∧ (j = i + 1 ∨ j = i ∧ kindOf T i ≠ .identifier) := by
  unfold Parser.expectPropertyName
  refine current ?_
  by_cases hstring : kindOf T i = .stringLiteral
  · rw [if_pos hstring]
    refine bind expectString fun literal j _ _ h => pure ⟨h.1, .inl (h.2.2 hstring)⟩
  · rw [if_neg hstring]
    by_cases hword : (decide (kindOf T i = .numberLiteral) || (kindOf T i).isReservedWord) = true
    · rw [if_pos hword]
      refine (takeIdent ?_).mono fun id j _ _ h => ⟨h.1, .inl h.2⟩
      intro h
      rw [h] at hword
      exact absurd hword (by decide)
    · rw [if_neg hword]
      exact expectIdent.mono fun name j _ _ h => ⟨h.1, h.2.imp And.left id⟩

theorem expectSemicolon : Reads T Parser.expectSemicolon Parser.expectSemicolon i fun _ _ => True := by
  unfold Parser.expectSemicolon
  refine eat (by decide) (fun _ => pure trivial) fun _ => ?_
  refine atKind (atEnd (newlineBefore ?_))
  split
  · exact pure trivial
  · exact report rfl trivial

/-! ## Lists -/

variable {item item' : Parse α} {P : Nat → Nat → α → Prop}

/-- The items so far, newest first, as what stands in front of a row that begins here. -/
def Behind (gap : Nat) (P : Nat → Nat → α → Prop) (i : Nat) (items : List α) (k : Nat) : Prop :=
  ∀ j xs, Row gap P k j xs → Row gap P i j (items.reverse ++ xs)

theorem Behind.start {gap : Nat} : Behind gap P i [] i := fun _ _ h => h

theorem Behind.row {gap k : Nat} {items : List α} (h : Behind gap P i items k) : Row gap P i k items.reverse := by
  simpa using h k [] (.nil (Nat.le_refl k))

theorem Behind.mono {gap k k' : Nat} {items : List α} (h : Behind gap P i items k) (hk : k ≤ k') :
    Behind gap P i items k' := fun j xs hxs => h j xs (hxs.widen hk)

/-- The row with one more item at its end. -/
theorem Behind.row_cons {gap k a b : Nat} {items : List α} {x : α} (h : Behind gap P i items k) (hk : k ≤ a)
    (hab : a ≤ b) (hx : P a b x) : Row gap P i b (x :: items).reverse := by
  rw [List.reverse_cons]
  exact h b [x] (.last hk hab (Nat.le_refl b) hx)

theorem Behind.cons {gap k a b : Nat} {items : List α} {x : α} (h : Behind gap P i items k) (hk : k ≤ a)
    (hab : a ≤ b) (hx : P a b x) : Behind gap P i (x :: items) (b + gap) := by
  intro j xs hxs
  rw [List.reverse_cons, List.append_assoc]
  exact h j (x :: xs) (.cons hk hab hx hxs)

/-- One round of a list whose items are separated by commas. -/
theorem commaStep {close : TokenKind} {items : List α} {k : Nat}
    (h : Reads T item item' k fun x j => P k j x) :
    Reads T (Parser.commaStep close item items) (Parser.commaStep close item' items) k
      (Round (Behind 1 P i) (fun items j => Row 1 P i j items.reverse) items k) := by
  unfold Parser.commaStep
  refine atEnd (atKind ?_)
  split
  · exact pure Behind.row
  · refine bind h fun x j hkj _ hx => eat (by decide) (fun _ => pure ⟨by omega, ?_⟩) fun _ => pure ?_
    · exact fun hitems => hitems.cons (Nat.le_refl k) hkj hx
    · exact fun hitems => hitems.row_cons (Nat.le_refl k) hkj hx

theorem commaList {close : TokenKind} (h : ∀ k, i ≤ k → Reads T item item' k fun x j => P k j x) :
    Reads T (Parser.commaList close item) (Parser.commaList close item') i fun xs j => Row 1 P i j xs := by
  unfold Parser.commaList
  refine bind (repeating (I := Behind 1 P i) (R := fun items j => Row 1 P i j items.reverse) ?_ .start)
    fun items j _ _ h => pure h
  exact fun items k hik => commaStep (h k hik)

/-- The items behind the first one, as long as another one may follow behind a separator. -/
def Chained (P : Nat → Nat → α → Prop) (i : Nat) (first : α) (items : List α) (k : Nat) : Prop :=
  ∃ tail, items = tail ++ [first] ∧ (tail = [] ∧ k = i ∨ i < k ∧ Row 1 P (i + 1) k tail.reverse) ∧
    Behind 1 P (i + 1) tail (k + 1)

/-- A list that begins with an item which has been read. -/
def Continued (T : List Token) (separator : TokenKind) (P : Nat → Nat → α → Prop) (i : Nat) (first : α) (xs : List α)
    (j : Nat) : Prop :=
  ∃ rest, xs = first :: rest ∧
    (rest = [] ∧ j = i ∧ kindOf T i ≠ separator ∨ i < j ∧ Row 1 P (i + 1) j rest)

theorem Continued.row {separator : TokenKind} {i₀ : Nat} {first : α} {xs : List α}
    (h : Continued T separator P i first xs j) (hi : i₀ ≤ i) (hfirst : P i₀ i first) : Row 1 P i₀ j xs := by
  obtain ⟨rest, rfl, ⟨rfl, rfl, -⟩ | ⟨-, hrest⟩⟩ := h
  · exact .last (Nat.le_refl _) hi (Nat.le_refl _) hfirst
  · exact .cons (Nat.le_refl _) hi hfirst hrest

theorem separatedStep {separator : TokenKind} (hsep : separator ≠ .eof) {a : α} {items : List α} {k : Nat}
    (hik : i ≤ k) (h : Reads T item item' (k + 1) fun x j => P (k + 1) j x) :
    Reads T (Parser.separatedStep separator item items) (Parser.separatedStep separator item' items) k
      (Round (Chained P i a) (fun items j => Continued T separator P i a items.reverse j) items k) := by
  unfold Parser.separatedStep
  refine eat hsep (fun _ => bind h fun x j hj _ hx => pure ⟨by omega, ?_⟩) fun hkind => pure ?_
  · rintro ⟨tail, rfl, -, hbehind⟩
    refine ⟨x :: tail, rfl, .inr ⟨by omega, ?_⟩, ?_⟩
    · exact hbehind.row_cons (Nat.le_refl _) hj hx
    · exact hbehind.cons (Nat.le_refl _) hj hx
  · rintro ⟨tail, rfl, hrow, -⟩
    refine ⟨tail.reverse, by simp, ?_⟩
    rcases hrow with ⟨rfl, rfl⟩ | h
    · exact .inl ⟨rfl, rfl, hkind⟩
    · exact .inr h

theorem separated {separator : TokenKind} (hsep : separator ≠ .eof) {first : α}
    (h : ∀ k, i < k → Reads T item item' k fun x j => P k j x) :
    Reads T (Parser.separated separator item first) (Parser.separated separator item' first) i
      fun xs j => Continued T separator P i first xs j := by
  unfold Parser.separated
  refine bind (repeating (I := Chained P i first)
    (R := fun items j => Continued T separator P i first items.reverse j) ?_ ?_) fun items j _ _ h => pure h
  · exact fun items k hik => separatedStep hsep hik (h (k + 1) (by omega))
  · exact ⟨[], rfl, .inl ⟨rfl, rfl⟩, .start⟩

theorem skipStep : Reads T (Parser.skipStep ()) (Parser.skipStep ()) i
    (Round (fun _ _ => True) (fun _ _ => True) () i) := by
  unfold Parser.skipStep
  refine atEnd (atKind (newlineBefore (atKind ?_)))
  split
  · exact pure fun _ => trivial
  · rename_i h
    refine advance_bind ?_ (pure ⟨Nat.lt_succ_self i, fun _ => trivial⟩)
    intro hkind
    simp [hkind] at h

theorem recoverStatement :
    Reads T Parser.recoverStatement Parser.recoverStatement i fun _ j => kindOf T i ≠ .eof → i < j := by
  unfold Parser.recoverStatement
  refine bind advance_any fun _ k _ _ hk => ?_
  refine bind (repeating (I := fun _ _ => True) (R := fun _ _ => True) (fun _ _ _ => skipStep) trivial) fun _ j hj _ _ => ?_
  exact discard_eat (by decide) (fun _ => pure fun h => by have := hk h; omega) fun _ => pure fun h => by have := hk h; omega

end Reads

end Recheck.Syntax.Parser
