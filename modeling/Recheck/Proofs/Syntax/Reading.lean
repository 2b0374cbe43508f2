import Recheck.Syntax.Parse

/-!
# What a part of the parser reads

All that a part of the parser does is said by an index into the tokens of the text: it begins at one and ends at
another (`Reads`). Two grammars are followed at once, so that what is proved of a part also says that a part turns to
its grammar only behind a token it has read: its runs agree as soon as the grammars agree from there on. On the way the
parser takes single steps (`Steps`), each of which drops one token or reports one fault, and no fault of the kinds that are
left to the lexer (`Moves`).
-/

set_option autoImplicit false

namespace Recheck.Syntax

/-- Whether a fault lies in a single token or comment, where the lexer finds it. -/
def Fault.isLexical : Fault → Bool
  | openComment | openString | openTemplate | strayCharacter => true
  | _ => false

namespace Parser

variable {α β σ : Type} {T : List Token} {i j : Nat}

/-! ## Tokens by their index -/

def kindOf (T : List Token) (i : Nat) : TokenKind := (T[i]?.map (·.kind)).getD .eof

def textOf (T : List Token) (i : Nat) : String := (T[i]?.map (·.text)).getD ""

def spanOf (T : List Token) (i : Nat) : Span := (T[i]?.map (·.span)).getD Span.empty

def newlineOf (T : List Token) (i : Nat) : Bool := T[i]?.any (·.newlineBefore)

/-- The last token is the end of the text, and no other is. -/
structure Ended (T : List Token) : Prop where
  kind_eq_eof : ∀ i, i < T.length → (kindOf T i = .eof ↔ i + 1 = T.length)

/-- The parser stands at the token of this index. -/
structure At (T : List Token) (i : Nat) (s : State) : Prop where
  ended : Ended T
  lt : i < T.length
  rest : s.rest = T.drop i
  previous : s.previousSpan = spanOf T (i - 1)

/-- Tokens are dropped one by one, and never the end. -/
inductive Steps : State → State → Prop where
  | refl (s : State) : Steps s s
  | report {s s' : State} (fault : Fault) : Steps (s.report fault) s' → Steps s s'
  | advance {s s' : State} {t : Token} {rest : List Token} : s.rest = t :: rest → t.kind ≠ .eof →
      Steps { s with rest := rest, previous := some t.span } s' → Steps s s'

theorem Steps.trans {s₁ s₂ s₃ : State} (h₁ : Steps s₁ s₂) (h₂ : Steps s₂ s₃) : Steps s₁ s₃ := by
  induction h₁ with
  | refl => exact h₂
  | report fault _ ih => exact .report fault (ih h₂)
  | advance hrest hkind _ ih => exact .advance hrest hkind (ih h₂)

theorem rest_report (s : State) (fault : Fault) : (s.report fault).rest = s.rest := by
  unfold State.report
  split <;> rfl

theorem previous_report (s : State) (fault : Fault) : (s.report fault).previous = s.previous := by
  unfold State.report
  split <;> rfl

/-- What is left is a suffix of what was left. -/
theorem Steps.suffix {s s' : State} (h : Steps s s') : s'.rest <:+ s.rest := by
  induction h with
  | refl => exact List.suffix_refl _
  | report fault _ ih => rwa [rest_report] at ih
  | advance hrest _ _ ih => exact hrest ▸ ih.trans (List.suffix_cons _ _)

/-- Every fault is reported at a token that was current. -/
theorem Steps.mem_reports {s s' : State} (h : Steps s s') {r : Report} (hr : r ∈ s'.reports) :
    r ∈ s.reports ∨ ∃ i, r.span = spanOf s.rest i := by
  induction h with
  | refl => exact .inl hr
  | @report s s' fault _ ih =>
    rw [rest_report] at ih
    rcases ih hr with h | h
    · unfold State.report at h
      split at h
      · exact .inl h
      · rcases List.mem_cons.mp h with rfl | h
        · refine .inr ⟨0, ?_⟩
          simp [spanOf, State.span, List.head?_eq_getElem?]
        · exact .inl h
    · exact .inr h
  | advance hrest _ _ ih =>
    rcases ih hr with h | ⟨i, h⟩
    · exact .inl h
    · refine .inr ⟨i + 1, ?_⟩
      rw [h, hrest]
      rfl

/-- Steps of the parser, which leaves the faults of single tokens and comments to the lexer. -/
inductive Moves : State → State → Prop where
  | refl (s : State) : Moves s s
  | report {s s' : State} {fault : Fault} : fault.isLexical = false → Moves (s.report fault) s' → Moves s s'
  | advance {s s' : State} {t : Token} {rest : List Token} : s.rest = t :: rest → t.kind ≠ .eof →
      Moves { s with rest := rest, previous := some t.span } s' → Moves s s'

namespace Moves

variable {s s' s'' : State}

theorem steps (h : Moves s s') : Steps s s' := by
  induction h with
  | refl s => exact .refl s
  | report _ _ ih => exact .report _ ih
  | advance hrest hkind _ ih => exact .advance hrest hkind ih

theorem trans (h : Moves s s') (h' : Moves s' s'') : Moves s s'' := by
  induction h with
  | refl => exact h'
  | report hfault _ ih => exact .report hfault (ih h')
  | advance hrest hkind _ ih => exact .advance hrest hkind (ih h')

/-- No fault that the parser reports is one of the lexer. -/
theorem isLexical_of_mem_reports (h : Moves s s') {r : Report} (hr : r ∈ s'.reports) :
    r ∈ s.reports ∨ r.fault.isLexical = false := by
  induction h with
  | refl => exact .inl hr
  | @report s s' fault hfault _ ih =>
    rcases ih hr with h | h
    · unfold State.report at h
      split at h
      · exact .inl h
      · rcases List.mem_cons.mp h with rfl | h
        · exact .inr hfault
        · exact .inl h
    · exact .inr h
  | advance _ _ _ ih => exact ih hr

end Moves

namespace At

variable {s : State}

theorem getElem?_rest (h : At T i s) (n : Nat) : s.rest[n]? = T[i + n]? := by
  rw [h.rest, List.getElem?_drop]

theorem kindAt (h : At T i s) (n : Nat) : s.kindAt n = kindOf T (i + n) := by
  rw [State.kindAt, h.getElem?_rest, kindOf]

theorem textAt (h : At T i s) (n : Nat) : s.textAt n = textOf T (i + n) := by
  rw [State.textAt, h.getElem?_rest, textOf]

theorem newlineAt (h : At T i s) (n : Nat) : s.newlineAt n = newlineOf T (i + n) := by
  rw [State.newlineAt, h.getElem?_rest, newlineOf]

theorem span (h : At T i s) : s.span = spanOf T i := by
  rw [State.span, List.head?_eq_getElem?, h.getElem?_rest, spanOf, Nat.add_zero]

theorem length_rest (h : At T i s) : s.rest.length = T.length - i := by
  rw [h.rest, List.length_drop]

theorem report (h : At T i s) (fault : Fault) : At T i (s.report fault) where
  ended := h.ended
  lt := h.lt
  rest := (rest_report s fault).trans h.rest
  previous := by
    have hprevious := h.previous
    rw [State.previousSpan, State.span] at hprevious ⊢
    rwa [previous_report, rest_report]

/-- The token behind any other than the end. -/
theorem succ (h : At T i s) (hkind : kindOf T i ≠ .eof) :
    ∃ t rest, s.rest = t :: rest ∧ t.kind ≠ .eof ∧
      At T (i + 1) { s with rest := rest, previous := some t.span } := by
  have hlt : i + 1 < T.length := by
    have := h.lt
    have := mt (h.ended.kind_eq_eof i h.lt).mpr hkind
    omega
  have hget : T[i]? = some T[i] := List.getElem?_eq_getElem h.lt
  refine ⟨T[i], T.drop (i + 1), ?_, ?_, h.ended, hlt, rfl, ?_⟩
  · rw [h.rest, List.drop_eq_getElem_cons h.lt]
  · simpa [kindOf, hget] using hkind
  · simp [State.previousSpan, spanOf, hget]

end At

theorem At.le {s s' : State} (h : At T i s) (hs : Steps s s') (h' : At T j s') : i ≤ j := by
  have := hs.suffix.length_le
  rw [h.length_rest, h'.length_rest] at this
  have := h'.lt
  omega

/-! ## Reading with two grammars -/

/-- Both parsers behave alike from the token of this index on, and from there get to another one with a result of which
`Q` holds. -/
def Reads (T : List Token) (p p' : Parse α) (i : Nat) (Q : α → Nat → Prop) : Prop :=
  ∀ s, At T i s → ∃ j, At T j (p s).2 ∧ p' s = p s ∧ Moves s (p s).2 ∧ Q (p s).1 j

namespace Reads

variable {p p' : Parse α} {f f' : α → Parse β} {Q : α → Nat → Prop} {R : β → Nat → Prop}

theorem pure {a : α} (h : Q a i) : Reads T (Pure.pure a) (Pure.pure a) i Q :=
  fun s hs => ⟨i, hs, rfl, .refl s, h⟩

theorem here (h : i < T.length → Reads T p p' i Q) : Reads T p p' i Q :=
  fun s hs => h hs.lt s hs

theorem bind (h : Reads T p p' i Q)
    (next : ∀ a j, i ≤ j → j < T.length → Q a j → Reads T (f a) (f' a) j R) :
    Reads T (p >>= f) (p' >>= f') i R := by
  intro s hs
  obtain ⟨j, hj, heq, hsteps, hQ⟩ := h s hs
  obtain ⟨k, hk, heq', hsteps', hR⟩ := next _ j (hs.le hsteps.steps hj) hj.lt hQ _ hj
  refine ⟨k, hk, ?_, hsteps.trans hsteps', hR⟩
  change f' (p' s).1 (p' s).2 = f (p s).1 (p s).2
  rw [heq, heq']

theorem mono {Q' : α → Nat → Prop} (h : Reads T p p' i Q)
    (hQ : ∀ a j, i ≤ j → j < T.length → Q a j → Q' a j) : Reads T p p' i Q' := by
  intro s hs
  obtain ⟨j, hj, heq, hsteps, h⟩ := h s hs
  exact ⟨j, hj, heq, hsteps, hQ _ j (hs.le hsteps.steps hj) hj.lt h⟩

theorem discard (h : Reads T p p' i Q) : Reads T (discard p) (discard p') i (fun _ j => ∃ a, Q a j) := by
  intro s hs
  obtain ⟨j, hj, heq, hsteps, h⟩ := h s hs
  refine ⟨j, hj, ?_, hsteps, _, h⟩
  change (PUnit.unit, (p' s).2) = (PUnit.unit, (p s).2)
  rw [heq]

/-- A question changes nothing. -/
theorem ask {q : Parse α} {a : α} (hq : ∀ s, At T i s → q s = (a, s)) (h : Reads T (f a) (f' a) i R) :
    Reads T (q >>= f) (q >>= f') i R := by
  intro s hs
  change ∃ j, At T j (f (q s).1 (q s).2).2 ∧ f' (q s).1 (q s).2 = f (q s).1 (q s).2 ∧
    Moves s (f (q s).1 (q s).2).2 ∧ R (f (q s).1 (q s).2).1 j
  rw [hq s hs]
  exact h s hs

/-- What is known of the state itself. -/
theorem get {f f' : State → Parse β} (h : ∀ s, At T i s → Reads T (f s) (f' s) i R) :
    Reads T (MonadState.get >>= f) (MonadState.get >>= f') i R :=
  fun s hs => h s hs s hs

end Reads

/-! ## Questions -/

namespace Reads

variable {R : β → Nat → Prop}

theorem kindAt {n : Nat} {f f' : TokenKind → Parse β}
    (h : Reads T (f (kindOf T (i + n))) (f' (kindOf T (i + n))) i R) :
    Reads T (Parser.kindAt n >>= f) (Parser.kindAt n >>= f') i R :=
  ask (fun s hs => by change (s.kindAt n, s) = _; rw [hs.kindAt]) h

theorem current {f f' : TokenKind → Parse β} (h : Reads T (f (kindOf T i)) (f' (kindOf T i)) i R) :
    Reads T (Parser.current >>= f) (Parser.current >>= f') i R := kindAt h

theorem currentText {f f' : String → Parse β} (h : Reads T (f (textOf T i)) (f' (textOf T i)) i R) :
    Reads T (Parser.currentText >>= f) (Parser.currentText >>= f') i R :=
  ask (fun s hs => by change (s.textAt 0, s) = _; rw [hs.textAt]; rfl) h

theorem currentSpan {f f' : Span → Parse β} (h : Reads T (f (spanOf T i)) (f' (spanOf T i)) i R) :
    Reads T (Parser.currentSpan >>= f) (Parser.currentSpan >>= f') i R :=
  ask (fun s hs => by change (s.span, s) = _; rw [hs.span]) h

theorem spanFrom {start : Span} {f f' : Span → Parse β}
    (h : Reads T (f (start.merge (spanOf T (i - 1)))) (f' (start.merge (spanOf T (i - 1)))) i R) :
    Reads T (Parser.spanFrom start >>= f) (Parser.spanFrom start >>= f') i R :=
  ask (fun s hs => by change (start.merge s.previousSpan, s) = _; rw [hs.previous]) h

theorem remaining {f f' : Nat → Parse β} (h : Reads T (f (T.length - i)) (f' (T.length - i)) i R) :
    Reads T (Parser.remaining >>= f) (Parser.remaining >>= f') i R :=
  ask (fun s hs => by change (s.rest.length, s) = _; rw [hs.length_rest]) h

theorem newlineBefore {f f' : Bool → Parse β} (h : Reads T (f (newlineOf T i)) (f' (newlineOf T i)) i R) :
    Reads T (Parser.newlineBefore >>= f) (Parser.newlineBefore >>= f') i R :=
  ask (fun s hs => by change (s.newlineAt 0, s) = _; rw [hs.newlineAt]; rfl) h

theorem atKind {k : TokenKind} {f f' : Bool → Parse β}
    (h : Reads T (f (kindOf T i = k)) (f' (kindOf T i = k)) i R) :
    Reads T (Parser.atKind k >>= f) (Parser.atKind k >>= f') i R :=
  ask (fun s hs => by change (decide (s.kindAt 0 = k), s) = _; rw [hs.kindAt]; rfl) h

theorem atEnd {f f' : Bool → Parse β} (h : Reads T (f (kindOf T i = .eof)) (f' (kindOf T i = .eof)) i R) :
    Reads T (Parser.atEnd >>= f) (Parser.atEnd >>= f') i R := atKind h

theorem atWord {word : String} {f f' : Bool → Parse β}
    (h : ∀ b : Bool, (b = true → kindOf T i = .identifier) → Reads T (f b) (f' b) i R) :
    Reads T (Parser.atWord word >>= f) (Parser.atWord word >>= f') i R := by
  refine ask (a := kindOf T i = .identifier && textOf T i = word) (fun s hs => ?_) (h _ fun h => ?_)
  · change (decide (s.kindAt 0 = .identifier) && decide (s.textAt 0 = word), s) = _
    rw [hs.kindAt, hs.textAt]
    rfl
  · exact of_decide_eq_true (Bool.and_eq_true_iff.mp h).1

end Reads

/-! ## Steps -/

namespace Reads

variable {R : β → Nat → Prop}

theorem advance {Q : Unit → Nat → Prop} (hkind : kindOf T i ≠ .eof) (h : i + 1 < T.length → Q () (i + 1)) :
    Reads T Parser.advance Parser.advance i Q := by
  intro s hs
  obtain ⟨t, rest, hrest, ht, hnext⟩ := hs.succ hkind
  have hadvance : s.advance = { s with rest := rest, previous := some t.span } := by
    rw [State.advance, hrest]
    exact if_neg ht
  refine ⟨i + 1, ?_, rfl, ?_, h hnext.lt⟩
  · change At T (i + 1) s.advance
    rwa [hadvance]
  · change Moves s s.advance
    rw [hadvance]
    exact .advance hrest ht (.refl _)

theorem advance_bind {f f' : Unit → Parse β} (hkind : kindOf T i ≠ .eof) (h : Reads T (f ()) (f' ()) (i + 1) R) :
    Reads T (Parser.advance >>= f) (Parser.advance >>= f') i R :=
  bind (Q := fun _ j => j = i + 1) (advance hkind fun _ => rfl) fun _ _ _ _ hj => hj ▸ h

/-- The end of the text stays. -/
theorem advance_any : Reads T Parser.advance Parser.advance i fun _ j => kindOf T i ≠ .eof → i < j := by
  by_cases hkind : kindOf T i = .eof
  · intro s hs
    have hadvance : s.advance = s := by
      have hrest := hs.rest.trans (List.drop_eq_getElem_cons hs.lt)
      rw [State.advance, hrest]
      exact if_pos (by simpa [kindOf, List.getElem?_eq_getElem hs.lt] using hkind)
    refine ⟨i, ?_, rfl, ?_, fun h => absurd hkind h⟩
    · change At T i s.advance
      rwa [hadvance]
    · change Moves s s.advance
      rw [hadvance]
      exact .refl s
  · exact advance hkind fun _ _ => Nat.lt_succ_self i

theorem report {Q : Unit → Nat → Prop} {fault : Fault} (hfault : fault.isLexical = false) (h : Q () i) :
    Reads T (Parser.report fault) (Parser.report fault) i Q :=
  fun _ hs => ⟨i, hs.report fault, rfl, .report hfault (.refl _), h⟩

theorem report_bind {fault : Fault} (hfault : fault.isLexical = false) {f f' : Unit → Parse β}
    (h : Reads T (f ()) (f' ()) i R) : Reads T (Parser.report fault >>= f) (Parser.report fault >>= f') i R :=
  bind (Q := fun _ j => j = i) (report hfault rfl) fun _ _ _ _ hj => hj ▸ h

theorem eat {k : TokenKind} (hk : k ≠ .eof) {f f' : Bool → Parse β}
    (yes : kindOf T i = k → Reads T (f true) (f' true) (i + 1) R)
    (no : kindOf T i ≠ k → Reads T (f false) (f' false) i R) :
    Reads T (Parser.eat k >>= f) (Parser.eat k >>= f') i R := by
  refine bind (Q := fun b j => b = true ∧ kindOf T i = k ∧ j = i + 1 ∨ b = false ∧ kindOf T i ≠ k ∧ j = i) ?_ ?_
  · unfold Parser.eat
    refine atKind ?_
    by_cases h : kindOf T i = k
    · rw [if_pos (decide_eq_true h)]
      exact advance_bind (h ▸ hk) (pure (.inl ⟨rfl, h, rfl⟩))
    · rw [if_neg (by simpa using h)]
      exact pure (.inr ⟨rfl, h, rfl⟩)
  · rintro b j - - (⟨rfl, h, rfl⟩ | ⟨rfl, h, rfl⟩)
    · exact yes h
    · exact no h

/-- A token that may be left out. -/
theorem discard_eat {k : TokenKind} (hk : k ≠ .eof) {f f' : PUnit → Parse β}
    (yes : kindOf T i = k → Reads T (f ⟨⟩) (f' ⟨⟩) (i + 1) R) (no : kindOf T i ≠ k → Reads T (f ⟨⟩) (f' ⟨⟩) i R) :
    Reads T (Functor.discard (Parser.eat k) >>= f) (Functor.discard (Parser.eat k) >>= f') i R := by
  have h : Reads T (Parser.eat k >>= fun _ => f ⟨⟩) (Parser.eat k >>= fun _ => f' ⟨⟩) i R := eat hk yes no
  exact h

end Reads

/-! ## Loops -/

/-- What a round of a loop comes to: it goes on behind a token it has read and keeps the invariant `I`, or it stops. -/
def Round (I R : σ → Nat → Prop) (acc : σ) (k : Nat) : Step σ → Nat → Prop
  | .more next, j => k < j ∧ (I acc k → I next j)
  | .done last, j => I acc k → R last j

namespace Reads

variable {step step' : σ → Parse (Step σ)} {I R : σ → Nat → Prop}

/-- As many rounds as there are tokens are enough. -/
theorem runSteps (round : ∀ acc k, i ≤ k → Reads T (step acc) (step' acc) k (Round I R acc k)) (n n' : Nat)
    {k : Nat} (hn : T.length ≤ k + n) (hn' : T.length ≤ k + n') (hk : i ≤ k) {acc : σ} (h : I acc k) :
    Reads T (Parser.runSteps step n acc) (Parser.runSteps step' n' acc) k R := by
  induction n generalizing k n' acc with
  | zero =>
    intro s hs
    have := hs.lt
    omega
  | succ n ih =>
    cases n' with
    | zero =>
      intro s hs
      have := hs.lt
      omega
    | succ n' =>
      refine bind (round acc k hk) fun next j _ _ hnext => ?_
      cases next with
      | more next =>
        have hkj := hnext.1
        exact ih n' (by omega) (by omega) (by omega) (hnext.2 h)
      | done last => exact pure (hnext h)

/-- The rounds that are allowed are never used up. -/
theorem repeating (round : ∀ acc k, i ≤ k → Reads T (step acc) (step' acc) k (Round I R acc k)) {acc : σ}
    (h : I acc i) : Reads T (Parser.repeating step acc) (Parser.repeating step' acc) i R :=
  remaining (runSteps round _ _ (by omega) (by omega) (Nat.le_refl i) h)

end Reads

end Parser

end Recheck.Syntax
