import Recheck.Proofs.Syntax.Parser.Statements
import Recheck.Proofs.Syntax.Pieces

/-!
# What a part of the parser builds

What a part of the parser builds lies between the token at which it begins and the one at which it ends. That holds of
its own result only as long as no fault is found; as faults stay, it is enough that none is found in the end. So a
statement about the result may use what is said of the results before it, if it is asked for behind all of them: this is
why `Builds.bind` hands on what has been shown as a hypothesis of what is still to be shown.
-/

set_option autoImplicit false

namespace Recheck.Syntax.Parser

variable {α β σ : Type} {T : List Token} {f i j : Nat}

theorem lastFault_report (s : State) (fault : Fault) : (s.report fault).lastFault ≠ none := by
  unfold State.report
  split
  · rename_i h
    rw [h]
    exact nofun
  · exact nofun

/-- A fault is never forgotten. -/
theorem Steps.lastFault_eq_none {s s' : State} (h : Steps s s') (hs : s'.lastFault = none) : s.lastFault = none := by
  induction h with
  | refl => exact hs
  | report fault _ ih => exact absurd (ih hs) (lastFault_report _ fault)
  | advance _ _ _ ih => exact ih hs

/-- The parser gets from the token of this index to another one. Unless it has found a fault where `f` says that there
are none, `Q` holds of its result. -/
def Builds (T : List Token) (f : Nat) (p : Parse α) (i : Nat) (Q : α → Nat → Prop) : Prop :=
  Ruled T → ∀ s, At T i s →
    ∃ j, At T j (p s).2 ∧ Steps s (p s).2 ∧ ((f = 0 → (p s).2.lastFault = none) → Q (p s).1 j)

namespace Builds

variable {p : Parse α} {next : α → Parse β} {Q Q' : α → Nat → Prop} {R : β → Nat → Prop}

theorem pure {a : α} (h : Q a i) : Builds T f (Pure.pure a) i Q :=
  fun _ s hs => ⟨i, hs, .refl s, fun _ => h⟩

theorem here (h : Ruled T → i < T.length → Builds T f p i Q) : Builds T f p i Q :=
  fun hT s hs => h hT hs.lt hT s hs

theorem bind (h : Builds T f p i Q)
    (hnext : ∀ a j, i ≤ j → Builds T f (next a) j fun b m => Q a j → R b m) : Builds T f (p >>= next) i R := by
  intro hT s hs
  obtain ⟨j, hj, hsteps, hQ⟩ := h hT s hs
  obtain ⟨m, hm, hsteps', hR⟩ := hnext (p s).1 j (hs.le hsteps hj) hT _ hj
  refine ⟨m, hm, hsteps.trans hsteps', fun hclean => hR hclean (hQ fun hf => ?_)⟩
  exact hsteps'.lastFault_eq_none (hclean hf)

theorem mono (h : Builds T f p i Q) (hQ : ∀ a j, i ≤ j → Q a j → Q' a j) : Builds T f p i Q' := by
  intro hT s hs
  obtain ⟨j, hj, hsteps, h⟩ := h hT s hs
  exact ⟨j, hj, hsteps, fun hclean => hQ _ j (hs.le hsteps hj) (h hclean)⟩

/-- What has been read makes no difference for the result. -/
theorem seq (h : Builds T f p i Q) (hnext : ∀ a j, i ≤ j → Builds T f (next a) j R) : Builds T f (p >>= next) i R :=
  bind h fun a j hij => (hnext a j hij).mono fun _ _ _ hR _ => hR

theorem skip {next : PUnit → Parse β} (h : Builds T f p i Q) (hnext : ∀ j, i ≤ j → Builds T f (next ⟨⟩) j R) :
    Builds T f (Functor.discard p >>= next) i R := by
  have : Builds T f (p >>= fun _ => next ⟨⟩) i R := seq h fun _ => hnext
  exact this

/-- Where nothing is built it is enough to know what is read. -/
theorem of_reads (h : Reads T p p i Q) : Builds T f p i Q := by
  intro _ s hs
  obtain ⟨j, hj, -, hmoves, hQ⟩ := h s hs
  exact ⟨j, hj, hmoves.steps, fun _ => hQ⟩

theorem read (h : Reads T p p i Q) (hnext : ∀ a j, i ≤ j → Q a j → Builds T f (next a) j R) :
    Builds T f (p >>= next) i R := by
  intro hT s hs
  obtain ⟨j, hj, -, hmoves, hQ⟩ := h s hs
  obtain ⟨m, hm, hsteps, hR⟩ := hnext (p s).1 j (hs.le hmoves.steps hj) hQ hT _ hj
  exact ⟨m, hm, hmoves.steps.trans hsteps, hR⟩

theorem ask {q : Parse α} {a : α} (hq : ∀ s, At T i s → q s = (a, s)) (h : Builds T f (next a) i R) :
    Builds T f (q >>= next) i R := by
  intro hT s hs
  change ∃ j, At T j (next (q s).1 (q s).2).2 ∧ Steps s (next (q s).1 (q s).2).2 ∧
    ((f = 0 → (next (q s).1 (q s).2).2.lastFault = none) → R (next (q s).1 (q s).2).1 j)
  rw [hq s hs]
  exact h hT s hs

theorem get {next : State → Parse β} (h : ∀ s, At T i s → Builds T f (next s) i R) :
    Builds T f (MonadState.get >>= next) i R :=
  fun hT s hs => h s hs hT s hs

end Builds

/-! ## Questions -/

namespace Builds

variable {R : β → Nat → Prop}

theorem kindAt {n : Nat} {next : TokenKind → Parse β} (h : Builds T f (next (kindOf T (i + n))) i R) :
    Builds T f (Parser.kindAt n >>= next) i R :=
  ask (fun s hs => by change (s.kindAt n, s) = _; rw [hs.kindAt]) h

theorem current {next : TokenKind → Parse β} (h : Builds T f (next (kindOf T i)) i R) :
    Builds T f (Parser.current >>= next) i R := kindAt h

theorem currentText {next : String → Parse β} (h : Builds T f (next (textOf T i)) i R) :
    Builds T f (Parser.currentText >>= next) i R :=
  ask (fun s hs => by change (s.textAt 0, s) = _; rw [hs.textAt]; rfl) h

theorem currentSpan {next : Span → Parse β} (h : Builds T f (next (spanOf T i)) i R) :
    Builds T f (Parser.currentSpan >>= next) i R :=
  ask (fun s hs => by change (s.span, s) = _; rw [hs.span]) h

theorem remaining {next : Nat → Parse β} (h : Builds T f (next (T.length - i)) i R) :
    Builds T f (Parser.remaining >>= next) i R :=
  ask (fun s hs => by change (s.rest.length, s) = _; rw [hs.length_rest]) h

theorem newlineBefore {next : Bool → Parse β} (h : Builds T f (next (newlineOf T i)) i R) :
    Builds T f (Parser.newlineBefore >>= next) i R :=
  ask (fun s hs => by change (s.newlineAt 0, s) = _; rw [hs.newlineAt]; rfl) h

theorem atKind {k : TokenKind} {next : Bool → Parse β} (h : Builds T f (next (kindOf T i = k)) i R) :
    Builds T f (Parser.atKind k >>= next) i R :=
  ask (fun s hs => by change (decide (s.kindAt 0 = k), s) = _; rw [hs.kindAt]; rfl) h

theorem atEnd {next : Bool → Parse β} (h : Builds T f (next (kindOf T i = .eof)) i R) :
    Builds T f (Parser.atEnd >>= next) i R := atKind h

theorem atWord {word : String} {next : Bool → Parse β}
    (h : ∀ b : Bool, (b = true → kindOf T i = .identifier) → Builds T f (next b) i R) :
    Builds T f (Parser.atWord word >>= next) i R := by
  refine ask (a := kindOf T i = .identifier && textOf T i = word) (fun s hs => ?_) (h _ fun h => ?_)
  · change (decide (s.kindAt 0 = .identifier) && decide (s.textAt 0 = word), s) = _
    rw [hs.kindAt, hs.textAt]
    rfl
  · exact of_decide_eq_true (Bool.and_eq_true_iff.mp h).1

/-- A node that ends here. It has a place of its own as soon as a token has been read for it. -/
theorem spanFrom {i₀ : Nat} {next : Span → Parse β}
    (h : ∀ s, ((f = 0 → i₀ < i) → Joins T f i₀ i s) → Lies T s → Builds T f (next s) i R) :
    Builds T f (Parser.spanFrom (spanOf T i₀) >>= next) i R := by
  refine here fun hT hi => ask (fun s hs => ?_) (h _ (.merge hT hi) ((Lies.token hT i₀).merge (.token hT (i - 1))))
  change ((spanOf T i₀).merge s.previousSpan, s) = _
  rw [hs.previous]

end Builds

/-! ## Steps -/

namespace Builds

variable {R : β → Nat → Prop}

theorem report_bind {fault : Fault} {next : Unit → Parse β} (h : Builds T f (next ()) i fun b m => f ≠ 0 → R b m) :
    Builds T f (Parser.report fault >>= next) i R := by
  intro hT s hs
  obtain ⟨j, hj, hsteps, hR⟩ := h hT (s.report fault) (hs.report fault)
  refine ⟨j, hj, .report fault hsteps, fun hclean => hR hclean fun hf => ?_⟩
  exact lastFault_report s fault (hsteps.lastFault_eq_none (hclean hf))

theorem advance_bind {next : Unit → Parse β} (hkind : kindOf T i ≠ .eof) (h : Builds T f (next ()) (i + 1) R) :
    Builds T f (Parser.advance >>= next) i R := by
  intro hT s hs
  obtain ⟨j, hj, -, hmoves, rfl⟩ := Reads.advance (Q := fun _ j => j = i + 1) hkind (fun _ => rfl) s hs
  obtain ⟨m, hm, hsteps, hR⟩ := h hT _ hj
  exact ⟨m, hm, hmoves.steps.trans hsteps, hR⟩

theorem eat {k : TokenKind} (hk : k ≠ .eof) {next : Bool → Parse β}
    (yes : kindOf T i = k → Builds T f (next true) (i + 1) R) (no : kindOf T i ≠ k → Builds T f (next false) i R) :
    Builds T f (Parser.eat k >>= next) i R := by
  unfold Parser.eat
  rw [bind_assoc]
  refine atKind ?_
  by_cases h : kindOf T i = k
  · rw [if_pos (decide_eq_true h), bind_assoc]
    exact advance_bind (h ▸ hk) (yes h)
  · rw [if_neg (by simpa using h)]
    exact no h

theorem eatWord {word : String} {next : Bool → Parse β} (yes : Builds T f (next true) (i + 1) R)
    (no : Builds T f (next false) i R) : Builds T f (Parser.eatWord word >>= next) i R := by
  unfold Parser.eatWord
  rw [bind_assoc]
  refine atWord fun b hb => ?_
  cases b with
  | true =>
    rw [if_pos rfl, bind_assoc]
    exact advance_bind (by rw [hb rfl]; decide) yes
  | false => exact no

theorem eat_any {k : TokenKind} (hk : k ≠ .eof) : Builds T f (Parser.eat k) i fun _ _ => True :=
  of_reads ((Reads.eat_any hk).mono fun _ _ _ _ _ => trivial)

/-- What is expected is read, or else it is a fault. -/
theorem expect {k : TokenKind} (hk : k ≠ .eof) : Builds T f (Parser.expect k) i fun _ j => f = 0 → i < j := by
  unfold Parser.expect
  refine eat hk (fun _ => pure fun _ => Nat.lt_succ_self i) fun _ => ?_
  exact report_bind (pure fun hf h => absurd h hf)

theorem expectSemicolon : Builds T f Parser.expectSemicolon i fun _ _ => True := of_reads Reads.expectSemicolon

theorem takeIdent (hkind : kindOf T i ≠ .eof) :
    Builds T f Parser.takeIdent i fun name j => i < j ∧ Within T f i j (.ident name) := by
  unfold Parser.takeIdent
  refine currentText (currentSpan (advance_bind hkind (here fun hT hi => pure ⟨Nat.lt_succ_self i, ?_⟩)))
  exact .token hT hi (fun _ => Nat.lt_succ_self i) rfl rfl rfl

theorem expectIdent : Builds T f Parser.expectIdent i fun name j => Within T f i j (.ident name) := by
  unfold Parser.expectIdent
  refine atKind ?_
  split
  · rename_i h
    exact (takeIdent (by rw [of_decide_eq_true h]; decide)).mono fun _ _ _ h => h.2
  · exact report_bind (currentSpan (here fun hT _ => pure fun hf => .missing hf (.token hT i) rfl))

theorem expectString : Builds T f Parser.expectString i fun s j => Within T f i j (.literal s) := by
  unfold Parser.expectString
  refine currentSpan (atKind ?_)
  split
  · rename_i h
    refine currentText (advance_bind (by rw [of_decide_eq_true h]; decide) (here fun hT hi => pure ?_))
    exact .token hT hi (fun _ => Nat.lt_succ_self i) rfl rfl rfl
  · exact report_bind (here fun hT _ => pure fun hf => .missing hf (.token hT i) rfl)

theorem expectPropertyName : Builds T f Parser.expectPropertyName i fun name j => Within T f i j (.ident name) := by
  unfold Parser.expectPropertyName
  refine current ?_
  split
  · exact bind expectString fun s j hij => pure fun h => ⟨h.toInside, nofun, fun _ => .nil⟩
  · split
    · rename_i hword
      refine (takeIdent fun h => ?_).mono fun _ _ _ h => h.2
      rw [h] at hword
      exact absurd hword (by decide)
    · exact expectIdent

end Builds

/-! ## Loops -/

/-- What a round of a loop hands on. -/
def Step.acc : Step σ → σ
  | .more acc => acc
  | .done acc => acc

namespace Builds

variable {step : σ → Parse (Step σ)} {I : σ → Nat → Prop}

/-- What every round preserves holds in the end, also when no more rounds are allowed. -/
theorem runSteps (round : ∀ acc k, i ≤ k → Builds T f (step acc) k fun r m => I acc k → I r.acc m) (n : Nat) {acc : σ}
    {k : Nat} (hk : i ≤ k) : Builds T f (Parser.runSteps step n acc) k fun last m => I acc k → I last m := by
  induction n generalizing k acc with
  | zero => exact pure id
  | succ n ih =>
    refine bind (round acc k hk) fun r m hkm => ?_
    cases r with
    | more next => exact (ih (Nat.le_trans hk hkm)).mono fun last j _ hlast hround hacc => hlast (hround hacc)
    | done last => exact pure id

theorem repeating (round : ∀ acc k, i ≤ k → Builds T f (step acc) k fun r m => I acc k → I r.acc m) {acc : σ} :
    Builds T f (Parser.repeating step acc) i fun last m => I acc i → I last m :=
  remaining (runSteps round _ (Nat.le_refl i))

/-! ### Lists -/

/-- What is built stays so when more is read around it. -/
def Grows (P : Nat → Nat → α → Prop) : Prop := ∀ {i j i' j' x}, i' ≤ i → j ≤ j' → P i j x → P i' j' x

theorem grows_within (make : α → Piece) : Grows fun i j x => Within T f i j (make x) := fun hi hj h => h.mono hi hj

theorem grows_parts (make : α → List Piece) : Grows fun i j x => Parts T f i j (make x) := fun hi hj h => h.mono hi hj

variable {item : Parse α} {P : Nat → Nat → α → Prop}

theorem Grows.cons (hP : Grows P) {items : List α} {x : α} {k m : Nat} (hik : i ≤ k) (hkm : k ≤ m)
    (hitems : ∀ y ∈ items, P i k y) (hx : P k m x) : ∀ y ∈ x :: items, P i m y := by
  intro y hy
  rcases List.mem_cons.mp hy with rfl | hy
  · exact hP hik (Nat.le_refl m) hx
  · exact hP (Nat.le_refl i) hkm (hitems y hy)

theorem Grows.all (hP : Grows P) {items : List α} {k m : Nat} (hkm : k ≤ m) (hitems : ∀ y ∈ items, P i k y) :
    ∀ y ∈ items, P i m y := fun y hy => hP (Nat.le_refl i) hkm (hitems y hy)

theorem commaList {close : TokenKind} (h : ∀ k, Builds T f item k fun x j => P k j x) (hP : Grows P) :
    Builds T f (Parser.commaList close item) i fun xs j => ∀ x ∈ xs, P i j x := by
  unfold Parser.commaList
  refine bind (repeating (I := fun items k => ∀ x ∈ items, P i k x) ?_) fun items j _ => pure fun hitems x hx => ?_
  · intro items k hik
    unfold Parser.commaStep
    refine atEnd (atKind ?_)
    split
    · exact pure id
    · refine bind (h k) fun x m hkm => eat (by decide) (fun _ => pure ?_) fun _ => pure ?_
      · exact fun hx hitems => hP.cons hik (Nat.le_succ_of_le hkm) hitems (hP (Nat.le_refl k) (Nat.le_succ m) hx)
      · exact fun hx hitems => hP.cons hik hkm hitems hx
  · exact hitems nofun x (List.mem_reverse.mp hx)

theorem separated {separator : TokenKind} (hsep : separator ≠ .eof) {first : α} {i₀ : Nat} (h₀ : i₀ ≤ i)
    (h : ∀ k, Builds T f item k fun x j => P k j x) (hP : Grows P) :
    Builds T f (Parser.separated separator item first) i fun xs j => P i₀ i first → ∀ x ∈ xs, P i₀ j x := by
  unfold Parser.separated
  refine bind (repeating (I := fun items k => ∀ x ∈ items, P i₀ k x) ?_) fun items j _ => pure fun hitems hfirst x hx => ?_
  · intro items k hik
    unfold Parser.separatedStep
    refine eat hsep (fun _ => bind (h (k + 1)) fun x m hkm => pure ?_) fun _ => pure id
    intro hx hitems
    exact hP.cons (show i₀ ≤ k by omega) (by omega) hitems (hP (Nat.le_succ k) (Nat.le_refl m) hx)
  · refine hitems ?_ x (List.mem_reverse.mp hx)
    rwa [List.forall_mem_singleton]

end Builds

end Recheck.Syntax.Parser
