import Recheck.Proofs.Syntax.Spelling
import Recheck.Syntax.Parse

/-!
# What the parser makes of known words

When the words in front of it are known, the parser can be followed step by step: it goes from some words to those that are
left, without a fault, and its result is known (`Takes`). Spans do not matter here. There is one rule for each question and
each step, and one for each of the loops that read lists.
-/

set_option autoImplicit false

namespace Recheck.Syntax.Parser

variable {α β ι σ : Type} {before middle after ws : List Word} {w : Word} {k : TokenKind}

/-- The words that are left. -/
def State.words (s : State) : List Word := s.rest.map Token.word

def kindIn (words : List Word) (n : Nat) : TokenKind := (words[n]?.map (·.kind)).getD .eof

/-- From these words to those, without a fault, and with a result of which `Q` holds. -/
def Takes (p : Parse α) (before after : List Word) (Q : α → Prop) : Prop :=
  ∀ s : State, s.words = before → (p s).2.words = after ∧ (p s).2.reports = s.reports ∧ Q (p s).1

theorem State.kindAt_eq (s : State) (n : Nat) : s.kindAt n = kindIn s.words n := by
  rw [State.kindAt, kindIn, State.words, List.getElem?_map, Option.map_map]
  rfl

theorem State.textAt_eq (s : State) (n : Nat) : s.textAt n = (s.words[n]?.map (·.text)).getD "" := by
  rw [State.textAt, State.words, List.getElem?_map, Option.map_map]
  rfl

theorem State.newlineAt_eq (s : State) (n : Nat) : s.newlineAt n = s.words[n]?.any (·.newline) := by
  rw [State.newlineAt, State.words, List.getElem?_map]
  cases s.rest[n]? <;> rfl

namespace Takes

variable {p : Parse α} {f : α → Parse β} {Q : α → Prop} {R : β → Prop}

theorem pure {a : α} (h : Q a) : Takes (Pure.pure a) before before Q := fun _ hs => ⟨hs, rfl, h⟩

theorem bind (h : Takes p before middle Q) (next : ∀ a, Q a → Takes (f a) middle after R) : Takes (p >>= f) before after R := by
  intro s hs
  obtain ⟨hwords, hreports, hQ⟩ := h s hs
  obtain ⟨hwords', hreports', hR⟩ := next _ hQ _ hwords
  exact ⟨hwords', hreports'.trans hreports, hR⟩

theorem mono {Q' : α → Prop} (h : Takes p before after Q) (hQ : ∀ a, Q a → Q' a) : Takes p before after Q' := by
  intro s hs
  obtain ⟨hwords, hreports, h⟩ := h s hs
  exact ⟨hwords, hreports, hQ _ h⟩

theorem discard (h : Takes p before after Q) : Takes (discard p) before after fun _ => True := by
  intro s hs
  obtain ⟨hwords, hreports, -⟩ := h s hs
  exact ⟨hwords, hreports, trivial⟩

/-- A question changes nothing. -/
theorem ask {q : Parse α} {a : α} (hq : ∀ s : State, s.words = before → q s = (a, s)) (h : Takes (f a) before after R) :
    Takes (q >>= f) before after R := by
  intro s hs
  change (f (q s).1 (q s).2).2.words = after ∧ (f (q s).1 (q s).2).2.reports = s.reports ∧ R (f (q s).1 (q s).2).1
  rw [hq s hs]
  exact h s hs

/-- A question whose answer does not matter. -/
theorem askAny {q : Parse α} (hq : ∀ s, (q s).2 = s) (h : ∀ a, Takes (f a) before after R) : Takes (q >>= f) before after R := by
  intro s hs
  change (f (q s).1 (q s).2).2.words = after ∧ (f (q s).1 (q s).2).2.reports = s.reports ∧ R (f (q s).1 (q s).2).1
  rw [hq s]
  exact h _ s hs

theorem yes {c : Prop} [Decidable c] {p' : Parse α} (hc : c) (h : Takes p before after Q) :
    Takes (if c then p else p') before after Q := by rwa [if_pos hc]

theorem no {c : Prop} [Decidable c] {p' : Parse α} (hc : ¬ c) (h : Takes p before after Q) :
    Takes (if c then p' else p) before after Q := by rwa [if_neg hc]

/-! ## Questions -/

theorem kindAt {n : Nat} {f : TokenKind → Parse β} (h : Takes (f (kindIn before n)) before after R) :
    Takes (Parser.kindAt n >>= f) before after R :=
  ask (fun s hs => by change (s.kindAt n, s) = _; rw [s.kindAt_eq, hs]) h

theorem current {f : TokenKind → Parse β} (h : Takes (f w.kind) (w :: ws) after R) :
    Takes (Parser.current >>= f) (w :: ws) after R := kindAt h

theorem currentText {f : String → Parse β} (h : Takes (f w.text) (w :: ws) after R) :
    Takes (Parser.currentText >>= f) (w :: ws) after R :=
  ask (fun s hs => by change (s.textAt 0, s) = _; rw [s.textAt_eq, hs]; rfl) h

theorem currentSpan {f : Span → Parse β} (h : ∀ start, Takes (f start) before after R) :
    Takes (Parser.currentSpan >>= f) before after R := askAny (fun _ => rfl) h

theorem spanFrom {start : Span} {f : Span → Parse β} (h : ∀ span, Takes (f span) before after R) :
    Takes (Parser.spanFrom start >>= f) before after R := askAny (fun _ => rfl) h

theorem remaining {f : Nat → Parse β} (h : Takes (f before.length) before after R) :
    Takes (Parser.remaining >>= f) before after R :=
  ask (fun s hs => by change (s.rest.length, s) = _; rw [← hs, State.words, List.length_map]) h

theorem newlineBefore {f : Bool → Parse β} (h : Takes (f w.newline) (w :: ws) after R) :
    Takes (Parser.newlineBefore >>= f) (w :: ws) after R :=
  ask (fun s hs => by change (s.newlineAt 0, s) = _; rw [s.newlineAt_eq, hs]; rfl) h

theorem atKind {f : Bool → Parse β} (h : Takes (f (kindIn before 0 = k)) before after R) :
    Takes (Parser.atKind k >>= f) before after R :=
  ask (fun s hs => by change (decide (s.kindAt 0 = k), s) = _; rw [s.kindAt_eq, hs]) h

theorem atKind_no {f : Bool → Parse β} (hk : kindIn before 0 ≠ k) (h : Takes (f false) before after R) :
    Takes (Parser.atKind k >>= f) before after R := atKind (by rwa [decide_eq_false hk])

theorem atKind_yes {f : Bool → Parse β} (hk : kindIn before 0 = k) (h : Takes (f true) before after R) :
    Takes (Parser.atKind k >>= f) before after R := atKind (by rwa [decide_eq_true hk])

theorem atEnd_no {f : Bool → Parse β} (hk : kindIn before 0 ≠ .eof) (h : Takes (f false) before after R) :
    Takes (Parser.atEnd >>= f) before after R := atKind_no hk h

theorem atWord_no {word : String} {f : Bool → Parse β} (hk : w.kind ≠ .identifier ∨ w.text ≠ word)
    (h : Takes (f false) (w :: ws) after R) : Takes (Parser.atWord word >>= f) (w :: ws) after R := by
  refine ask (fun s hs => ?_) h
  change (decide (s.kindAt 0 = .identifier) && decide (s.textAt 0 = word), s) = _
  rw [s.kindAt_eq, s.textAt_eq, hs]
  congr 1
  rw [Bool.and_eq_false_iff, decide_eq_false_iff_not, decide_eq_false_iff_not]
  exact hk

theorem atWord_yes {word : String} {f : Bool → Parse β} (hk : w.kind = .identifier) (htext : w.text = word)
    (h : Takes (f true) (w :: ws) after R) : Takes (Parser.atWord word >>= f) (w :: ws) after R := by
  refine ask (fun s hs => ?_) h
  change (decide (s.kindAt 0 = .identifier) && decide (s.textAt 0 = word), s) = _
  rw [s.kindAt_eq, s.textAt_eq, hs]
  congr 1
  rw [Bool.and_eq_true, decide_eq_true_eq, decide_eq_true_eq]
  exact ⟨hk, htext⟩

/-! ## Steps -/

theorem advance (hk : w.kind ≠ .eof) : Takes Parser.advance (w :: ws) ws fun _ => True := by
  intro s hs
  obtain ⟨t, rest, hrest, ht, hwords⟩ := List.map_eq_cons_iff.mp hs
  have hadvance : s.advance = { s with rest := rest, previous := some t.span } := by
    rw [State.advance, hrest]
    exact if_neg (by rw [← ht] at hk; exact hk)
  change s.advance.words = ws ∧ s.advance.reports = s.reports ∧ True
  rw [hadvance]
  exact ⟨hwords, rfl, trivial⟩

theorem advance_bind {f : Unit → Parse β} (hk : w.kind ≠ .eof) (h : Takes (f ()) ws after R) :
    Takes (Parser.advance >>= f) (w :: ws) after R := bind (advance hk) fun _ _ => h

theorem eat_yes {f : Bool → Parse β} (hk : w.kind = k) (heof : k ≠ .eof) (h : Takes (f true) ws after R) :
    Takes (Parser.eat k >>= f) (w :: ws) after R := by
  refine bind (Q := (· = true)) ?_ fun _ ha => ha ▸ h
  exact atKind_yes hk (yes rfl (advance_bind (hk ▸ heof) (pure rfl)))

theorem eat_no {f : Bool → Parse β} (hk : kindIn before 0 ≠ k) (h : Takes (f false) before after R) :
    Takes (Parser.eat k >>= f) before after R := by
  refine bind (Q := (· = false)) ?_ fun _ ha => ha ▸ h
  exact atKind_no hk (no nofun (pure rfl))

theorem discard_eat_no {f : PUnit → Parse β} (hk : kindIn before 0 ≠ k) (h : Takes (f ⟨⟩) before after R) :
    Takes (Functor.discard (Parser.eat k) >>= f) before after R := by
  have h : Takes (Parser.eat k >>= fun _ => f ⟨⟩) before after R := eat_no hk h
  exact h

theorem expect (hk : w.kind = k) (heof : k ≠ .eof) : Takes (Parser.expect k) (w :: ws) ws fun _ => True :=
  eat_yes hk heof (yes rfl (pure trivial))

theorem takeIdent (hk : w.kind ≠ .eof) : Takes Parser.takeIdent (w :: ws) ws (·.name = w.text) :=
  currentText (currentSpan fun _ => advance_bind hk (pure rfl))

theorem expectIdent (hk : w.kind = .identifier) : Takes Parser.expectIdent (w :: ws) ws (·.name = w.text) :=
  atKind_yes hk (yes rfl (takeIdent (by rw [hk]; decide)))

/-! ## Loops -/

theorem repeating {step : σ → Parse (Step σ)} {acc : σ} {Q : σ → Prop}
    (h : ∀ n, before.length < n → Takes (Parser.runSteps step n acc) before after Q) :
    Takes (Parser.repeating step acc) before after Q := remaining (h _ (Nat.lt_succ_self _))

/-- What a loop collects from words that come item by item, when `last` ends it. The newest item stands first. -/
theorem runSteps_each {step : List α → Parse (Step (List α))} {parts : ι → List Word} {Q : ι → α → Prop} {xs : List ι}
    {last : List Word} {F : List Word → Prop} (hlast : F last)
    (hfollows : ∀ x ∈ xs, ∀ tail, F (parts x ++ tail)) (hparts : ∀ x ∈ xs, parts x ≠ [])
    (item : ∀ x ∈ xs, ∀ acc tail, F tail →
      Takes (step acc) (parts x ++ tail) tail fun next => ∃ a, Q x a ∧ next = .more (a :: acc))
    (done : ∀ acc, Takes (step acc) last last (· = .done acc)) (acc : List α) {n : Nat}
    (hn : (xs.flatMap parts).length < n) :
    Takes (Parser.runSteps step n acc) (xs.flatMap parts ++ last) last fun items =>
      ∃ found, List.Forall₂ Q xs found ∧ items = found.reverse ++ acc := by
  induction xs generalizing acc n with
  | nil =>
    obtain ⟨n, rfl⟩ := Nat.exists_eq_succ_of_ne_zero (Nat.ne_of_gt hn)
    refine bind (done acc) ?_
    rintro _ rfl
    exact pure ⟨[], .nil, rfl⟩
  | cons x xs ih =>
    obtain ⟨n, rfl⟩ := Nat.exists_eq_succ_of_ne_zero (Nat.ne_of_gt (Nat.lt_of_le_of_lt (Nat.zero_le _) hn))
    have hx := List.length_pos_iff.mpr (hparts x List.mem_cons_self)
    rw [List.flatMap_cons, List.length_append] at hn
    have htail : F (xs.flatMap parts ++ last) := by
      cases xs with
      | nil => exact hlast
      | cons y xs =>
        rw [List.flatMap_cons, List.append_assoc]
        exact hfollows y (List.mem_cons_of_mem _ List.mem_cons_self) _
    rw [List.flatMap_cons, List.append_assoc]
    refine bind (item x List.mem_cons_self acc _ htail) ?_
    rintro _ ⟨a, hQ, rfl⟩
    refine (ih (fun y hy => hfollows y (List.mem_cons_of_mem _ hy)) (fun y hy => hparts y (List.mem_cons_of_mem _ hy))
      (fun y hy => item y (List.mem_cons_of_mem _ hy)) (a :: acc) (by omega)).mono ?_
    rintro items ⟨found, hfound, rfl⟩
    exact ⟨a :: found, .cons hQ hfound, by rw [List.reverse_cons, List.append_assoc]; rfl⟩

/-- Items behind a separator each, behind the first one. -/
theorem separated {item : Parse α} {first : α} {parts : ι → List Word} {Q : ι → α → Prop} {xs : List ι} {last : List Word}
    {F : List Word → Prop} (hlast : F last) (hk : w.kind ≠ .eof) (hfollows : ∀ tail, F (w :: tail))
    (h : ∀ x ∈ xs, ∀ tail, F tail → Takes item (parts x ++ tail) tail (Q x)) (hdone : kindIn last 0 ≠ w.kind) :
    Takes (Parser.separated w.kind item first) (xs.flatMap (fun x => w :: parts x) ++ last) last fun items =>
      ∃ found, List.Forall₂ Q xs found ∧ items = first :: found := by
  have loop : Takes (Parser.repeating (separatedStep w.kind item) [first]) (xs.flatMap (fun x => w :: parts x) ++ last) last
      fun items => ∃ found, List.Forall₂ Q xs found ∧ items = found.reverse ++ [first] := by
    refine repeating fun n hn => ?_
    refine runSteps_each hlast (fun x _ tail => hfollows _) (fun x _ => List.cons_ne_nil _ _) ?_ ?_ [first] ?_
    · exact fun x hx acc tail htail => eat_yes rfl hk (yes rfl (bind (h x hx tail htail) fun a ha => pure ⟨a, ha, rfl⟩))
    · exact fun acc => eat_no hdone (no nofun (pure rfl))
    · rw [List.length_append] at hn
      omega
  refine bind loop ?_
  rintro items ⟨found, hfound, rfl⟩
  exact pure ⟨found, hfound, by simp⟩

/-- What a list between commas collects, when `w` closes it. -/
theorem commaList {close : TokenKind} {item : Parse α} {parts : ι → List Word} {Q : ι → α → Prop} {xs : List ι}
    {F : List Word → Prop} (hk : w.kind = close) (hclose : close ≠ .comma) (hlast : F (w :: ws))
    (hcomma : ∀ tail, F (.comma :: tail))
    (hparts : ∀ x ∈ xs, ∃ v vs, parts x = v :: vs ∧ v.kind ≠ .eof ∧ v.kind ≠ close)
    (h : ∀ x ∈ xs, ∀ tail, F tail → Takes item (parts x ++ tail) tail (Q x)) :
    Takes (Parser.commaList close item) (Word.join .comma (xs.map parts) ++ w :: ws) (w :: ws) (List.Forall₂ Q xs) := by
  have loop (acc : List α) (n : Nat) (hn : (Word.join .comma (xs.map parts)).length < n) :
      Takes (Parser.runSteps (commaStep close item) n acc) (Word.join .comma (xs.map parts) ++ w :: ws) (w :: ws)
        fun items => ∃ found, List.Forall₂ Q xs found ∧ items = found.reverse ++ acc := by
    induction xs generalizing acc n with
    | nil =>
      obtain ⟨n, rfl⟩ := Nat.exists_eq_succ_of_ne_zero (Nat.ne_of_gt hn)
      have step : Takes (commaStep close item acc) (w :: ws) (w :: ws) (· = .done acc) :=
        atKind (atKind_yes hk (yes (by simp) (pure rfl)))
      refine bind step ?_
      rintro _ rfl
      exact pure ⟨[], .nil, rfl⟩
    | cons x xs ih =>
      obtain ⟨n, rfl⟩ := Nat.exists_eq_succ_of_ne_zero (Nat.ne_of_gt (Nat.lt_of_le_of_lt (Nat.zero_le _) hn))
      obtain ⟨v, vs, hv, heof, hnot⟩ := hparts x List.mem_cons_self
      have hkind (tail : List Word) : kindIn (parts x ++ tail) 0 = v.kind := by rw [hv]; rfl
      cases xs with
      | nil =>
        have step : Takes (commaStep close item acc) (parts x ++ w :: ws) (w :: ws) fun next =>
            ∃ a, Q x a ∧ next = .done (a :: acc) := by
          refine atEnd_no (by rwa [hkind]) (atKind_no (by rwa [hkind]) (no nofun ?_))
          refine bind (h x List.mem_cons_self _ hlast) fun a ha => eat_no ?_ (no nofun (pure ⟨a, ha, rfl⟩))
          exact fun h => hclose (hk.symm.trans h)
        refine bind step ?_
        rintro _ ⟨a, ha, rfl⟩
        exact pure ⟨[a], .cons ha .nil, rfl⟩
      | cons y xs =>
        have hwords : Word.join .comma ((x :: y :: xs).map parts) =
            parts x ++ .comma :: Word.join .comma ((y :: xs).map parts) := rfl
        rw [hwords, List.length_append, List.length_cons] at hn
        have step : Takes (commaStep close item acc)
            (parts x ++ .comma :: (Word.join .comma ((y :: xs).map parts) ++ w :: ws))
            (Word.join .comma ((y :: xs).map parts) ++ w :: ws) fun next => ∃ a, Q x a ∧ next = .more (a :: acc) := by
          refine atEnd_no (by rwa [hkind]) (atKind_no (by rwa [hkind]) (no nofun ?_))
          exact bind (h x List.mem_cons_self _ (hcomma _)) fun a ha => eat_yes rfl (by decide) (yes rfl (pure ⟨a, ha, rfl⟩))
        rw [hwords, List.append_assoc, List.cons_append]
        refine bind step ?_
        rintro _ ⟨a, ha, rfl⟩
        refine (ih (fun z hz => hparts z (List.mem_cons_of_mem _ hz)) (fun z hz => h z (List.mem_cons_of_mem _ hz))
          (a :: acc) n (by omega)).mono ?_
        rintro items ⟨found, hfound, rfl⟩
        exact ⟨a :: found, .cons ha hfound, by rw [List.reverse_cons, List.append_assoc]; rfl⟩
  refine bind (repeating fun n hn => loop [] n ?_) ?_
  · rw [List.length_append] at hn
    omega
  · rintro items ⟨found, hfound, rfl⟩
    exact pure (by simpa using hfound)

end Takes

end Recheck.Syntax.Parser
