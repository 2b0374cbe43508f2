import Recheck.Proofs.Syntax.Kept.Basic
import Recheck.Proofs.Syntax.Names

/-!
# Types that are kept, in types and parameters

A type is asked for what it says in its place as well (`Whole`), so that brackets and operators can be put behind it and
parentheses around it. What is read and forgotten leaves a gap between the tokens.
-/

set_option autoImplicit false

namespace Recheck.Syntax

open Recheck.Syntax.Parser

variable {T : List Token} {i j k m a b : Nat}

/-! ## Whole types -/

/-- A type that is read from one token up to another. Only a name that a dot or a comma follows may consist of nothing but
words that stand in front of types. -/
structure Whole (T : List Token) (i j : Nat) (t : TypeNode) : Prop where
  inner : Laid T i j (TypeKind.inner t.kind)
  head : ∃ a, i ≤ a ∧ a < j ∧ (∀ m, i ≤ m → m < a → Opens T m) ∧ t.span = joint T a j ∧ Worded T a j t.kind
  ends : (∃ m, i ≤ m ∧ m < j ∧ ¬Opens T m) ∨ kindOf T j = .comma ∨ kindOf T j = .dot

namespace Whole

variable {t : TypeNode}

theorem lt (h : Whole T i j t) : i < j := by
  obtain ⟨a, hia, haj, -⟩ := h.head
  omega

theorem laid (h : Whole T i j t) : Laid T i j t.nested := by
  obtain ⟨a, hia, haj, -, hspan, hworded⟩ := h.head
  exact .type hia haj (Nat.le_refl j) hspan hworded h.inner

/-- A token in front of a type that leaves it what it is. -/
theorem opened (hopens : Opens T i) (h : Whole T (i + 1) j t) : Whole T i j t where
  inner := .mono (Nat.le_succ i) (Nat.le_refl j) h.inner
  head := by
    obtain ⟨a, hia, haj, hbefore, hspan, hworded⟩ := h.head
    refine ⟨a, by omega, haj, fun m him hma => ?_, hspan, hworded⟩
    by_cases hm : m = i
    · rwa [hm]
    · exact hbefore m (by omega) hma
  ends := h.ends.imp_left fun ⟨m, him, hmj, hm⟩ => ⟨m, by omega, hmj, hm⟩

/-- Parentheses around a type. -/
theorem enclosed (hopen : kindOf T i = .lParen) (h : Whole T (i + 1) j t) (hclose : kindOf T j = .rParen) :
    Whole T i (j + 1) ⟨t.kind, joint T i (j + 1)⟩ where
  inner := .mono (Nat.le_succ i) (Nat.le_succ j) h.inner
  head := by
    have hlt := h.lt
    obtain ⟨a, hia, -, hbefore, -, hworded⟩ := h.head
    refine ⟨i, Nat.le_refl i, by omega, fun m him hmi => by omega, rfl, ?_⟩
    refine hworded.enclosed (by omega) hopen (fun m him hma => ?_) hclose
    by_cases hm : m = i
    · exact .inl (by rw [hm, hopen]; decide)
    · exact hbefore m (by omega) hma
  ends := .inl ⟨j, by have := h.lt; omega, Nat.lt_succ_self j, not_opens_of_kind (by rw [hclose]; decide)⟩

/-- A type with a token that does not belong to the word `any`. -/
theorem of_foreign {kind : TypeKind} (hinner : Laid T i j (TypeKind.inner kind)) (hkind : kind ≠ .keyword .any)
    (hm : Foreign T m) (him : i ≤ m) (hmj : m < j) : Whole T i j ⟨kind, joint T i j⟩ where
  inner := hinner
  head := ⟨i, Nat.le_refl i, by omega, fun m him hmi => by omega, rfl, .of_foreign hkind hm him hmj⟩
  ends := .inl ⟨m, him, hmj, hm.opens⟩

/-- A type in front of an operator contains a token that is none. -/
theorem exists_not_opens (h : Whole T i j t) (hkind : kindOf T j ≠ .comma) (hkind' : kindOf T j ≠ .dot) :
    ∃ m, i ≤ m ∧ m < j ∧ ¬Opens T m := by
  rcases h.ends with h | h | h
  · exact h
  · exact absurd h hkind
  · exact absurd h hkind'

end Whole

namespace Parser

variable {α β : Type} {g : Grammar}

/-- The parts of a grammar lay out the types that they keep, unless there are faults. -/
structure Lays (T : List Token) (g : Grammar) : Prop extends Nests T 0 g where
  laidType : ∀ i, Builds T 0 g.type i fun t j => Whole T i j t
  laidPostfixType : ∀ i, Builds T 0 g.postfixType i fun t j => Whole T i j t
  laidExpr : ∀ i, Builds T 0 g.expr i fun e j => Laid T i j (Piece.expr e).types
  laidBinary : ∀ power i, Builds T 0 (g.binary power) i fun e j => Laid T i j (Piece.expr e).types
  laidUnary : ∀ i, Builds T 0 g.unary i fun e j => Laid T i j (Piece.expr e).types
  laidStatement : ∀ i, Builds T 0 g.statement i fun s j => Laid T i j (Piece.statement s).types

namespace Builds

/-! ## Tokens -/

theorem spanJoint {f i₀ : Nat} {next : Span → Parse β} {R : β → Nat → Prop} (h : Builds T f (next (joint T i₀ i)) i R) :
    Builds T f (Parser.spanFrom (spanOf T i₀) >>= next) i R := by
  refine ask (fun s hs => ?_) h
  change ((spanOf T i₀).merge s.previousSpan, s) = _
  rw [hs.previous]
  rfl

/-- Where the span does not matter. -/
theorem spanFrom_any {f : Nat} {start : Span} {next : Span → Parse β} {R : β → Nat → Prop}
    (h : ∀ s, Builds T f (next s) i R) : Builds T f (Parser.spanFrom start >>= next) i R :=
  get fun s _ => h (start.merge s.previousSpan)

/-- Of what is forgotten it may be known how far it goes. -/
theorem skip_keeping {f : Nat} {p : Parse α} {next : PUnit → Parse β} {Q : Nat → Prop} {R : β → Nat → Prop}
    (h : Builds T f p i fun _ j => Q j) (hnext : ∀ j, i ≤ j → Builds T f (next ⟨⟩) j fun b m => Q j → R b m) :
    Builds T f (Functor.discard p >>= next) i R := by
  have : Builds T f (p >>= fun _ => next ⟨⟩) i R := bind h fun _ => hnext
  exact this

/-- A token that may be there. -/
theorem skip_eat {f : Nat} {kind : TokenKind} (hkind : kind ≠ .eof) {next : PUnit → Parse β} {R : β → Nat → Prop}
    (h : ∀ k, k = i ∨ k = i + 1 ∧ kindOf T i = kind → Builds T f (next ⟨⟩) k R) :
    Builds T f (Functor.discard (Parser.eat kind) >>= next) i R := by
  have : Builds T f (Parser.eat kind >>= fun _ => next ⟨⟩) i R :=
    eat hkind (fun heq => h _ (.inr ⟨rfl, heq⟩)) fun _ => h _ (.inl rfl)
  exact this

theorem eatWord_absent {f : Nat} {word : String} {next : Bool → Parse β} {R : β → Nat → Prop}
    (h : ¬(kindOf T i = .identifier ∧ textOf T i = word)) (no : Builds T f (next false) i R) :
    Builds T f (Parser.eatWord word >>= next) i R := by
  unfold Parser.eatWord
  rw [bind_assoc]
  refine ask (a := kindOf T i = .identifier && textOf T i = word) (fun s hs => ?_) ?_
  · change (decide (s.kindAt 0 = .identifier) && decide (s.textAt 0 = word), s) = _
    rw [hs.kindAt, hs.textAt]
    rfl
  · rw [show (kindOf T i = .identifier && textOf T i = word) = false by simpa using h]
    exact no

theorem and {f : Nat} {p : Parse α} {Q Q' : α → Nat → Prop} (h : Builds T f p i Q) (h' : Builds T f p i Q') :
    Builds T f p i fun a j => Q a j ∧ Q' a j := by
  intro hT s hs
  obtain ⟨j, hj, hsteps, hQ⟩ := h hT s hs
  obtain ⟨j', hj', -, hQ'⟩ := h' hT s hs
  have hrest := hj.length_rest
  have hrest' := hj'.length_rest
  have hlt := hj.lt
  have hlt' := hj'.lt
  obtain rfl : j = j' := by omega
  exact ⟨j, hj, hsteps, fun hclean => ⟨hQ hclean, hQ' hclean⟩⟩

/-- What is expected is read, or else there is a fault. -/
theorem expect_exact {kind : TokenKind} (hkind : kind ≠ .eof) :
    Builds T 0 (Parser.expect kind) i fun _ j => kindOf T i = kind ∧ j = i + 1 := by
  unfold Parser.expect
  refine eat hkind (fun h => pure ⟨h, rfl⟩) fun _ => ?_
  exact report_bind (pure fun hf => absurd rfl hf)

/-! ## Lists -/

variable {item : Parse α} {make : α → Piece}

theorem laid_reverse {items : List α} (h : LaidParts T i j (items.map make)) : LaidParts T i j (items.reverse.map make) :=
  h.of_perm ((List.reverse_perm items).symm.map make)

theorem commaList_laid {close : TokenKind} (h : ∀ k, Builds T 0 item k fun x j => Laid T k j (make x).types) :
    Builds T 0 (Parser.commaList close item) i fun xs j => LaidParts T i j (xs.map make) := by
  unfold Parser.commaList
  refine bind (repeating (I := fun (items : List α) k => LaidParts T i k (items.map make)) ?_) fun items j _ =>
    pure fun hitems => laid_reverse (hitems .nil)
  intro items k hik
  unfold Parser.commaStep
  refine atEnd (atKind ?_)
  split
  · exact pure id
  · refine bind (h k) fun x m hkm => eat (by decide) (fun _ => pure ?_) fun _ => pure ?_
    · exact fun hx hitems => .mono (Nat.le_refl i) (Nat.le_succ m) (Laid.behind hitems hx hik hkm)
    · exact fun hx hitems => Laid.behind hitems hx hik hkm

theorem separated_laid {separator : TokenKind} (hsep : separator ≠ .eof) (first : α) {i₀ : Nat} (h₀ : i₀ ≤ i)
    (h : ∀ k, Builds T 0 item k fun x j => Laid T k j (make x).types) :
    Builds T 0 (Parser.separated separator item first) i fun xs j =>
      Laid T i₀ i (make first).types → LaidParts T i₀ j (xs.map make) := by
  unfold Parser.separated
  refine bind (repeating (I := fun (items : List α) k => LaidParts T i₀ k (items.map make)) ?_) fun items j _ =>
    pure fun hitems hfirst => laid_reverse (hitems (.single hfirst))
  intro items k hik
  unfold Parser.separatedStep
  refine eat hsep (fun _ => bind (h (k + 1)) fun x m hkm => pure ?_) fun _ => pure id
  exact fun hx hitems => Laid.behind hitems (.mono (Nat.le_succ k) (Nat.le_refl m) hx) (by omega) (by omega)

/-- Behind a separator that is there an item is read. -/
theorem separated_lt {f : Nat} {separator : TokenKind} (hsep : separator ≠ .eof) (hkind : kindOf T i = separator) {first : α}
    (h : ∀ k, Builds T f item k fun _ _ => True) : Builds T f (Parser.separated separator item first) i fun _ j => i < j := by
  have step (items : List α) (k : Nat) : Builds T f (Parser.separatedStep separator item items) k
      fun _ m => kindOf T k = separator → k < m := by
    unfold Parser.separatedStep
    refine eat hsep (fun _ => seq (h (k + 1)) fun x m hkm => pure fun _ => by omega) fun hne => pure fun heq => absurd heq hne
  have steps (n : Nat) (items : List α) (k : Nat) :
      Builds T f (Parser.runSteps (Parser.separatedStep separator item) n items) k fun _ _ => True :=
    (runSteps (I := fun _ _ => True) (fun items m _ => (step items m).mono fun _ _ _ _ _ => trivial) n (Nat.le_refl k)).mono
      fun _ _ _ _ => trivial
  unfold Parser.separated Parser.repeating
  rw [bind_assoc]
  refine remaining ?_
  rw [Parser.runSteps, bind_assoc]
  refine bind (step [first] i) fun r m _ => ?_
  cases r with
  | more items => exact bind (steps _ items m) fun items j hmj => pure fun _ hlt => Nat.lt_of_lt_of_le (hlt hkind) hmj
  | done items => exact pure fun hlt => hlt hkind

/-! ## What types, expressions and declarations share -/

section

variable (hg : Lays T g)
include hg

theorem typeAfter_laid {kind : TokenKind} (hkind : kind ≠ .eof) :
    Builds T 0 (Parser.typeAfter g kind) i fun type j => ∀ t ∈ type, Whole T (i + 1) j t := by
  unfold Parser.typeAfter
  refine eat hkind (fun _ => bind (hg.laidType (i + 1)) fun t j _ => pure ?_) fun _ => pure nofun
  rintro h _ ⟨⟩
  exact h

theorem exprAfter_laid {kind : TokenKind} (hkind : kind ≠ .eof) :
    Builds T 0 (Parser.exprAfter g kind) i fun value j => ∀ e ∈ value, Laid T i j (Piece.expr e).types := by
  unfold Parser.exprAfter
  refine eat hkind (fun _ => bind (hg.laidExpr (i + 1)) fun e j _ => pure ?_) fun _ => pure nofun
  rintro h _ ⟨⟩
  exact .mono (Nat.le_succ i) (Nat.le_refl j) h

theorem param_laid : Builds T 0 (Parser.param g) i fun p j => Laid T i j (Piece.param p).types := by
  unfold Parser.param
  refine currentSpan (seq (eat_any (by decide)) fun rest k hik => atKind ?_)
  extract_lets next
  have tail (name : Ident) (m : Nat) (him : i ≤ m) :
      Builds T 0 (next name) m fun p j => Laid T i j (Piece.param p).types := by
    refine seq (eat_any (by decide)) fun optional m₁ h₁ => bind (typeAfter_laid hg (by decide)) fun type m₂ h₂ => ?_
    refine bind (exprAfter_laid hg (by decide)) fun default j hj => spanJoint (pure fun hdefault htype => ?_)
    refine .node (.bare rfl (.append (k := m₂) (.option fun t ht => ?_) (.option hdefault) (by omega) hj)) rfl
    rw [Piece.types_type]
    exact .mono (by omega) (Nat.le_refl m₂) (htype t ht).laid
  split
  · rename_i hthis
    exact seq (takeIdent (f := 0) (by rw [of_decide_eq_true hthis]; decide)) fun name m hkm => tail name m (by omega)
  · exact seq (expectIdent (f := 0)) fun name m hkm => tail name m (by omega)

/-- Behind the opening parenthesis. -/
theorem params_laid : Builds T 0 (Parser.params g) i fun ps j => i < j ∧ LaidParts T (i + 1) j (ps.map .param) := by
  unfold Parser.params
  refine bind (expect_exact (by decide)) fun _ k hik => bind (commaList_laid fun _ => param_laid hg) fun ps m hkm => ?_
  refine seq (expect (f := 0) (by decide)) fun _ j hmj => pure ?_
  rintro hps ⟨-, rfl⟩
  exact ⟨by omega, .mono (Nat.le_refl _) hmj hps⟩

theorem statementList_laid :
    Builds T 0 (Parser.statementList g) i fun statements j => LaidParts T i j (statements.map .statement) := by
  unfold Parser.statementList
  refine bind (repeating (I := fun (items : List Statement) k => LaidParts T i k (items.map .statement)) ?_) fun items k hik =>
    seq (expect (f := 0) (by decide)) fun _ j hkj => pure fun hitems => .mono (Nat.le_refl i) hkj (laid_reverse (hitems .nil))
  intro items k hik
  unfold Parser.statementStep
  refine atEnd (atKind ?_)
  split
  · exact pure id
  · exact bind (hg.laidStatement k) fun s m hkm => pure fun hs hitems => Laid.behind hitems hs hik hkm

theorem block_laid : Builds T 0 (Parser.block g) i fun b j => Laid T i j (Piece.block b).types := by
  unfold Parser.block
  refine currentSpan (seq (expect (f := 0) (by decide)) fun _ k hik => bind (statementList_laid hg) fun statements j hkj => ?_)
  exact spanJoint (pure fun hstatements => .node (.mono hik (Nat.le_refl j) hstatements) rfl)

/-! ## Types -/

/-- A name that is no word for a type. -/
theorem typeReference_laid (hkind : kindOf T i = .identifier) (hany : textOf T i ≠ "any")
    (hop : textOf T i ∈ ["readonly", "unique"] → kindOf T (i + 1) = .dot ∨ kindOf T (i + 1) = .comma) :
    Builds T 0 (Parser.typeReference g) i fun kind j => Whole T i j ⟨kind, joint T i j⟩ := by
  have whole {name : List Ident} {args : List TypeNode} {j : Nat} (hij : i < j) (hargs : LaidParts T i j (args.map .type)) :
      Whole T i j ⟨.reference name args, joint T i j⟩ := by
    have hinner : Laid T i j (TypeKind.inner (.reference name args)) := hargs.nestedAll
    by_cases hword : textOf T i ∈ ["readonly", "unique"]
    · have hnext := hop hword
      rcases Nat.eq_or_lt_of_le hij with rfl | hlt
      · refine ⟨hinner, ⟨i, Nat.le_refl i, hij, fun m him hmi => by omega, rfl, nofun, ?_⟩, .inr hnext.symm⟩
        rintro ⟨k, hik, hki, hk, -⟩
        obtain rfl : k = i := by omega
        exact absurd hk.2 hany
      · refine .of_foreign hinner nofun (m := i + 1) (.of_kind ?_) (Nat.le_succ i) hlt
        rcases hnext with h | h <;> rw [h] <;> decide
    · refine .of_foreign hinner nofun (m := i) (.of_word hkind fun hmem => ?_) (Nat.le_refl i) hij
      rcases List.mem_cons.mp hmem with h | h
      · exact hany h
      · exact hword h
  unfold Parser.typeReference
  refine bind (dottedName (f := 0)) fun name k hik => atKind (newlineBefore ?_)
  split
  · rename_i hopen
    have hkind : kindOf T k = .lt := by simp at hopen; exact hopen.1
    have harg (m : Nat) : Builds T 0 g.type m fun t j => Laid T m j (Piece.type t).types :=
      (hg.laidType m).mono fun t j _ h => by rw [Piece.types_type]; exact h.laid
    refine advance_bind (by rw [hkind]; decide) (bind (commaList_laid harg) fun args m hkm => ?_)
    refine seq (expect (f := 0) (by decide)) fun _ j hmj => pure fun hargs hname => ?_
    exact whole (by have := hname.1 rfl; omega) (.mono (by omega) hmj hargs)
  · exact pure fun hname => whole (hname.1 rfl) .nil

/-- A function type that begins with what has been read before. -/
theorem functionType_laid {i₀ : Nat} (h₀ : i₀ ≤ i) :
    Builds T 0 (Parser.functionType g) i fun kind j => Whole T i₀ j ⟨kind, joint T i₀ j⟩ := by
  unfold Parser.functionType
  refine bind (params_laid hg) fun ps k hik => bind (expect_exact (by decide)) fun _ m hkm => bind (hg.laidType m) fun ret j hmj => ?_
  refine pure ?_
  rintro hret ⟨harrow, rfl⟩ ⟨hopen, hps⟩
  have hlt := hret.lt
  refine ⟨.append (k := k) (by omega) (by omega) (.mono (by omega) (Nat.le_refl k) hps.paramTypes) ?_, ?_, .inl ?_⟩
  · exact .mono (Nat.le_succ k) (Nat.le_refl j) hret.laid
  · exact ⟨i₀, Nat.le_refl i₀, by omega, fun m him hmi => by omega, rfl, nofun, fun _ => .inr ⟨ps, ret, rfl⟩⟩
  · exact ⟨k, by omega, by omega, not_opens_of_kind (by rw [harrow]; decide)⟩

theorem indexMember_laid {start : Span} : Builds T 0 (Parser.indexMember g start) i fun m j => Laid T i j (Piece.member m).types := by
  unfold Parser.indexMember
  refine skip (expectIdent (f := 0)) fun k₁ h₁ => seq (expect (f := 0) (by decide)) fun _ k₂ h₂ => ?_
  refine skip (hg.type k₂) fun k₃ h₃ => seq (expect (f := 0) (by decide)) fun _ k₄ h₄ => ?_
  refine seq (expect (f := 0) (by decide)) fun _ k₅ h₅ => bind (hg.laidType k₅) fun type j hj => spanFrom_any fun s => pure ?_
  intro htype
  refine .node (.bare rfl (.single ?_)) rfl
  rw [Piece.types_type]
  exact .mono (by omega) (Nat.le_refl j) htype.laid

/-- A method signature, which begins with a parenthesis or an angle bracket. Where it says no result, there is room for one
in front of its parameters. -/
theorem methodType_laid (hkind : kindOf T i = .lParen ∨ kindOf T i = .lt) :
    Builds T 0 (Parser.methodType g) i fun type j => Laid T i j (Piece.type type).types := by
  unfold Parser.methodType
  refine currentSpan (skip (typeParams hg.toNests) fun k hik => bind (params_laid hg) fun ps m hkm => ?_)
  refine bind (typeAfter_laid hg (by decide)) fun ret j hmj => spanJoint (pure ?_)
  rintro hret ⟨hlt, hps⟩
  rw [Piece.types_type]
  refine .type (Nat.le_refl i) (by omega) (Nat.le_refl j) rfl ⟨nofun, fun _ => .inr ⟨_, _, rfl⟩⟩ ?_
  have hps : Laid T (i + 1) m (Param.types ps) := .mono (by omega) (Nat.le_refl m) hps.paramTypes
  cases ret with
  | some type =>
    have htype := hret type rfl
    exact .append (k := m) (by omega) hmj (.mono (Nat.le_succ i) (Nat.le_refl m) hps)
      (.mono (Nat.le_succ m) (Nat.le_refl j) htype.laid)
  | none =>
    have hresult : Laid T i (i + 1) [⟨.keyword .any, spanOf T i⟩] := .result (Nat.le_refl i) (Nat.lt_succ_self i) hkind
    exact .behind hresult (.mono (Nat.le_refl _) hmj hps) (Nat.le_succ i) (by omega)

theorem namedMember_laid {start : Span} :
    Builds T 0 (Parser.namedMember g start) i fun m j => ∀ m' ∈ m, Laid T i j (Piece.member m').types := by
  unfold Parser.namedMember
  refine remaining (seq (expectPropertyName (f := 0)) fun name k hik => seq (eat_any (f := 0) (by decide)) fun optional m hkm => ?_)
  refine atKind (atKind ?_)
  extract_lets last
  have tail (type : Option TypeNode) (n : Nat) : Builds T 0 (last type) n fun m' j =>
      (∀ t ∈ type, Laid T i n (Piece.type t).types) → ∀ m ∈ m', Laid T i j (Piece.member m).types := by
    refine remaining ?_
    split
    · exact pure fun _ => nofun
    · refine spanFrom_any fun s => pure fun htype => ?_
      rintro _ ⟨⟩
      exact .node (.bare rfl (.option htype)) rfl
  split
  · rename_i hkind
    refine bind (methodType_laid hg (by simpa using hkind)) fun type n hmn => (tail (some type) n).mono fun m' j _ h htype => h ?_
    rintro _ ⟨⟩
    exact .mono (by omega) (Nat.le_refl n) htype
  · refine bind (typeAfter_laid hg (by decide)) fun type n hmn => (tail type n).mono fun m' j _ h htype => h fun t ht => ?_
    rw [Piece.types_type]
    exact .mono (by omega) (Nat.le_refl n) (htype t ht).laid

theorem typeMembers_laid :
    Builds T 0 (Parser.typeMembers g) i fun members j => i < j ∧ LaidParts T i j (members.map .member) := by
  unfold Parser.typeMembers
  refine bind (expect (f := 0) (by decide)) fun _ k hik => ?_
  refine bind (repeating (I := fun (items : List Member) n => LaidParts T k n (items.map .member)) ?_) fun items n hkn => ?_
  · intro items k₁ h₁
    unfold Parser.memberStep
    refine atEnd (atKind ?_)
    split
    · exact pure id
    · refine currentSpan (read Reads.skipReadonly fun _ k₂ h₂ _ => eat (by decide) (fun _ => ?_) fun _ => ?_)
      · refine bind (indexMember_laid hg) fun m k₃ h₃ => read Reads.memberEnd fun _ j hj _ => pure fun hm hitems => ?_
        exact .behind hitems (.mono (by omega) hj hm) h₁ (by omega)
      · refine bind (namedMember_laid hg) fun m k₃ h₃ => ?_
        cases m with
        | some m =>
          refine read Reads.memberEnd fun _ j hj _ => pure fun hm hitems => ?_
          exact .behind hitems (.mono h₂ hj (hm m rfl)) h₁ (by omega)
        | none => exact read Reads.advance_any fun _ j hj _ => pure fun _ hitems => .mono (Nat.le_refl k) (by omega) hitems
  · refine seq (expect (f := 0) (by decide)) fun _ j hnj => pure fun hitems hopen => ?_
    exact ⟨by have := hopen rfl; omega, .mono hik hnj (laid_reverse (hitems .nil))⟩

/-! ### Forms of types -/

theorem tupleElement_laid : Builds T 0 (Parser.tupleElement g) i fun type j => Laid T i j (Piece.type type).types := by
  unfold Parser.tupleElement
  refine skip (eat_any (f := 0) (by decide)) fun k hik => bind (hg.laidType k) fun type m hkm => ?_
  refine skip (eat_any (f := 0) (by decide)) fun j hmj => pure fun htype => ?_
  rw [Piece.types_type]
  exact .mono hik hmj htype.laid

/-- A word that means a type is one token, and other words are never the word `any`. -/
theorem wordType_laid (hkind : kindOf T i = .identifier) :
    Builds T 0 (Parser.wordType g (spanOf T i)) i fun type j => Whole T i j type := by
  have hread : kindOf T i ≠ .eof := by rw [hkind]; decide
  unfold Parser.wordType
  refine currentText ?_
  split
  · rename_i keyword hname
    refine advance_bind hread (spanJoint (pure ?_))
    have htext : textOf T i = keyword.name := by
      have := List.find?_some hname
      simpa using (of_decide_eq_true this).symm
    have hother : textOf T i ∉ ["readonly", "unique"] := by
      rw [htext]
      cases keyword <;> decide
    refine ⟨.nil, ⟨i, Nat.le_refl i, Nat.lt_succ_self i, fun m him hmi => by omega, rfl, fun hany => .inl ?_, ?_⟩, .inl ?_⟩
    · have hany : keyword = .any := by simpa using hany
      exact ⟨.word ⟨hkind, by rw [htext, hany]; rfl⟩, .inl rfl⟩
    · rintro ⟨k, hik, hki, hk, -⟩
      obtain rfl : k = i := by omega
      refine .inl ?_
      have hword := hk.2
      rw [htext] at hword
      cases keyword <;> first | rfl | exact absurd hword (by decide)
    · refine ⟨i, Nat.le_refl i, Nat.lt_succ_self i, ?_⟩
      rintro (h | ⟨-, h⟩)
      · rw [hkind] at h
        exact absurd h (by decide)
      · exact hother h
  · rename_i hname
    have hany : textOf T i ≠ "any" := by
      intro h
      rw [h] at hname
      exact absurd hname (by decide)
    refine kindAt ?_
    split
    · rename_i hop
      obtain ⟨hword, -⟩ := Bool.and_eq_true_iff.mp hop
      refine advance_bind hread (bind (hg.laidPostfixType (i + 1)) fun inner j hij => ?_)
      split
      · rename_i hkeyof
        refine spanJoint (pure fun _ => .of_foreign .nil nofun (m := i) (.of_word hkind ?_) (Nat.le_refl i) (by omega))
        rw [hkeyof]
        decide
      · rename_i hkeyof
        refine pure fun hinner => hinner.opened (.inr ⟨hkind, ?_⟩)
        simpa [hkeyof] using hword
    · rename_i hop
      refine bind (typeReference_laid hg hkind hany fun hword => ?_) fun kind j hij => spanJoint (pure id)
      by_contra hnext
      refine hop (Bool.and_eq_true_iff.mpr ⟨?_, ?_⟩)
      · exact decide_eq_true (List.mem_cons_of_mem _ hword)
      · simpa [not_or] using hnext

/-- The first token tells the type from the word `any`. -/
theorem otherType_laid : Builds T 0 (Parser.otherType g) i fun kind j => Whole T i j ⟨kind, joint T i j⟩ := by
  have leaf {kind : TypeKind} {j : Nat} (hkind : kindOf T i ∉ [TokenKind.lParen, .pipe, .amp, .identifier, .rParen])
      (hinner : Laid T i j (TypeKind.inner kind)) (hany : kind ≠ .keyword .any) (hij : i < j) :
      Whole T i j ⟨kind, joint T i j⟩ :=
    .of_foreign hinner hany (.of_kind hkind) (Nat.le_refl i) hij
  unfold Parser.otherType
  refine current ?_
  split <;> rename_i hkind
  · exact advance_bind (by rw [hkind]; decide) (pure (leaf (by rw [hkind]; decide) .nil nofun (by omega)))
  · exact advance_bind (by rw [hkind]; decide) (pure (leaf (by rw [hkind]; decide) .nil nofun (by omega)))
  · exact advance_bind (by rw [hkind]; decide) (pure (leaf (by rw [hkind]; decide) .nil nofun (by omega)))
  · exact advance_bind (by rw [hkind]; decide) (pure (leaf (by rw [hkind]; decide) .nil nofun (by omega)))
  · exact bind (expectString (f := 0)) fun _ j _ => pure fun h => leaf (by rw [hkind]; decide) .nil nofun (h.lt rfl)
  · exact advance_bind (by rw [hkind]; decide) (pure (leaf (by rw [hkind]; decide) .nil nofun (by omega)))
  · exact currentText (advance_bind (by rw [hkind]; decide) (pure (leaf (by rw [hkind]; decide) .nil nofun (by omega))))
  · refine kindAt ?_
    split
    · rename_i hnumber
      refine advance_bind (by rw [hkind]; decide) (currentText ?_)
      exact advance_bind (by rw [hnumber]; decide) (pure (leaf (by rw [hkind]; decide) .nil nofun (by omega)))
    · exact report_bind (pure fun hf => absurd rfl hf)
  · refine advance_bind (by rw [hkind]; decide) (seq (dottedName (f := 0)) fun name j hij => pure ?_)
    exact leaf (by rw [hkind]; decide) .nil nofun (by omega)
  · refine bind (typeMembers_laid hg) fun members j hij => pure fun h => ?_
    exact leaf (by rw [hkind]; decide) h.2.memberTypes nofun h.1
  · refine advance_bind (by rw [hkind]; decide) (bind (commaList_laid fun _ => tupleElement_laid hg) fun ts k hik => ?_)
    refine seq (expect (f := 0) (by decide)) fun _ j hkj => pure fun h => ?_
    exact leaf (by rw [hkind]; decide) (.mono (Nat.le_succ i) hkj h.nestedAll) nofun (by omega)
  · exact skip (typeParams hg.toNests) fun k hik => functionType_laid hg hik
  · refine advance_bind (by rw [hkind]; decide) (skip (typeParams hg.toNests) fun k hik => functionType_laid hg (by omega))
  · exact report_bind (pure fun hf => absurd rfl hf)

theorem primaryType_laid : Builds T 0 (Parser.primaryType g) i fun type j => Whole T i j type := by
  unfold Parser.primaryType
  refine currentSpan (current ?_)
  split <;> rename_i hkind
  · exact wordType_laid hg hkind
  · refine read Reads.atFunctionType fun b k _ hk => ?_
    subst hk
    split
    · exact bind (functionType_laid hg (Nat.le_refl k)) fun kind j hkj => spanJoint (pure id)
    · refine advance_bind (by rw [hkind]; decide) (bind (hg.laidType (k + 1)) fun inner m hkm => ?_)
      refine bind (expect_exact (by decide)) fun _ j hmj => spanJoint (pure ?_)
      rintro ⟨hclose, rfl⟩ hinner
      exact hinner.enclosed hkind hclose
  · exact bind (otherType_laid hg) fun kind j hij => spanJoint (pure id)

/-- Brackets behind a type make an array of it, or a type of which nothing is kept. -/
theorem postfixType_laid : Builds T 0 (Parser.postfixType g) i fun type j => Whole T i j type := by
  unfold Parser.postfixType
  refine currentSpan (bind (primaryType_laid hg) fun type k hik => ?_)
  refine (repeating (I := fun (type : TypeNode) m => Whole T i m type) ?_).mono fun last j _ h htype => h htype
  intro type m hkm
  unfold Parser.bracketStep
  refine atKind (newlineBefore ?_)
  split
  · rename_i hopen
    have hkind : kindOf T m = .lBracket := by simp at hopen; exact hopen.1
    have hbracket : Foreign T m := .of_kind (by rw [hkind]; decide)
    refine advance_bind (by rw [hkind]; decide) (eat (by decide) (fun _ => ?_) fun _ => ?_)
    · refine spanJoint (pure fun htype => .of_foreign ?_ nofun hbracket (by omega) (by omega))
      exact .mono (Nat.le_refl i) (by omega) htype.laid
    · refine skip_keeping ((hg.laidType (m + 1)).mono fun t k₁ _ h => h.lt) fun k₁ h₁ => ?_
      refine bind (expect_exact (by decide)) fun _ j hj => spanJoint (pure ?_)
      rintro ⟨hclose, rfl⟩ hlt' htype
      have hlt := htype.lt
      refine ⟨.nil, ⟨i, Nat.le_refl i, by omega, fun m him hmi => by omega, rfl, fun _ => .inr ?_, fun hany => ?_⟩, .inl ?_⟩
      · exact ⟨m, k₁, hlt, hlt', Nat.lt_succ_self k₁, hkind, hclose, fun n hn hn' => by omega⟩
      · exact absurd hbracket (hany.not_foreign (by omega) (by omega))
      · exact ⟨m, by omega, by omega, hbracket.opens⟩
  · exact pure id

omit hg in
/-- Operands joined by an operator contain it behind a token that opens nothing. -/
theorem joined_laid {operator : TokenKind} (hop : operator = .pipe ∨ operator = .amp) {part : Parse TypeNode}
    {join : List TypeNode → TypeKind} (hjoin : ∀ members, TypeKind.inner (join members) = TypeNode.nestedAll members)
    (hany : ∀ members, join members ≠ .keyword .any)
    (hpart : ∀ k, Builds T 0 part k fun type j => Whole T k j type) :
    Builds T 0 (Parser.joined operator part join) i fun type j => Whole T i j type := by
  have hread : operator ≠ .eof := by rcases hop with rfl | rfl <;> decide
  have hopens {k : Nat} (hk : kindOf T k = operator) : Opens T k := by
    rcases hop with rfl | rfl <;> exact .inl (by rw [hk]; decide)
  have hpart' (k : Nat) : Builds T 0 part k fun type j => Laid T k j (Piece.type type).types :=
    (hpart k).mono fun type j _ h => by rw [Piece.types_type]; exact h.laid
  unfold Parser.joined
  refine currentSpan (skip_eat hread fun k hk => bind (hpart k) fun first m hkm => atKind ?_)
  have hik : i ≤ k := by omega
  split
  · rename_i hmore
    have hmore : kindOf T m = operator := of_decide_eq_true hmore
    have hlist := (separated_laid hread first hkm hpart').and
      (separated_lt hread hmore fun k => (hpart k).mono fun _ _ _ _ => trivial)
    refine bind hlist fun members j hmj => spanJoint (pure ?_)
    rintro ⟨hmembers, hmj⟩ hfirst
    obtain ⟨n, hkn, hnm, hn⟩ := hfirst.exists_not_opens (by rw [hmore]; rcases hop with rfl | rfl <;> decide)
      (by rw [hmore]; rcases hop with rfl | rfl <;> decide)
    refine ⟨?_, ⟨i, Nat.le_refl i, by omega, fun m him hmi => by omega, rfl, fun h => absurd h (hany _), fun hwritten => ?_⟩,
      .inl ⟨n, by omega, by omega, hn⟩⟩
    · have hlaid : Laid T k m (Piece.type first).types := by rw [Piece.types_type]; exact hfirst.laid
      rw [hjoin]
      exact .mono hik (Nat.le_refl j) (hmembers hlaid).nestedAll
    · have hclose := hwritten.closes (by omega) hn hnm hmj
      rw [hmore] at hclose
      rcases hop with rfl | rfl <;> exact absurd hclose (by decide)
  · refine pure fun hfirst => ?_
    rcases hk with rfl | ⟨rfl, hk⟩
    · exact hfirst
    · exact hfirst.opened (hopens hk)

theorem intersectionType_laid : Builds T 0 (Parser.intersectionType g) i fun type j => Whole T i j type :=
  joined_laid (.inr rfl) (fun _ => rfl) nofun fun _ => postfixType_laid hg

theorem typeNode_laid : Builds T 0 (Parser.typeNode g) i fun type j => Whole T i j type :=
  joined_laid (.inl rfl) (fun _ => rfl) nofun fun _ => intersectionType_laid hg

end

end Builds

end Parser

end Recheck.Syntax
