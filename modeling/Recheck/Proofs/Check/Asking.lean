import Recheck.Check.Checker
import Recheck.Proofs.Check.Lookups

/-!
# What a rule may ask

A rule asks about the parts of its node and about declarations that stand, whatever it is answered (`Asks`). A part is lower
than the node, so between two declarations a chain of questions only goes downwards. The bindings that a rule meets can
change between two questions, since a question may open a body, but what stood still stands (`Later`).
-/

set_option autoImplicit false

namespace Recheck.Check

open Syntax

/-! ## Questions -/

/-- The node that is judged, and where it stands. -/
def Judgement.item : Judgement → Item
  | .expr e site _ => ⟨.expr e, site⟩
  | .type t site => ⟨.type t, site⟩
  | .statement s site _ => ⟨.statement s, site⟩
  | .returns s site => ⟨.statement s, site⟩

namespace Question

/-- What may be asked about a node of some height. -/
def Proper (h : Nat) (b : Bindings) : Question → Prop
  | judge j => Stands b j.item ∧ j.item.node.content.height < h
  | declared d => Stated b d
  | openBody body parent =>
    ∃ x, Stands b x ∧ x.node.body? x.site.file = some body ∧ x.site.scope = parent ∧ body.isPlain = false
  | _ => True

/-- What an answer says of the bindings behind it. -/
def Settles (b : Bindings) : (q : Question) → q.Answer → Prop
  | bindings, found => found = b
  | openBody body parent, _ => b.isOpen body parent = true
  | _, _ => True

end Question

/-- Bindings in which more bodies may be open. -/
structure Later (b b' : Bindings) : Prop where
  valid : Valid b'
  grows : Grows b b'

theorem Later.refl {b : Bindings} (h : Valid b) : Later b b := ⟨h, .refl b⟩

theorem Later.trans {b b' b'' : Bindings} (h : Later b b') (h' : Later b' b'') : Later b b'' :=
  ⟨h'.valid, h.grows.trans h'.grows⟩

/-- A part of a check asks what it may, and its result is as it should be. -/
def Asks (h : Nat) {α : Type} (Q : Bindings → α → Prop) : CheckM α → Bindings → Prop
  | .done a, b => Q b a
  | .ask q next, b => q.Proper h b ∧ ∀ b' answer, Later b b' → q.Settles b' answer → Asks h Q (next answer) b'

/-- A part of a check whose result does not matter. -/
abbrev Fine (h : Nat) {α : Type} (c : CheckM α) (b : Bindings) : Prop := Asks h (fun _ _ => True) c b

section

variable {h : Nat} {b b' : Bindings} {α β : Type} {P : Bindings → α → Prop} {Q : Bindings → β → Prop}

theorem CheckM.pure_bind (a : α) (f : α → CheckM β) : (pure a : CheckM α) >>= f = f a := rfl

namespace Asks

theorem pure {a : α} (ha : P b a) : Asks h P (Pure.pure a) b := ha

theorem bind {c : CheckM α} {f : α → CheckM β} (hb : Valid b) (hc : Asks h P c b)
    (hf : ∀ b' a, Later b b' → P b' a → Asks h Q (f a) b') : Asks h Q (c >>= f) b := by
  induction c generalizing b with
  | done a => exact hf b a (.refl hb) hc
  | ask q next ih =>
    refine ⟨hc.1, fun b' answer hlater hsettles => ?_⟩
    exact ih answer hlater.valid (hc.2 b' answer hlater hsettles) fun b'' a hlater' => hf b'' a (hlater.trans hlater')

/-- What the first part leaves behind is what the second part needs. -/
theorem of_bind {c : CheckM α} {f : α → CheckM β} (hc : Asks h Q (c >>= f) b) : Asks h (fun b' a => Asks h Q (f a) b') c b := by
  induction c generalizing b with
  | done a => exact hc
  | ask q next ih => exact ⟨hc.1, fun b' answer hlater hsettles => ih answer (hc.2 b' answer hlater hsettles)⟩

theorem mono {P' : Bindings → α → Prop} {c : CheckM α} (hc : Asks h P c b) (hP : ∀ b a, P b a → P' b a) : Asks h P' c b := by
  induction c generalizing b with
  | done a => exact hP b a hc
  | ask q next ih => exact ⟨hc.1, fun b' answer hlater hsettles => ih answer (hc.2 b' answer hlater hsettles)⟩

theorem discard {c : CheckM α} (hb : Valid b) (hc : Fine h c b) : Fine h (Functor.discard c) b :=
  bind hb hc fun _ _ _ _ => trivial

/-! ### Lists -/

variable {ι : Type} {xs : List ι}

theorem forM {f : ι → CheckM Unit} (hb : Valid b) (hf : ∀ x ∈ xs, ∀ b', Later b b' → Fine h (f x) b') :
    Fine h (xs.forM f) b := by
  induction xs generalizing b with
  | nil => trivial
  | cons x xs ih =>
    refine bind hb (hf x List.mem_cons_self b (.refl hb)) fun b' _ hlater _ => ih hlater.valid fun y hy b'' hlater' => ?_
    exact hf y (List.mem_cons_of_mem _ hy) b'' (hlater.trans hlater')

theorem mapM {f : ι → CheckM β} (hb : Valid b) (hf : ∀ x ∈ xs, ∀ b', Later b b' → Fine h (f x) b') :
    Fine h (xs.mapM f) b := by
  unfold List.mapM
  suffices ∀ done, Fine h (List.mapM.loop f xs done) b from this []
  induction xs generalizing b with
  | nil => exact fun _ => trivial
  | cons x xs ih =>
    intro done
    refine bind hb (hf x List.mem_cons_self b (.refl hb)) fun b' y hlater _ => ih hlater.valid ?_ (y :: done)
    exact fun z hz b'' hlater' => hf z (List.mem_cons_of_mem _ hz) b'' (hlater.trans hlater')

theorem foldlM {σ : Type} {f : σ → ι → CheckM σ} {s : σ} (hb : Valid b)
    (hf : ∀ x ∈ xs, ∀ s b', Later b b' → Fine h (f s x) b') : Fine h (xs.foldlM f s) b := by
  induction xs generalizing b s with
  | nil => trivial
  | cons x xs ih =>
    refine bind hb (hf x List.mem_cons_self s b (.refl hb)) fun b' s' hlater _ => ih hlater.valid ?_
    exact fun y hy t b'' hlater' => hf y (List.mem_cons_of_mem _ hy) t b'' (hlater.trans hlater')

theorem optionMapM {o : Option ι} {f : ι → CheckM β} (hb : Valid b) (hf : ∀ x ∈ o, Fine h (f x) b) : Fine h (o.mapM f) b := by
  cases o with
  | none => trivial
  | some x => exact bind hb (hf x rfl) fun _ _ _ _ => trivial

/-! ### Simple questions -/

theorem bindings : Asks h (fun b' found => found = b') Check.bindings b := ⟨trivial, fun _ _ _ hsettles => hsettles⟩

theorem options : Fine h Check.options b := ⟨trivial, fun _ _ _ _ => trivial⟩

theorem isQuiet : Fine h Check.isQuiet b := ⟨trivial, fun _ _ _ _ => trivial⟩

theorem report (fault : Fault) (span : Span) : Fine h (Check.report fault span) b := ⟨trivial, fun _ _ _ _ => trivial⟩

theorem declared {d : Declaration} (hd : Stated b d) : Fine h (Check.declared d) b := ⟨hd, fun _ _ _ _ => trivial⟩

end Asks

/-! ## Names -/

variable (hb : Valid b)
include hb

theorem asks_lookupValue {scope : ScopeId} (hscope : StandsScope b scope) (name : String) :
    Asks h (fun b' found => ∀ symbol, found = some symbol → KnownValue b' symbol) (lookupValue scope name) b := by
  unfold lookupValue
  refine Asks.bindings.bind hb ?_
  rintro _ later hlater rfl
  have hfound (symbol : ValueSymbol) (h : later.lookupValue scope name = some symbol) : KnownValue later symbol :=
    hlater.valid.knownValue_lookup (hlater.grows.standsScope hscope) h
  dsimp only
  split
  · refine ⟨trivial, fun b'' _ hlater' _ symbol hsymbol => (hfound symbol hsymbol).grows hlater'.grows⟩
  · exact hfound

theorem asks_lookupType {scope : ScopeId} (hscope : StandsScope b scope) (name : String) :
    Asks h (fun b' found => ∀ symbol, found = some symbol → KnownType b' symbol) (lookupType scope name) b := by
  unfold lookupType
  refine Asks.bindings.bind hb ?_
  rintro _ later hlater rfl
  have hfound (symbol : TypeSymbol) (h : later.lookupType scope name = some symbol) : KnownType later symbol :=
    hlater.valid.knownType_lookup (hlater.grows.standsScope hscope) h
  dsimp only
  split
  · refine ⟨trivial, fun b'' _ hlater' _ symbol hsymbol => (hfound symbol hsymbol).grows hlater'.grows⟩
  · exact hfound

theorem asks_resolveValue {symbol : ValueSymbol} (hsymbol : KnownValue b symbol) :
    Asks h (fun b' found => ∀ target, found = some target → KnownValue b' target) (resolveValue symbol) b := by
  unfold resolveValue
  refine Asks.bindings.bind hb ?_
  rintro b' _ hlater rfl
  exact fun target => hlater.valid.knownValue_resolve (hsymbol.grows hlater.grows)

theorem asks_resolveTypeSymbol {symbol : TypeSymbol} (hsymbol : KnownType b symbol) :
    Asks h (fun b' found => ∀ target, found = some target → KnownType b' target) (resolveTypeSymbol symbol) b := by
  unfold resolveTypeSymbol
  refine Asks.bindings.bind hb ?_
  rintro b' _ hlater rfl
  exact fun target => hlater.valid.knownType_resolve (hsymbol.grows hlater.grows)

omit hb in
theorem fine_declaredValueType {symbol : ValueSymbol} (hsymbol : KnownValue b symbol) : Fine h (declaredValueType symbol) b := by
  cases symbol with
  | builtin builtin => cases builtin <;> trivial
  | imported | ofModule => trivial
  | _ => exact Asks.declared hsymbol

theorem fine_valueType {symbol : ValueSymbol} (hsymbol : KnownValue b symbol) : Fine h (valueType symbol) b := by
  unfold valueType
  split
  · refine (asks_resolveValue hb hsymbol).bind hb fun b' found _ hfound => ?_
    cases found with
    | none => trivial
    | some target => exact fine_declaredValueType (hfound target rfl)
  · exact fine_declaredValueType hsymbol

theorem fine_declaredType {symbol : TypeSymbol} (hsymbol : KnownType b symbol) (args : List Ty) :
    Fine h (declaredType symbol args) b := by
  cases symbol with
  | interface name scope =>
    refine Asks.bindings.bind hb fun b' found hlater _ => ?_
    split
    · trivial
    · exact Asks.declared (hlater.grows.stated hsymbol)
  | typeAlias decl site => exact Asks.declared hsymbol
  | builtin builtin => cases builtin <;> trivial
  | typeParam | imported | ofModule => trivial

theorem fine_symbolType {symbol : TypeSymbol} (hsymbol : KnownType b symbol) (args : List Ty) :
    Fine h (symbolType symbol args) b := by
  unfold symbolType
  split
  · refine (asks_resolveTypeSymbol hb hsymbol).bind hb fun b' found hlater hfound => ?_
    cases found with
    | none => trivial
    | some target => exact fine_declaredType hlater.valid (hfound target rfl) args
  · exact fine_declaredType hb hsymbol args

end

/-! ## Inside a node -/

/-- The rule for a node, or for a declaration of it, is at work: the parts of the node stand at this site. -/
structure Working (h : Nat) (b : Bindings) (x : Item) (site : Site) : Prop where
  valid : Valid b
  stands : Stands b x
  inside : x.inside b = some site
  height_le : x.node.content.height ≤ h

section

variable {h : Nat} {b b' : Bindings} {x : Item} {site : Site}

/-- Most nodes have their parts where they stand. -/
theorem Item.inside_eq_site (hbody : x.node.body? x.site.file = none) (hmodule : x.node.module = []) :
    x.inside b = some x.site := by
  unfold inside
  rw [hbody]
  split
  · rename_i heq _
    exact nomatch heq
  · rename_i hnode
    rw [hnode] at hmodule
    exact nomatch hmodule
  · rfl

theorem Valid.working (hb : Valid b) (hx : Stands b x) (hbody : x.node.body? x.site.file = none)
    (hmodule : x.node.module = []) (hh : x.node.content.height ≤ h) : Working h b x x.site :=
  ⟨hb, hx, Item.inside_eq_site hbody hmodule, hh⟩

namespace Working

theorem later (w : Working h b x site) (hlater : Later b b') : Working h b' x site :=
  ⟨hlater.valid, hlater.grows.stands _ w.stands, hlater.grows.inside _ _ w.stands w.inside, w.height_le⟩

variable (w : Working h b x site)
include w

theorem standsScope : StandsScope b site.scope :=
  w.valid.standsScope_inside w.stands (w.valid.standsScope_site w.stands) w.inside

theorem part {n : Node} (hn : n ∈ x.node.parts) : Stands b ⟨n, site⟩ ∧ n.content.height < h :=
  ⟨.part w.stands (Item.mem_parts.mpr ⟨site, w.inside, hn, rfl⟩), Nat.lt_of_lt_of_le (Node.height_lt hn) w.height_le⟩

theorem exprType {e : Expr} (he : .expr e ∈ x.node.parts) (expected : Option Ty) : Fine h (exprType e site expected) b :=
  ⟨w.part he, fun _ _ _ _ => trivial⟩

theorem typeMeaning {t : TypeNode} (ht : .type t ∈ x.node.parts) : Fine h (typeMeaning t site) b :=
  ⟨w.part ht, fun _ _ _ _ => trivial⟩

theorem checkStatement {s : Statement} (hs : .statement s ∈ x.node.parts) (result : Option Ty) :
    Fine h (checkStatement s site result) b :=
  ⟨w.part hs, fun _ _ _ _ => trivial⟩

theorem returnTypes {s : Statement} (hs : .statement s ∈ x.node.parts) : Fine h (returnTypes s site) b :=
  ⟨w.part hs, fun _ _ _ _ => trivial⟩

end Working

end

end Recheck.Check
