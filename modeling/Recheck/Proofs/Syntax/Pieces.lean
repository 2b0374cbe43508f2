import Recheck.Proofs.Syntax.Placing

/-!
# The nodes of a tree and their parts

All that is written in one place of a text is a `Piece` of its tree, and the pieces in it that are written in a place
of their own are its parts. What is to be said of every node of a tree is said of one piece and then of its parts
(`Sound`), so a part of the parser can be asked for it as soon as it has put its own node together.
-/

set_option autoImplicit false

namespace Recheck

theorem Span.Encloses.refl (s : Span) : s.Encloses s := ⟨Nat.le_refl _, Nat.le_refl _⟩

theorem Span.Encloses.trans {a b c : Span} (h : a.Encloses b) (h' : b.Encloses c) : a.Encloses c :=
  ⟨Nat.le_trans h.1 h'.1, Nat.le_trans h'.2 h.2⟩

theorem Span.Encloses.merge {a b s : Span} (ha : s.Encloses a) (hb : s.Encloses b) : s.Encloses (a.merge b) :=
  ⟨Nat.le_min.mpr ⟨ha.1, hb.1⟩, Nat.max_le.mpr ⟨ha.2, hb.2⟩⟩

namespace Syntax

/-- What knows where it is written. A `word` is one that is kept for its place alone. -/
inductive Piece where
  | module (m : SourceModule)
  | statement (s : Statement)
  | declarator (d : Declarator)
  | param (p : Param)
  | member (m : Member)
  | block (b : Block)
  | property (p : Property)
  | expr (e : Expr)
  | type (t : TypeNode)
  | ident (name : Ident)
  | literal (s : StringLiteral)
  | word (span : Span)

namespace Piece

def span : Piece → Span
  | module m => m.span
  | statement s => s.span
  | declarator d => d.span
  | param p => p.span
  | member m => m.span
  | block b => b.span
  | property p => p.span
  | expr e => e.span
  | type t => t.span
  | ident name => name.span
  | literal s => s.span
  | word span => span

/-! ## Parts -/

def ofType : TypeKind → List Piece
  | .keyword _ => []
  | .reference name args => name.map ident ++ args.map type
  | .union members => members.map type
  | .intersection members => members.map type
  | .array element => [type element]
  | .tuple elements => elements.map type
  | .literal _ => []
  | .object members => members.map member
  | .function params ret => params.map param ++ [type ret]
  | .typeof name => name.map ident
  | .error => []

def ofBody : FunctionBody → List Piece
  | .expr value => [expr value]
  | .block body => [block body]

def ofExpr : ExprKind → List Piece
  | .object properties => properties.map property
  | .array items => items.map expr
  | .member object name => [expr object, ident name]
  | .index object index => [expr object, expr index]
  | .call callee args => expr callee :: args.map expr
  | .new callee args => expr callee :: args.map expr
  | .assign target value _ => [expr target, expr value]
  | .binary _ left right => [expr left, expr right]
  | .unary _ operand => [expr operand]
  | .conditional condition thenValue elseValue => [expr condition, expr thenValue, expr elseValue]
  | .function params returnType body => params.map param ++ returnType.toList.map type ++ ofBody body
  | .cast value target => [expr value, type target]
  | _ => []

def ofImport (s : ImportSpecifier) : List Piece := ident s.imported :: s.newName.toList.map ident

def ofExport (s : ExportSpecifier) : List Piece := ident s.localName :: s.newName.toList.map ident

def ofExportKind : ExportKind → List Piece
  | .named specifiers source => specifiers.flatMap ofExport ++ source.toList.map literal
  | .star newName source => newName.toList.map ident ++ [literal source]
  | .default value => [expr value]
  | .assignment value => [expr value]

def ofModuleName : ModuleName → Piece
  | .named name => ident name
  | .ambient specifier => literal specifier
  | .global span => word span

def ofStatement : Statement → List Piece
  | .importDecl d => (d.default.toList ++ d.star.toList).map ident ++ d.named.flatMap ofImport ++ [literal d.source]
  | .importEquals d => [ident d.name, literal d.source]
  | .exportDecl d => ofExportKind d.kind
  | .variableDecl d => word d.keywordSpan :: d.declarators.map declarator
  | .function d =>
    d.name.toList.map ident ++ d.typeParams.map ident ++ d.params.map param ++ d.returnType.toList.map type ++
      d.body.toList.map block
  | .interface d => ident d.name :: d.typeParams.map ident ++ d.bases.map type ++ d.members.map member
  | .typeAlias d => ident d.name :: d.typeParams.map ident ++ [type d.type]
  | .moduleDecl d => ofModuleName d.name :: (d.body.getD []).map statement
  | .ifElse s => [expr s.condition, statement s.thenBranch] ++ s.elseBranch.toList.map statement
  | .block b => [block b]
  | .expression e => [expr e]
  | .ret s => s.value.toList.map expr
  | .empty _ => []
  | .error _ => []

/-- The pieces directly inside a piece. -/
def parts : Piece → List Piece
  | module m => m.statements.map statement
  | statement s => ofStatement s
  | declarator d => ident d.name :: d.type.toList.map type ++ d.init.toList.map expr
  | param p => ident p.name :: p.type.toList.map type ++ p.default.toList.map expr
  | member m => ident m.name :: m.type.toList.map type
  | block b => b.statements.map statement
  | property p => [ident p.name, expr p.value]
  | expr e => ofExpr e.kind
  | type t => ofType t.kind
  | ident _ => []
  | literal _ => []
  | word _ => []

/-- The list of statements that a piece holds. -/
def statements : Piece → List Statement
  | module m => m.statements
  | block b => b.statements
  | statement (.moduleDecl d) => d.body.getD []
  | _ => []

/-- One piece is the other, or inside it at any depth. -/
inductive Contains : Piece → Piece → Prop where
  | self (p : Piece) : Contains p p
  | part {p q r : Piece} : q ∈ p.parts → Contains q r → Contains p r

end Piece

/-! ## Places -/

/-- The beginning or the end of a token. The beginning of the text counts as one. -/
def IsBound (T : List Token) (n : Nat) : Prop :=
  ∃ i, n = (Parser.spanOf T i).start ∨ n = (Parser.spanOf T i).stop

/-- A span from one bound of a token to another. -/
structure Lies (T : List Token) (s : Span) : Prop where
  start_le_stop : s.start ≤ s.stop
  start : IsBound T s.start
  stop : IsBound T s.stop

/-- The span covers the tokens from one index up to another. -/
def Holds (T : List Token) (i j : Nat) (s : Span) : Prop := ∀ k, i ≤ k → k < j → s.Encloses (Parser.spanOf T k)

/-- Each statement begins and ends in front of those that follow. -/
def InOrder (statements : List Statement) : Prop :=
  statements.Pairwise fun a b => a.span.start < b.span.start ∧ a.span.stop ≤ b.span.start

/-- The piece lies in the text, and so do all pieces inside it. Unless there are faults, each is a piece of the text,
inside the one around it. -/
inductive Sound (T : List Token) (faults : Nat) : Span → Piece → Prop where
  | intro {outer : Span} {p : Piece} (lies : Lies T p.span)
      (inside : faults = 0 → outer.Encloses p.span ∧ p.span.start < p.span.stop)
      (parts : ∀ q ∈ p.parts, Sound T faults p.span q) (order : faults = 0 → InOrder p.statements) : Sound T faults outer p

variable {T : List Token} {f i j : Nat} {outer outer' s : Span} {p q : Piece}

namespace Sound

theorem lies : Sound T f outer p → Lies T p.span
  | intro lies _ _ _ => lies

theorem inside : Sound T f outer p → f = 0 → outer.Encloses p.span ∧ p.span.start < p.span.stop
  | intro _ inside _ _ => inside

theorem parts : Sound T f outer p → ∀ q ∈ p.parts, Sound T f p.span q
  | intro _ _ parts _ => parts

theorem order : Sound T f outer p → f = 0 → InOrder p.statements
  | intro _ _ _ order => order

theorem widen (h : Sound T f outer p) (hs : f = 0 → outer'.Encloses p.span) : Sound T f outer' p :=
  .intro h.lies (fun hf => ⟨hs hf, (h.inside hf).2⟩) h.parts h.order

theorem contains (h : Sound T f outer p) (hq : p.Contains q) : ∃ outer, Sound T f outer q := by
  induction hq generalizing outer with
  | self => exact ⟨outer, h⟩
  | part hpart _ ih => exact ih (h.parts _ hpart)

end Sound

/-! ## What is read between two tokens -/

/-- A span inside what is read from the token `i` up to the token `j`. -/
structure Inside (T : List Token) (f i j : Nat) (s : Span) : Prop where
  lies : Lies T s
  lt : f = 0 → i < j
  least : f = 0 → ∀ outer, Holds T i j outer → outer.Encloses s
  pos : f = 0 → s.start < s.stop

/-- The span of all that is read from the token `i` up to the token `j`. -/
structure Joins (T : List Token) (f i j : Nat) (s : Span) : Prop extends Inside T f i j s where
  holds : f = 0 → Holds T i j s

/-- A piece of what is read from the token `i` up to the token `j`. -/
structure Within (T : List Token) (f i j : Nat) (p : Piece) : Prop extends Inside T f i j p.span where
  sound : ∀ q ∈ p.parts, Sound T f p.span q
  order : f = 0 → InOrder p.statements

/-- Pieces of what is read from the token `i` up to the token `j`. -/
def Parts (T : List Token) (f i j : Nat) (ps : List Piece) : Prop := ∀ p ∈ ps, Within T f i j p

theorem Holds.mono {i' j' : Nat} (h : Holds T i' j' s) (hi : i' ≤ i) (hj : j ≤ j') : Holds T i j s :=
  fun k hik hkj => h k (Nat.le_trans hi hik) (Nat.lt_of_lt_of_le hkj hj)

namespace Lies

theorem merge {a b : Span} (ha : Lies T a) (hb : Lies T b) : Lies T (a.merge b) where
  start_le_stop := Nat.le_trans (Nat.min_le_left _ _) (Nat.le_trans ha.start_le_stop (Nat.le_max_left _ _))
  start := by
    rw [Span.start_merge]
    rcases Nat.le_total a.start b.start with h | h
    · rw [Nat.min_eq_left h]
      exact ha.start
    · rw [Nat.min_eq_right h]
      exact hb.start
  stop := by
    rw [Span.stop_merge]
    rcases Nat.le_total a.stop b.stop with h | h
    · rw [Nat.max_eq_right h]
      exact hb.stop
    · rw [Nat.max_eq_left h]
      exact ha.stop

theorem token (hT : Ruled T) (i : Nat) : Lies T (Parser.spanOf T i) := ⟨hT.forward i, ⟨i, .inl rfl⟩, ⟨i, .inr rfl⟩⟩

/-- What has no place counts as standing at the beginning of the text. -/
theorem empty (T : List Token) : Lies T Span.empty := by
  have hspan : Parser.spanOf T T.length = Span.empty := by simp [Parser.spanOf]
  exact ⟨Nat.le_refl _, ⟨T.length, .inl (by rw [hspan])⟩, ⟨T.length, .inr (by rw [hspan])⟩⟩

end Lies

namespace Inside

variable {i' j' : Nat}

theorem mono (h : Inside T f i j s) (hi : i' ≤ i) (hj : j ≤ j') : Inside T f i' j' s where
  lies := h.lies
  lt hf := by
    have := h.lt hf
    omega
  least hf outer houter := h.least hf outer (houter.mono hi hj)
  pos := h.pos

theorem of_encloses (h : Inside T f i j outer) (hlies : Lies T s)
    (hs : f = 0 → outer.Encloses s ∧ s.start < s.stop) : Inside T f i j s where
  lies := hlies
  lt := h.lt
  least hf o ho := (h.least hf o ho).trans (hs hf).1
  pos hf := (hs hf).2

theorem stop_le (h : Inside T f i j s) (hT : Ruled T) (hj : j < T.length) (hf : f = 0) :
    s.stop ≤ edge T j := by
  refine (h.least hf ⟨0, edge T j⟩ fun k _ hkj => ⟨Nat.zero_le _, ?_⟩).2
  exact Nat.le_trans (hT.stop_le_edge (show k + 1 < T.length by omega)) (hT.edge_mono hkj)

theorem le_start (h : Inside T f i j s) (hT : Ruled T) (hj : j ≤ T.length) (hf : f = 0) :
    edge T i ≤ s.start := by
  refine (h.least hf ⟨edge T i, limit T⟩ fun k hik hkj => ⟨?_, hT.stop_le_limit (by omega)⟩).1
  exact edge_of_lt (show k < T.length by omega) ▸ hT.edge_mono hik

end Inside

namespace Joins

variable {a b : Span} {k m : Nat}

theorem token (hT : Ruled T) (hi : i + 1 < T.length) : Joins T f i (i + 1) (Parser.spanOf T i) where
  lies := .token hT i
  lt _ := Nat.lt_succ_self i
  holds _ := by
    intro k hik hki
    obtain rfl : k = i := by omega
    exact .refl _
  least _ := fun outer houter => houter i (Nat.le_refl i) (Nat.lt_succ_self i)
  pos _ := (hT.ordered i hi).1

/-- From the first token to the last one. -/
theorem merge (hT : Ruled T) (hj : j < T.length) (hlt : f = 0 → i < j) :
    Joins T f i j ((Parser.spanOf T i).merge (Parser.spanOf T (j - 1))) where
  lies := (Lies.token hT i).merge (.token hT (j - 1))
  lt := hlt
  holds hf := by
    have hij := hlt hf
    rw [hT.merge_eq_across hij hj, across]
    intro k hik hkj
    refine ⟨?_, ?_⟩
    · have := hT.edge_mono hik
      rwa [edge_of_lt (show k < T.length by omega)] at this
    · change (Parser.spanOf T k).stop ≤ (Parser.spanOf T (j - 1)).stop
      by_cases hlast : k = j - 1
      · exact Nat.le_of_eq (by rw [hlast])
      · have h1 := hT.stop_le_edge (show k + 1 < T.length by omega)
        have h2 := hT.edge_mono (show k + 1 ≤ j - 1 by omega)
        have h3 := hT.forward (j - 1)
        rw [edge_of_lt (show j - 1 < T.length by omega)] at h2
        exact Nat.le_trans h1 (Nat.le_trans h2 h3)
  least hf := by
    intro outer houter
    have hij := hlt hf
    exact (houter i (Nat.le_refl i) hij).merge (houter (j - 1) (by omega) (by omega))
  pos hf := by
    have := (hT.ordered i (show i + 1 < T.length by have := hlt hf; omega)).1
    exact Nat.lt_of_le_of_lt (Nat.min_le_left _ _) (Nat.lt_of_lt_of_le this (Nat.le_max_left _ _))

/-- Two spans one behind the other. -/
theorem append (ha : Joins T f i k a) (hb : Joins T f k j b) : Joins T f i j (a.merge b) where
  lies := ha.lies.merge hb.lies
  lt hf := Nat.lt_trans (ha.lt hf) (hb.lt hf)
  holds hf := by
    intro m him hmj
    rcases Nat.lt_or_ge m k with h | h
    · exact (Span.encloses_merge_left a b).trans (ha.holds hf m him h)
    · exact (Span.encloses_merge_right a b).trans (hb.holds hf m h hmj)
  least hf := by
    intro outer houter
    have hik := ha.lt hf
    have hkj := hb.lt hf
    refine (ha.least hf outer (houter.mono (Nat.le_refl i) (by omega))).merge ?_
    exact hb.least hf outer (houter.mono (by omega) (Nat.le_refl j))
  pos hf := Nat.lt_of_le_of_lt (Nat.min_le_left _ _) (Nat.lt_of_lt_of_le (ha.pos hf) (Nat.le_max_left _ _))

end Joins

namespace Within

variable {i' j' : Nat}

/-- A piece lies where its parts lie. -/
theorem ordered (hs : Joins T f i j p.span) (hparts : Parts T f i j p.parts) (horder : f = 0 → InOrder p.statements) :
    Within T f i j p where
  toInside := hs.toInside
  sound q hq := by
    have h := hparts q hq
    exact .intro h.lies (fun hf => ⟨h.least hf _ (hs.holds hf), h.pos hf⟩) h.sound h.order
  order := horder

theorem node (hs : Joins T f i j p.span) (hparts : Parts T f i j p.parts) (hnone : p.statements = []) :
    Within T f i j p :=
  ordered hs hparts fun _ => by rw [hnone]; exact .nil

theorem mono (h : Within T f i j p) (hi : i' ≤ i) (hj : j ≤ j') : Within T f i' j' p :=
  ⟨h.toInside.mono hi hj, h.sound, h.order⟩

theorem parts (h : Within T f i j p) : Parts T f i j p.parts := by
  intro q hq
  have hsound := h.sound q hq
  exact ⟨h.toInside.of_encloses hsound.lies hsound.inside, hsound.parts, hsound.order⟩

/-- The same node with a larger span. -/
theorem stretch {i₀ : Nat} (h : Within T f i j p) (hs : Inside T f i₀ j q.span) (hle : f = 0 → q.span.Encloses p.span)
    (hparts : q.parts = p.parts) (hstatements : q.statements = p.statements) : Within T f i₀ j q where
  toInside := hs
  sound := by
    intro r hr
    have hsound := h.sound r (hparts ▸ hr)
    exact hsound.widen fun hf => (hle hf).trans (hsound.inside hf).1
  order := hstatements ▸ h.order

theorem withSpan (h : Within T f i j p) (hs : Joins T f i j q.span) (hparts : q.parts = p.parts)
    (hstatements : q.statements = p.statements) : Within T f i j q :=
  h.stretch hs.toInside (fun hf => h.least hf _ (hs.holds hf)) hparts hstatements

/-- A node whose only part has the same span. -/
theorem wrap (h : Within T f i j p) (hs : q.span = p.span) (hparts : q.parts = [p])
    (hnone : q.statements = []) : Within T f i j q where
  toInside := hs ▸ h.toInside
  sound := by
    rw [hparts, List.forall_mem_singleton, hs]
    exact .intro h.lies (fun hf => ⟨.refl _, h.pos hf⟩) h.sound h.order
  order _ := by
    rw [hnone]
    exact .nil

/-- Something is missing, which is a fault. -/
theorem missing (hf : f ≠ 0) (hlies : Lies T p.span) (hparts : p.parts = []) : Within T f i j p where
  lies := hlies
  lt h := absurd h hf
  least h := absurd h hf
  pos h := absurd h hf
  sound := by
    rw [hparts]
    exact nofun
  order h := absurd h hf

/-- A leaf at the first token, if it has been read. -/
theorem token (hT : Ruled T) (hj : j < T.length) (hlt : f = 0 → i < j) (hs : p.span = Parser.spanOf T i)
    (hparts : p.parts = []) (hnone : p.statements = []) : Within T f i j p := by
  by_cases hf : f = 0
  · have hij := hlt hf
    have h : Joins T f i (i + 1) p.span := hs ▸ .token hT (by omega)
    exact (node h (hparts ▸ nofun) hnone).mono (Nat.le_refl i) hij
  · exact missing hf (hs ▸ .token hT i) hparts

end Within

/-! ## Lists of pieces -/

/-- The parts of a node for which tokens have been read, from `i` up to `j`. -/
structure Fills (T : List Token) (f i j : Nat) (ps : List Piece) : Prop where
  lt : f = 0 → i < j
  parts : Parts T f i j ps

namespace Parts

variable {α : Type} {i' j' : Nat} {ps qs : List Piece} {make : α → Piece}

theorem nil : Parts T f i j [] := nofun

theorem cons (h : Within T f i j p) (hs : Parts T f i j ps) : Parts T f i j (p :: ps) :=
  List.forall_mem_cons.mpr ⟨h, hs⟩

theorem single (h : Within T f i j p) : Parts T f i j [p] := cons h nil

theorem append (h : Parts T f i j ps) (hs : Parts T f i j qs) : Parts T f i j (ps ++ qs) :=
  List.forall_mem_append.mpr ⟨h, hs⟩

theorem map {xs : List α} (h : ∀ x ∈ xs, Within T f i j (make x)) : Parts T f i j (xs.map make) :=
  List.forall_mem_map.mpr h

theorem option {o : Option α} (h : ∀ x ∈ o, Within T f i j (make x)) : Parts T f i j (o.toList.map make) :=
  map fun x hx => h x (Option.mem_toList.mp hx)

theorem flatMap {xs : List α} {make : α → List Piece} (h : ∀ x ∈ xs, Parts T f i j (make x)) :
    Parts T f i j (xs.flatMap make) := by
  intro p hp
  obtain ⟨x, hx, hp⟩ := List.mem_flatMap.mp hp
  exact h x hx p hp

theorem mono (h : Parts T f i j ps) (hi : i' ≤ i) (hj : j ≤ j') : Parts T f i' j' ps :=
  fun p hp => (h p hp).mono hi hj

end Parts

theorem Fills.mono {i' j' : Nat} {ps : List Piece} (h : Fills T f i j ps) (hi : i' ≤ i) (hj : j ≤ j') :
    Fills T f i' j' ps where
  lt hf := by
    have := h.lt hf
    omega
  parts := h.parts.mono hi hj

/-- The statements so far, newest first. -/
structure Listed (T : List Token) (f i : Nat) (items : List Statement) (j : Nat) : Prop where
  within : ∀ s ∈ items, Within T f i j (.statement s)
  order : f = 0 → InOrder items.reverse

theorem Listed.nil : Listed T f i [] i := ⟨nofun, fun _ => .nil⟩

theorem Listed.mono {k : Nat} {items : List Statement} (h : Listed T f i items k) (hk : k ≤ j) : Listed T f i items j :=
  ⟨fun s hs => (h.within s hs).mono (Nat.le_refl i) hk, h.order⟩

theorem Listed.cons {k : Nat} {items : List Statement} {s : Statement} (hT : Ruled T) (hj : j < T.length) (hik : i ≤ k)
    (hkj : k ≤ j) (h : Listed T f i items k) (hs : Within T f k j (.statement s)) : Listed T f i (s :: items) j where
  within := by
    rw [List.forall_mem_cons]
    exact ⟨hs.mono hik (Nat.le_refl j), (h.mono hkj).within⟩
  order hf := by
    rw [List.reverse_cons, InOrder, List.pairwise_append]
    refine ⟨h.order hf, List.pairwise_singleton _ _, fun a ha b hb => ?_⟩
    obtain rfl := List.mem_singleton.mp hb
    have ha := h.within a (List.mem_reverse.mp ha)
    have hstop : a.span.stop ≤ b.span.start :=
      Nat.le_trans (ha.stop_le hT (by omega) hf) (hs.le_start hT (Nat.le_of_lt hj) hf)
    exact ⟨Nat.lt_of_lt_of_le (ha.pos hf) hstop, hstop⟩

theorem Listed.reverse {items : List Statement} (h : Listed T f i items j) :
    (∀ s ∈ items.reverse, Within T f i j (.statement s)) ∧ (f = 0 → InOrder items.reverse) :=
  ⟨fun s hs => h.within s (List.mem_reverse.mp hs), h.order⟩

end Syntax

end Recheck
