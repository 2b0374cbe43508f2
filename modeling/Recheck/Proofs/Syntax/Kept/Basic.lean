import Mathlib.Data.List.Perm.Subperm
import Recheck.Proofs.Syntax.Placing
import Recheck.Proofs.Syntax.Walks

/-!
# Types that are kept, and the word `any`

The types of a tree come from the tokens of the text one behind the other, except for those that the parser reads and
forgets (`Laid`). Most of them stand for what is written in their place. Where the word `any` is written, alone or in
parentheses, there is the type `any` (`Worded`); but that type also stands for an indexed type and for the result that a
method signature leaves out. From this it follows that no two types `any` overlap (`Laid.stands_apart`).
-/

set_option autoImplicit false

namespace Recheck

/-- Two spans with nothing in common. -/
def Span.Apart (s t : Span) : Prop := s.stop ≤ t.start ∨ t.stop ≤ s.start

namespace Syntax

open Recheck.Syntax.Parser

variable {T : List Token} {i j k m a b : Nat}

/-! ## The word -/

/-- The token is the word `any`. -/
def IsAny (T : List Token) (k : Nat) : Prop := kindOf T k = .identifier ∧ textOf T k = "any"

/-- A token that may stand in front of a type and leaves it what it is. -/
def Opens (T : List Token) (k : Nat) : Prop :=
  kindOf T k ∈ [TokenKind.lParen, .pipe, .amp] ∨ kindOf T k = .identifier ∧ textOf T k ∈ ["readonly", "unique"]

/-- A token that cannot stand around the word `any` without changing what the type is. -/
structure Foreign (T : List Token) (k : Nat) : Prop where
  opens : ¬Opens T k
  isAny : ¬IsAny T k
  closes : kindOf T k ≠ .rParen

/-- The tokens from one index up to another are the word `any`, with parentheses around it or without. -/
def WritesAny (T : List Token) (a b : Nat) : Prop :=
  ∃ k, a ≤ k ∧ k < b ∧ IsAny T k ∧ (∀ m, a ≤ m → m < k → Opens T m) ∧ ∀ m, k < m → m < b → kindOf T m = .rParen

/-- The tokens from one index up to another end with something in brackets, with parentheses around it all or without. -/
def Bracketed (T : List Token) (a b : Nat) : Prop :=
  ∃ k m, a < k ∧ k + 1 < m ∧ m < b ∧ kindOf T k = .lBracket ∧ kindOf T m = .rBracket ∧
    ∀ n, m < n → n < b → kindOf T n = .rParen

theorem Opens.not_isAny (h : Opens T k) : ¬IsAny T k := by
  rintro ⟨hkind, htext⟩
  rcases h with h | ⟨-, h⟩
  · rw [hkind] at h
    exact absurd h (by decide)
  · rw [htext] at h
    exact absurd h (by decide)

theorem not_opens_of_kind (h : kindOf T k ∉ [TokenKind.lParen, .pipe, .amp, .identifier]) : ¬Opens T k := by
  have hmem : ∀ kind ∈ [TokenKind.lParen, .pipe, .amp], kind ∈ [TokenKind.lParen, .pipe, .amp, .identifier] := by decide
  rintro (hkind | ⟨hkind, -⟩)
  · exact h (hmem _ hkind)
  · exact h (by rw [hkind]; decide)

theorem Foreign.of_kind (h : kindOf T k ∉ [TokenKind.lParen, .pipe, .amp, .identifier, .rParen]) : Foreign T k where
  opens := by
    have hmem : ∀ kind ∈ [TokenKind.lParen, .pipe, .amp, .identifier],
        kind ∈ [TokenKind.lParen, .pipe, .amp, .identifier, .rParen] := by decide
    exact not_opens_of_kind fun hk => h (hmem _ hk)
  isAny hany := h (by rw [hany.1]; decide)
  closes hclose := h (by rw [hclose]; decide)

/-- A word of its own. -/
theorem Foreign.of_word (hkind : kindOf T k = .identifier) (htext : textOf T k ∉ ["any", "readonly", "unique"]) :
    Foreign T k where
  opens := by
    rintro (h | ⟨-, h⟩)
    · rw [hkind] at h
      exact absurd h (by decide)
    · exact htext (List.mem_cons_of_mem _ h)
  isAny h := htext (by rw [h.2]; decide)
  closes := by rw [hkind]; decide

namespace WritesAny

theorem word (h : IsAny T k) : WritesAny T k (k + 1) :=
  ⟨k, Nat.le_refl k, Nat.lt_succ_self k, h, fun m _ _ => by omega, fun m _ _ => by omega⟩

theorem not_foreign (h : WritesAny T a b) (ham : a ≤ m) (hmb : m < b) : ¬Foreign T m := by
  intro hforeign
  obtain ⟨k, -, -, hany, hopens, hcloses⟩ := h
  rcases Nat.lt_trichotomy m k with hm | rfl | hm
  · exact hforeign.opens (hopens m ham hm)
  · exact hforeign.isAny hany
  · exact hforeign.closes (hcloses m hm hmb)

/-- Behind a token that opens nothing there are only parentheses that close. -/
theorem closes (h : WritesAny T a b) (ham : a ≤ m) (hm : ¬Opens T m) {n : Nat} (hmn : m < n) (hnb : n < b) :
    kindOf T n = .rParen := by
  obtain ⟨k, -, -, -, hopens, hcloses⟩ := h
  refine hcloses n ?_ hnb
  by_contra hnk
  exact hm (hopens m ham (by omega))

theorem enclosed_iff (hia : i ≤ a) (hopens : ∀ m, i ≤ m → m < a → Opens T m) (hclose : kindOf T b = .rParen) :
    WritesAny T i (b + 1) ↔ WritesAny T a b := by
  constructor
  · rintro ⟨k, hik, hkb, hany, hbefore, hbehind⟩
    have hak : a ≤ k := by
      by_contra h
      exact (hopens k hik (by omega)).not_isAny hany
    have hkb : k < b := by
      by_contra h
      obtain rfl : k = b := by omega
      exact absurd (hany.1.symm.trans hclose) (by decide)
    exact ⟨k, hak, hkb, hany, fun m ham hmk => hbefore m (by omega) hmk, fun m hkm hmb => hbehind m hkm (by omega)⟩
  · rintro ⟨k, hak, hkb, hany, hbefore, hbehind⟩
    refine ⟨k, by omega, by omega, hany, fun m him hmk => ?_, fun m hkm hmb => ?_⟩
    · by_cases h : m < a
      · exact hopens m him h
      · exact hbefore m (by omega) hmk
    · by_cases h : m = b
      · rw [h, hclose]
      · exact hbehind m hkm (by omega)

end WritesAny

theorem Bracketed.enclosed (h : Bracketed T a b) (hia : i ≤ a) (hclose : kindOf T b = .rParen) : Bracketed T i (b + 1) := by
  obtain ⟨k, m, hak, hkm, hmb, hopen, hshut, hbehind⟩ := h
  refine ⟨k, m, by omega, hkm, by omega, hopen, hshut, fun n hmn hnb => ?_⟩
  by_cases h : n = b
  · rw [h, hclose]
  · exact hbehind n hmn (by omega)

/-! ## What a type says -/

/-- The type that is read from one token up to another is `any` if that is what is written there, and is an indexed type if
it is `any` otherwise. In a signature without a result, `any` may be the name of a parameter. -/
structure Worded (T : List Token) (a b : Nat) (kind : TypeKind) : Prop where
  any : kind = .keyword .any → WritesAny T a b ∧ (b = a + 1 ∨ kindOf T a = .lParen) ∨ Bracketed T a b
  written : WritesAny T a b → kind = .keyword .any ∨ ∃ ps ret, kind = .function ps ret

theorem Worded.of_foreign {kind : TypeKind} (hkind : kind ≠ .keyword .any) (hm : Foreign T m) (ham : a ≤ m) (hmb : m < b) :
    Worded T a b kind :=
  ⟨fun h => absurd h hkind, fun h => absurd hm (h.not_foreign ham hmb)⟩

theorem Worded.enclosed {kind : TypeKind} (h : Worded T a b kind) (hia : i ≤ a) (hopen : kindOf T i = .lParen)
    (hopens : ∀ m, i ≤ m → m < a → Opens T m) (hclose : kindOf T b = .rParen) : Worded T i (b + 1) kind where
  any hkind := (h.any hkind).imp (fun h => ⟨(WritesAny.enclosed_iff hia hopens hclose).mpr h.1, .inr hopen⟩)
    (·.enclosed hia hclose)
  written hany := h.written ((WritesAny.enclosed_iff hia hopens hclose).mp hany)

/-- From the first to the last of some tokens. -/
def joint (T : List Token) (a b : Nat) : Span := (spanOf T a).merge (spanOf T (b - 1))

/-- Types that are read between two tokens, each from tokens of its own and those inside it. -/
inductive Laid (T : List Token) : Nat → Nat → List TypeNode → Prop where
  | nil {i j : Nat} : Laid T i j []
  | type {i j a b : Nat} {t : TypeNode} (hia : i ≤ a) (hab : a < b) (hbj : b ≤ j) (hspan : t.span = joint T a b)
      (hworded : Worded T a b t.kind) (hinner : Laid T i j (TypeKind.inner t.kind)) : Laid T i j t.nested
  /-- The result of a signature that says none, in the place of the parenthesis or bracket with which it begins. -/
  | result {i j a : Nat} (hia : i ≤ a) (haj : a < j) (hkind : kindOf T a = .lParen ∨ kindOf T a = .lt) :
      Laid T i j [⟨.keyword .any, spanOf T a⟩]
  | append {i j k : Nat} {xs ys : List TypeNode} (hik : i ≤ k) (hkj : k ≤ j) (hxs : Laid T i k xs) (hys : Laid T k j ys) :
      Laid T i j (xs ++ ys)
  | mono {i j i' j' : Nat} {xs : List TypeNode} (hi : i' ≤ i) (hj : j ≤ j') (hxs : Laid T i j xs) : Laid T i' j' xs
  | sub {i j : Nat} {xs ys : List TypeNode} (h : List.Subperm ys xs) (hxs : Laid T i j xs) : Laid T i j ys

/-- A type `any` that stands for the result that a signature leaves out. -/
def IsResult (T : List Token) (a b : Nat) (kind : TypeKind) : Prop :=
  kind = .keyword .any ∧ b = a + 1 ∧ (kindOf T a = .lParen ∨ kindOf T a = .lt)

/-- The type has its place between two tokens. -/
def Stands (T : List Token) (i j : Nat) (t : TypeNode) : Prop :=
  ∃ a b, i ≤ a ∧ a < b ∧ b ≤ j ∧ t.span = across T a b ∧ (Worded T a b t.kind ∨ IsResult T a b t.kind)

/-- Two types do not overlap, if both are `any`. -/
def TypeNode.Apart (s t : TypeNode) : Prop := s.kind = .keyword .any → t.kind = .keyword .any → s.span.Apart t.span

theorem TypeNode.Apart.symm {s t : TypeNode} (h : s.Apart t) : t.Apart s := fun ht hs => (h hs ht).symm

theorem Stands.mono {t : TypeNode} {i' j' : Nat} (h : Stands T i j t) (hi : i' ≤ i) (hj : j ≤ j') : Stands T i' j' t := by
  obtain ⟨a, b, hia, hab, hbj, h⟩ := h
  exact ⟨a, b, by omega, hab, by omega, h⟩

theorem Stands.apart {s t : TypeNode} (hT : Ruled T) (hj : j < T.length) (hs : Stands T i k s) (ht : Stands T k j t) :
    s.span.Apart t.span := by
  obtain ⟨a, b, -, hab, hbk, hs, -⟩ := hs
  obtain ⟨c, d, hkc, hcd, hdj, ht, -⟩ := ht
  refine .inl ?_
  rw [hs, ht]
  change (spanOf T (b - 1)).stop ≤ edge T c
  have hstop := hT.stop_le_edge (show b - 1 + 1 < T.length by omega)
  exact Nat.le_trans hstop (hT.edge_mono (by omega))

namespace Laid

variable {ts : List TypeNode}

/-- Every type has its place, and the types `any` have places of their own. -/
theorem stands_apart (hT : Ruled T) (h : Laid T i j ts) (hj : j < T.length) :
    (∀ t ∈ ts, Stands T i j t) ∧ ts.Pairwise TypeNode.Apart := by
  induction h with
  | nil => exact ⟨List.forall_mem_nil _, .nil⟩
  | @type i j a b t hia hab hbj hspan hworded _ ih =>
    obtain ⟨hstands, hapart⟩ := ih hj
    obtain ⟨kind, span⟩ := t
    rw [joint, hT.merge_eq_across hab (by omega)] at hspan
    rw [TypeNode.nested, List.forall_mem_cons, List.pairwise_cons]
    refine ⟨⟨⟨a, b, hia, hab, hbj, hspan, .inl hworded⟩, hstands⟩, fun s hs hany => ?_, hapart⟩
    rw [show kind = .keyword .any from hany] at hs
    exact absurd hs List.not_mem_nil
  | @result i j a hia haj hkind =>
    refine ⟨fun t ht => ?_, List.pairwise_singleton _ _⟩
    obtain rfl := List.mem_singleton.mp ht
    refine ⟨a, a + 1, hia, Nat.lt_succ_self a, haj, ?_, .inr ⟨rfl, rfl, hkind⟩⟩
    rw [across, edge_of_lt (by omega)]
    rfl
  | append hik hkj _ _ ihx ihy =>
    obtain ⟨hx, hxs⟩ := ihx (by omega)
    obtain ⟨hy, hys⟩ := ihy hj
    refine ⟨List.forall_mem_append.mpr ⟨fun t ht => (hx t ht).mono (Nat.le_refl _) hkj, fun t ht => (hy t ht).mono hik (Nat.le_refl _)⟩,
      List.pairwise_append.mpr ⟨hxs, hys, fun s hs t ht _ _ => (hx s hs).apart hT hj (hy t ht)⟩⟩
  | mono hi hj' _ ih =>
    obtain ⟨hx, hxs⟩ := ih (by omega)
    exact ⟨fun t ht => (hx t ht).mono hi hj', hxs⟩
  | sub hsub _ ih =>
    obtain ⟨hx, hxs⟩ := ih hj
    obtain ⟨zs, hperm, hsublist⟩ := hsub
    exact ⟨fun t ht => hx t (hsublist.subset (hperm.mem_iff.mpr ht)),
      (hperm.pairwise_iff fun h => h.symm).mp (hxs.sublist hsublist)⟩

/-- What is read later may stand in front. -/
theorem behind {xs ys : List TypeNode} (hxs : Laid T i k xs) (hys : Laid T k j ys) (hik : i ≤ k) (hkj : k ≤ j) :
    Laid T i j (ys ++ xs) :=
  .sub List.perm_append_comm.subperm (.append hik hkj hxs hys)

end Laid

/-! ## Along the parts -/

namespace Piece

/-- The types that the walks meet in a piece. -/
def types (p : Piece) : List TypeNode := p.met.filterMap type?

@[simp] theorem types_type (t : TypeNode) : (type t).types = t.nested := by rw [types, met, inTypes_singleton, type?_types]

@[simp] theorem types_ident (name : Ident) : (ident name).types = [] := rfl

@[simp] theorem types_literal (s : StringLiteral) : (literal s).types = [] := rfl

@[simp] theorem types_word (span : Span) : (word span).types = [] := rfl

theorem types_perm_parts {p : Piece} (hp : p.type? = none) : p.types.Perm (p.parts.flatMap types) := by
  have hbare : p.Bare := by
    cases p with
    | type t => exact nomatch hp
    | _ => trivial
  have hmet := (met_perm_parts hbare).filterMap type?
  rw [List.filterMap_append, type?_own, hp, List.filterMap_flatMap] at hmet
  exact hmet

end Piece

/-- The types in some pieces are read between two tokens. -/
def LaidParts (T : List Token) (i j : Nat) (ps : List Piece) : Prop := Laid T i j (ps.flatMap Piece.types)

/-- What is read of a node is what is read of its parts. -/
theorem Laid.node {p : Piece} (h : LaidParts T i j p.parts) (hp : p.type? = none) : Laid T i j p.types :=
  .sub (Piece.types_perm_parts hp).subperm h

namespace LaidParts

variable {α : Type} {p : Piece} {ps qs : List Piece} {make : α → Piece} {i' j' : Nat}

theorem nil : LaidParts T i j [] := Laid.nil

theorem single (h : Laid T i j p.types) : LaidParts T i j [p] := by rwa [LaidParts, List.flatMap_singleton]

theorem append (h : LaidParts T i k ps) (hs : LaidParts T k j qs) (hik : i ≤ k) (hkj : k ≤ j) : LaidParts T i j (ps ++ qs) := by
  rw [LaidParts, List.flatMap_append]
  exact .append hik hkj h hs

theorem cons (h : Laid T i k p.types) (hs : LaidParts T k j ps) (hik : i ≤ k) (hkj : k ≤ j) : LaidParts T i j (p :: ps) :=
  append (single h) hs hik hkj

/-- A part without types. -/
theorem bare (hp : p.types = []) (hs : LaidParts T i j ps) : LaidParts T i j (p :: ps) := by
  rwa [LaidParts, List.flatMap_cons, hp]

theorem mono (hi : i' ≤ i) (hj : j ≤ j') (h : LaidParts T i j ps) : LaidParts T i' j' ps := Laid.mono hi hj h

theorem of_bare (h : ∀ p ∈ ps, p.types = []) : LaidParts T i j ps := by
  rw [LaidParts, List.flatMap_eq_nil_iff.mpr h]
  exact .nil

theorem idents (names : List Ident) : LaidParts T i j (names.map .ident) :=
  of_bare (List.forall_mem_map.mpr fun _ _ => rfl)

theorem option {o : Option α} (h : ∀ x ∈ o, Laid T i j (make x).types) : LaidParts T i j (o.toList.map make) := by
  cases o with
  | none => exact nil
  | some x => exact single (h x rfl)

/-- The types of some nodes are the types of their parts. -/
theorem of_perm (h : LaidParts T i j ps) (hperm : ps.Perm qs) : LaidParts T i j qs :=
  .sub (hperm.flatMap_right Piece.types).symm.subperm h

end LaidParts

/-! Lists of types, of members and of parameters are walked through one by one. -/

theorem LaidParts.nestedAll {types : List TypeNode} (h : LaidParts T i j (types.map .type)) : Laid T i j (TypeNode.nestedAll types) := by
  rw [LaidParts, List.flatMap_map] at h
  simpa only [TypeNode.nestedAll_eq, Piece.types_type] using h

theorem Piece.types_member (m : Member) : (Piece.member m).types = m.type.toList.flatMap (·.nested) := by
  rw [types, met, inTypes, ← List.map_flatMap, type?_types]

theorem LaidParts.memberTypes {members : List Member} (h : LaidParts T i j (members.map .member)) :
    Laid T i j (Member.types members) := by
  rw [LaidParts, List.flatMap_map] at h
  simpa only [Member.types_eq, Piece.types_member] using h

/-- The types in default values are left out. -/
theorem Param.types_sublist (ps : List Param) : List.Sublist (Param.types ps) ((ps.map Piece.param).flatMap Piece.types) := by
  rw [Param.types_eq]
  induction ps with
  | nil => exact .slnil
  | cons p ps ih =>
    have hown : (Piece.param p).types = p.type.toList.flatMap (·.nested) ++
        (Piece.inExprs p.default.toList).filterMap Piece.type? := by
      rw [Piece.types, Piece.met, List.filterMap_append, Piece.inTypes, ← List.map_flatMap, Piece.type?_types]
    rw [List.map_cons, List.flatMap_cons, List.flatMap_cons, hown]
    exact (List.sublist_append_left _ _).append ih

theorem LaidParts.paramTypes {ps : List Param} (h : LaidParts T i j (ps.map .param)) : Laid T i j (Param.types ps) :=
  .sub (Param.types_sublist ps).subperm h

end Syntax

end Recheck
