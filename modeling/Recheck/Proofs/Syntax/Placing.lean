import Mathlib.Data.List.Nodup
import Recheck.Proofs.Syntax.Content
import Recheck.Proofs.Syntax.Lexing
import Recheck.Proofs.Syntax.Reading

/-!
# Where spots lie

A part of the parser that reads the tokens from one index up to another puts spots between the two edges only
(`Placed`), so that spots of neighbours are apart. For most roles the place of a spot is its beginning. A missing name
takes the span of the token that was not read, which the next part may read: hence such places count from behind the
first edge up to the last one. A variable can stand at the first edge itself. What tells it from a missing name with the
same span is that no identifier is ever missing, which `key` puts into the place.
-/

set_option autoImplicit false

namespace Recheck.Syntax

open Recheck.Syntax.Parser

variable {T : List Token} {i j : Nat}

/-! ## Edges -/

/-- The tokens lie one behind the other, and none but the end is empty. -/
structure Ruled (T : List Token) : Prop extends Ended T where
  pos : 0 < T.length
  forward : ∀ i, (spanOf T i).start ≤ (spanOf T i).stop
  ordered : ∀ i, i + 1 < T.length →
    (spanOf T i).start < (spanOf T i).stop ∧ (spanOf T i).stop ≤ (spanOf T (i + 1)).start

/-- Where a token begins. Behind the end there is nothing but the end. -/
def edge (T : List Token) (i : Nat) : Nat := (spanOf T (min i (T.length - 1))).start

/-- Where the text ends. -/
def limit (T : List Token) : Nat := (spanOf T (T.length - 1)).stop

theorem edge_of_lt (h : i < T.length) : edge T i = (spanOf T i).start := by
  rw [edge, Nat.min_eq_left (by omega)]

namespace Ruled

variable (hT : Ruled T)
include hT

theorem stop_le_edge (h : i + 1 < T.length) : (spanOf T i).stop ≤ edge T (i + 1) := by
  rw [edge_of_lt h]
  exact (hT.ordered i h).2

theorem edge_lt_succ (h : i + 1 < T.length) : edge T i < edge T (i + 1) := by
  have := hT.stop_le_edge h
  have := (hT.ordered i h).1
  rw [edge_of_lt (by omega)]
  omega

theorem edge_mono (h : i ≤ j) : edge T i ≤ edge T j := by
  induction h with
  | refl => exact Nat.le_refl _
  | @step j _ ih =>
    by_cases hj : j + 1 < T.length
    · exact Nat.le_trans ih (Nat.le_of_lt (hT.edge_lt_succ hj))
    · have hlast : edge T (j + 1) = edge T j := by
        unfold edge
        congr 2
        omega
      exact hlast ▸ ih

theorem edge_lt (h : i < j) (hj : j < T.length) : edge T i < edge T j :=
  Nat.lt_of_lt_of_le (hT.edge_lt_succ (by omega)) (hT.edge_mono h)

theorem edge_le_limit (i : Nat) : edge T i ≤ limit T := by
  have h := hT.edge_mono (Nat.le_add_right i T.length)
  have hlast := hT.forward (T.length - 1)
  have : edge T (i + T.length) = (spanOf T (T.length - 1)).start := by
    unfold edge
    congr 2
    omega
  unfold limit
  omega

theorem stop_le_limit (h : i < T.length) : (spanOf T i).stop ≤ limit T := by
  by_cases hi : i + 1 < T.length
  · exact Nat.le_trans (hT.stop_le_edge hi) (hT.edge_le_limit _)
  · exact Nat.le_of_eq (by rw [limit, show T.length - 1 = i by omega])

theorem edge_inj (hi : i < T.length) (hj : j < T.length) (h : edge T i = edge T j) : i = j := by
  rcases Nat.lt_trichotomy i j with hlt | heq | hlt
  · have := hT.edge_lt hlt hj
    omega
  · exact heq
  · have := hT.edge_lt hlt hi
    omega

end Ruled

/-- The span of the tokens from one index up to another. -/
def across (T : List Token) (i j : Nat) : Span := ⟨edge T i, (spanOf T (j - 1)).stop⟩

theorem Ruled.merge_eq_across (hT : Ruled T) (hij : i < j) (hj : j < T.length) :
    (spanOf T i).merge (spanOf T (j - 1)) = across T i j := by
  have hstart := hT.edge_mono (show i ≤ j - 1 by omega)
  rw [edge_of_lt (by omega), edge_of_lt (by omega)] at hstart
  have hstop : (spanOf T i).stop ≤ (spanOf T (j - 1)).stop := by
    by_cases h : i = j - 1
    · exact Nat.le_of_eq (by rw [← h])
    · have h1 := hT.stop_le_edge (show i + 1 < T.length by omega)
      have h2 := hT.edge_mono (show i + 1 ≤ j - 1 by omega)
      have h3 := hT.forward (j - 1)
      rw [edge_of_lt (show j - 1 < T.length by omega)] at h2
      omega
  rw [across, edge_of_lt (by omega), Span.merge, Nat.min_eq_left hstart, Nat.max_eq_right hstop]

/-! ## Places -/

/-- The place of a span, twice its beginning. A single token that is no identifier counts as standing in front of what
begins with it. -/
def key (T : List Token) (s : Span) : Nat :=
  2 * s.start + if T.any (fun t => decide (t.span = s ∧ t.kind ≠ .identifier)) then 0 else 1

theorem any_token_iff {s : Span} : T.any (fun t => decide (t.span = s ∧ t.kind ≠ .identifier)) = true ↔
    ∃ i, i < T.length ∧ spanOf T i = s ∧ kindOf T i ≠ .identifier := by
  rw [List.any_eq_true]
  constructor
  · rintro ⟨t, ht, h⟩
    obtain ⟨i, hi, rfl⟩ := List.mem_iff_getElem.mp ht
    refine ⟨i, hi, ?_⟩
    simpa [spanOf, kindOf, List.getElem?_eq_getElem hi] using h
  · rintro ⟨i, hi, h⟩
    refine ⟨T[i], List.getElem_mem hi, ?_⟩
    simpa [spanOf, kindOf, List.getElem?_eq_getElem hi] using h

theorem key_other (hi : i < T.length) (hkind : kindOf T i ≠ .identifier) : key T (spanOf T i) = 2 * edge T i := by
  rw [key, if_pos (any_token_iff.mpr ⟨i, hi, rfl, hkind⟩), edge_of_lt hi]
  omega

theorem Ruled.key_identifier (hT : Ruled T) (hi : i < T.length) (hkind : kindOf T i = .identifier) :
    key T (spanOf T i) = 2 * edge T i + 1 := by
  rw [key, if_neg, edge_of_lt hi]
  rw [any_token_iff]
  rintro ⟨k, hk, hspan, hother⟩
  have : k = i := hT.edge_inj hk hi (by rw [edge_of_lt hk, edge_of_lt hi, hspan])
  exact hother (this ▸ hkind)

/-- More than one token. -/
theorem Ruled.key_across (hT : Ruled T) (hij : i + 1 < j) (hj : j < T.length) :
    key T (across T i j) = 2 * edge T i + 1 := by
  rw [key, if_neg, across]
  rw [any_token_iff]
  rintro ⟨k, hk, hspan, -⟩
  have hstart : edge T k = edge T i := by rw [edge_of_lt hk, hspan]; rfl
  have : k = i := hT.edge_inj hk (by omega) hstart
  subst this
  have h1 := hT.stop_le_edge (show k + 1 < T.length by omega)
  have h2 := hT.edge_mono (show k + 1 ≤ j - 1 by omega)
  have h3 := hT.ordered (j - 1) (by omega)
  rw [hspan, across] at h1
  rw [edge_of_lt (show j - 1 < T.length by omega)] at h2
  simp only at h1
  omega

/-- Whether a spot has its place between two edges. Where only its beginning counts it is a single token. -/
def Between (T : List Token) (lo hi : Nat) (x : Spot) : Prop :=
  x.2.start ≤ x.2.stop ∧ x.2.stop ≤ limit T ∧
    match x.1 with
    | .name | .param => 2 * lo < key T x.2 ∧ key T x.2 ≤ 2 * hi
    | .value | .module => lo ≤ x.2.start ∧ x.2.start < x.2.stop ∧ x.2.stop ≤ hi
    | .surplus => lo ≤ x.2.start ∧ x.2.start < hi
    | _ => lo < x.2.start ∧ x.2.start ≤ hi ∧ ∃ i < T.length, x.2 = spanOf T i

/-- The place of a name, whether it was read or is missing. -/
theorem Ruled.between_name (hT : Ruled T) {role : Role} (hrole : role = .name ∨ role = .param) {lo : Nat}
    (hlo : lo < i ∨ lo = i ∧ kindOf T i = .identifier) (hij : i ≤ j) (hj : j < T.length)
    (h : i < j ∨ kindOf T i ≠ .identifier) : Between T (edge T lo) (edge T j) (role, spanOf T i) := by
  have hi : i < T.length := by omega
  have hedge := hT.edge_mono hij
  refine ⟨hT.forward i, hT.stop_le_limit hi, ?_⟩
  suffices 2 * edge T lo < key T (spanOf T i) ∧ key T (spanOf T i) ≤ 2 * edge T j by
    rcases hrole with rfl | rfl <;> exact this
  by_cases hkind : kindOf T i = .identifier
  · have hlt := hT.edge_lt (h.resolve_right (not_not_intro hkind)) hj
    have := hT.edge_mono (show lo ≤ i by omega)
    rw [hT.key_identifier hi hkind]
    omega
  · have := hT.edge_lt (hlo.resolve_right fun h => hkind h.2) hi
    rw [key_other hi hkind]
    omega

/-- The place of what stands behind a token that was read. -/
theorem Ruled.between_start (hT : Ruled T) {role : Role}
    (hrole : role ∉ [Role.name, .param, .value, .module, .surplus]) {lo : Nat} (hlo : lo < i) (hij : i ≤ j)
    (hj : j < T.length) : Between T (edge T lo) (edge T j) (role, spanOf T i) := by
  have hi : i < T.length := by omega
  refine ⟨hT.forward i, hT.stop_le_limit hi, ?_⟩
  have hstart : edge T lo < (spanOf T i).start ∧ (spanOf T i).start ≤ edge T j := by
    rw [← edge_of_lt hi]
    exact ⟨hT.edge_lt hlo hi, hT.edge_mono hij⟩
  cases role <;> first | exact ⟨hstart.1, hstart.2, i, hi, rfl⟩ | exact absurd hrole (by decide)

/-- Some spots lie between two edges, each in a place of its own. -/
structure Placed (T : List Token) (lo hi : Nat) (spots : List Spot) : Prop where
  nodup : spots.Nodup
  between : ∀ x ∈ spots, Between T lo hi x

variable {lo mid hi lo' hi' : Nat} {x y : Spot} {l m : List Spot}

theorem Between.mono (h : Between T lo hi x) (hlo : lo' ≤ lo) (hhi : hi ≤ hi') : Between T lo' hi' x := by
  refine ⟨h.1, h.2.1, ?_⟩
  have h := h.2.2
  rcases x with ⟨role, s⟩
  cases role with
  | member | source | exported | «variable» =>
    obtain ⟨hstart, hstop, htoken⟩ := h
    exact ⟨Nat.lt_of_le_of_lt hlo hstart, Nat.le_trans hstop hhi, htoken⟩
  | _ =>
    simp only at h ⊢
    omega

theorem Between.apart (hx : Between T lo mid x) (hy : Between T mid hi y) : x ≠ y := by
  rintro rfl
  have hx := hx.2.2
  have hy := hy.2.2
  rcases x with ⟨role, s⟩
  cases role <;> simp only at hx hy <;> omega

namespace Placed

theorem nil : Placed T lo hi [] := ⟨.nil, nofun⟩

theorem mono (h : Placed T lo hi l) (hlo : lo' ≤ lo) (hhi : hi ≤ hi') : Placed T lo' hi' l :=
  ⟨h.nodup, fun x hx => (h.between x hx).mono hlo hhi⟩

theorem single (h : Between T lo hi x) : Placed T lo hi [x] :=
  ⟨List.nodup_singleton x, fun _ hy => List.mem_singleton.mp hy ▸ h⟩

theorem append (hl : Placed T lo mid l) (hm : Placed T mid hi m) (h₁ : lo ≤ mid) (h₂ : mid ≤ hi) :
    Placed T lo hi (l ++ m) where
  nodup := by
    refine List.nodup_append.mpr ⟨hl.nodup, hm.nodup, fun x hx y hy => ?_⟩
    exact (hl.between x hx).apart (hm.between y hy)
  between x hx := by
    rcases List.mem_append.mp hx with hx | hx
    · exact (hl.between x hx).mono (Nat.le_refl _) h₂
    · exact (hm.between x hx).mono h₁ (Nat.le_refl _)

theorem sublist (h : Placed T lo hi l) (hs : m.Sublist l) : Placed T lo hi m :=
  ⟨h.nodup.sublist hs, fun x hx => h.between x (hs.subset hx)⟩

theorem cons (hx : Between T lo hi x) (hl : Placed T lo hi l) (hne : x ∉ l) : Placed T lo hi (x :: l) where
  nodup := List.nodup_cons.mpr ⟨hne, hl.nodup⟩
  between y hy := by
    rcases List.mem_cons.mp hy with rfl | hy
    · exact hx
    · exact hl.between y hy

/-- What reaches beyond an edge is not among the values inside. -/
theorem not_mem_value {s : Span} (h : Placed T lo hi l) (hs : s.start < lo ∨ hi < s.stop) : (Role.value, s) ∉ l := by
  intro hmem
  have := (h.between _ hmem).2.2
  simp only at this
  omega

end Placed

end Recheck.Syntax
