import Recheck.Text.Path
import Recheck.Proofs.Data.Dict
import Mathlib.Data.List.Lex
import Mathlib.Data.List.Sort
import Mathlib.Data.Prod.Lex
import Mathlib.Data.String.Basic

/-!
# The order of paths

Paths sort by their steps. `Path.rank` maps a path into a linear order that is there already, lists of pairs
under the lexicographic order, and `le_iff_rank` says that the comparison of paths is the comparison there:
totality and transitivity come from it, and two paths of one rank are spellings of one path.

What the rest of the theory takes from here are the laws of sorted lists: `sort` only permutes, and
`sortDistinct` keeps one spelling of each path.
-/

set_option autoImplicit false

namespace Recheck.Path

/-! ## The order as a pullback -/

/-- Where a step stands: before all names, or among them. -/
def Component.place : Component → Nat ×ₗ String
  | .name s => toLex (3, s)
  | c => toLex (c.rank, "")

theorem Component.place_injective : Function.Injective Component.place := by
  intro a b h
  cases a <;> cases b <;> simp [place, rank] at h ⊢
  exact h

theorem Component.lt_iff_place (a b : Component) : a.lt b = true ↔ a.place < b.place := by
  cases a <;> cases b <;> simp [lt, place, rank, Prod.Lex.toLex_lt_toLex]

/-- The places of the steps of a path. -/
def rank (p : Path) : List (Nat ×ₗ String) := p.components.map Component.place

theorem componentsLt_iff_place : ∀ as bs : List Component,
    componentsLt as bs = true ↔ as.map Component.place < bs.map Component.place
  | _, [] => by simp [componentsLt]
  | [], _ :: _ => by simp [componentsLt]
  | a :: as, b :: bs => by
    rw [componentsLt, Bool.or_eq_true, Bool.and_eq_true, Component.lt_iff_place,
      componentsLt_iff_place as bs, beq_iff_eq, List.map_cons, List.map_cons, List.cons_lt_cons_iff]
    refine or_congr_right (and_congr_left fun _ => ?_)
    exact ⟨fun h => h ▸ rfl, fun h => Component.place_injective h⟩

theorem le_iff_rank (a b : Path) : le a b = true ↔ a.rank ≤ b.rank := by
  unfold le lt
  rw [Bool.not_eq_true', ← Bool.not_eq_true, componentsLt_iff_place, not_lt]
  exact Iff.rfl

theorem beq_iff_rank (a b : Path) : (a == b) = true ↔ a.rank = b.rank := by
  rw [beq_iff]
  exact (List.map_injective_iff.mpr Component.place_injective).eq_iff.symm

/-! ## Sorting -/

/-- The order as a relation, in the form that sorting asks for. -/
def Before (a b : Path) : Prop := le a b = true

instance : DecidableRel Before := fun a b => inferInstanceAs (Decidable (le a b = true))

instance : IsTrans Path Before where
  trans _ _ _ h k := (le_iff_rank ..).mpr (le_trans ((le_iff_rank ..).mp h) ((le_iff_rank ..).mp k))

instance : Std.Total Before where
  total a b := (le_total a.rank b.rank).imp (le_iff_rank ..).mpr (le_iff_rank ..).mpr

theorem insertInOrder_eq (p : Path) (ps : List Path) :
    insertInOrder p ps = ps.orderedInsert Before p := by
  induction ps with
  | nil => rfl
  | cons q rest ih =>
    rw [insertInOrder, List.orderedInsert_cons, ih]
    rfl

theorem sort_eq (ps : List Path) : sort ps = ps.insertionSort Before := by
  induction ps with
  | nil => rfl
  | cons p rest ih =>
    rw [List.insertionSort_cons, ← ih, ← insertInOrder_eq]
    rfl

theorem sort_perm (ps : List Path) : (sort ps).Perm ps := by
  rw [sort_eq]
  exact List.perm_insertionSort Before ps

theorem sort_pairwise (ps : List Path) : (sort ps).Pairwise Before := by
  rw [sort_eq]
  exact List.pairwise_insertionSort Before ps

@[simp] theorem contains_sort (ps : List Path) (p : Path) : (sort ps).contains p = ps.contains p := by
  rw [Bool.eq_iff_iff, List.contains_iff_exists_mem_beq, List.contains_iff_exists_mem_beq]
  exact exists_congr fun q => and_congr_left fun _ => (sort_perm ps).mem_iff

/-! ## One spelling of each path -/

theorem dropRepeats_sublist : ∀ ps : List Path, (dropRepeats ps).Sublist ps
  | [] => List.Sublist.refl _
  | p :: rest =>
    List.Sublist.cons_cons p ((List.dropWhile_sublist _).trans (dropRepeats_sublist rest))

/-- Dropping the members that repeat the one in front loses no path: what `dropWhile` takes away is a
spelling of `p`, and `p` stays. -/
theorem contains_dropRepeats (ps : List Path) (q : Path) :
    (dropRepeats ps).contains q = ps.contains q := by
  induction ps with
  | nil => rfl
  | cons p rest ih =>
    rw [dropRepeats, List.contains_cons, List.contains_cons, ← ih]
    cases hq : q == p with
    | true => rfl
    | false =>
      rw [Bool.false_or, Bool.false_or]
      generalize dropRepeats rest = xs
      induction xs with
      | nil => rfl
      | cons x xs ihx =>
        rw [List.dropWhile_cons]
        split
        · rename_i hx
          rw [ihx, List.contains_cons, BEq.neq_of_neq_of_beq hq (BEq.symm hx), Bool.false_or]
        · rfl

/-- In a sorted list the spellings of a path stand side by side, so the one in front is the only one that
stays. -/
theorem dropRepeats_apart {ps : List Path} (h : ps.Pairwise Before) : Apart (dropRepeats ps) := by
  induction ps with
  | nil => exact List.Pairwise.nil
  | cons p rest ih =>
    obtain ⟨hp, hrest⟩ := List.pairwise_cons.mp h
    rw [dropRepeats, apart_cons]
    refine ⟨?_, (ih hrest).sublist (List.dropWhile_sublist _)⟩
    have hsub := dropRepeats_sublist rest
    have hsorted : (dropRepeats rest).Pairwise Before := hrest.sublist hsub
    have hfirst : ∀ x ∈ dropRepeats rest, Before p x := fun x hx => hp x (hsub.mem hx)
    generalize dropRepeats rest = xs at hsorted hfirst
    induction xs with
    | nil => rfl
    | cons x xs ihx =>
      obtain ⟨hx, hxs⟩ := List.pairwise_cons.mp hsorted
      rw [List.dropWhile_cons]
      split
      · exact ihx hxs fun y hy => hfirst y (List.mem_cons_of_mem _ hy)
      · rename_i hxp
        rw [List.contains_eq_any_beq, List.any_eq_false]
        intro y hy hpy
        have hpx : p.rank ≤ x.rank := (le_iff_rank ..).mp (hfirst x List.mem_cons_self)
        have hxy : x.rank ≤ y.rank := by
          rcases List.mem_cons.mp hy with rfl | hy
          · exact le_refl _
          · exact (le_iff_rank ..).mp (hx y hy)
        -- Between two spellings of `p` there is room for further ones only.
        rw [beq_iff_rank] at hpy
        rw [beq_iff_rank] at hxp
        exact hxp (le_antisymm (hpy ▸ hxy) hpx)

theorem sortDistinct_apart (ps : List Path) : Apart (sortDistinct ps) :=
  dropRepeats_apart (sort_pairwise ps)

@[simp] theorem contains_sortDistinct (ps : List Path) (p : Path) :
    (sortDistinct ps).contains p = ps.contains p := by
  unfold sortDistinct
  rw [contains_dropRepeats, contains_sort]

theorem mem_of_mem_sortDistinct {ps : List Path} {p : Path} (h : p ∈ sortDistinct ps) : p ∈ ps :=
  (sort_perm ps).mem_iff.mp ((dropRepeats_sublist _).mem h)

/-- In a sorted list in which no path stands twice, the ranks ascend. -/
theorem ascends_of_apart {ps : List Path} (hsorted : ps.Pairwise Before) (h : Apart ps) :
    (ps.map rank).Pairwise (· < ·) := by
  refine List.pairwise_map.mpr ((hsorted.and h).imp fun {a b} ⟨hab, hne⟩ => ?_)
  refine lt_of_le_of_ne ((le_iff_rank ..).mp hab) fun he => ?_
  rw [(beq_iff_rank ..).mpr he] at hne
  exact nomatch hne

theorem sortDistinct_ascends (ps : List Path) : ((sortDistinct ps).map rank).Pairwise (· < ·) :=
  ascends_of_apart ((sort_pairwise ps).sublist (dropRepeats_sublist _)) (sortDistinct_apart ps)

/-- Sorting alone is enough where no path stands twice. -/
theorem sort_ascends {ps : List Path} (h : Apart ps) : ((sort ps).map rank).Pairwise (· < ·) :=
  ascends_of_apart (sort_pairwise ps) ((sort_perm ps).symm.pairwise h fun hab => BEq.symm_false hab)

theorem beq_of_map_rank : ∀ {ps qs : List Path}, ps.map rank = qs.map rank → (ps == qs) = true
  | [], [], _ => rfl
  | p :: ps, q :: qs, h => by
    obtain ⟨hpq, hrest⟩ := List.cons_eq_cons.mp h
    rw [List.cons_beq_cons, (beq_iff_rank ..).mpr hpq, beq_of_map_rank hrest]
    rfl

/-- Lists with the same paths are the same once sorted, spellings apart. -/
theorem sortDistinct_beq {ps qs : List Path} (h : ∀ p, ps.contains p = qs.contains p) :
    (sortDistinct ps == sortDistinct qs) = true := by
  have hranks : ∀ {xs ys : List Path}, (∀ p, xs.contains p = ys.contains p) →
      ∀ r ∈ xs.map rank, r ∈ ys.map rank := by
    intro xs ys h r hr
    obtain ⟨p, hp, rfl⟩ := List.mem_map.mp hr
    have hys : ys.contains p = true := by
      rw [← h]; exact List.contains_iff_exists_mem_beq.mpr ⟨p, hp, BEq.rfl⟩
    obtain ⟨q, hq, hpq⟩ := List.contains_iff_exists_mem_beq.mp hys
    exact List.mem_map.mpr ⟨q, hq, ((beq_iff_rank ..).mp hpq).symm⟩
  have hsorted : ∀ p, (sortDistinct ps).contains p = (sortDistinct qs).contains p := fun p => by
    rw [contains_sortDistinct, contains_sortDistinct, h]
  exact beq_of_map_rank <| (sortDistinct_ascends ps).eq_of_mem_iff (sortDistinct_ascends qs) fun {r} =>
    ⟨hranks hsorted r, hranks (fun p => (hsorted p).symm) r⟩

end Recheck.Path
