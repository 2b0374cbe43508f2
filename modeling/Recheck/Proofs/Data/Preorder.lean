import Mathlib.Data.List.Basic
import Mathlib.Logic.Relation

/-!
# Depth-first preorder

`Visits next seen todo order` says what a depth-first search enters, and in which order, when it has seen some nodes and is
sent to others one after the other. All branches share what was seen, so a node that is still in progress, or that a branch
before has been to, is passed over. What is passed over hides nothing: the search enters every node once
(`Visits.nodup`), and from nothing seen just those that can be reached (`Visits.mem_iff`).
-/

set_option autoImplicit false

namespace Recheck

/-- A search that has seen some nodes enters others in this order. Afterwards it has seen these as well, the last first. -/
inductive Visits {α : Type} (next : α → List α) : List α → List α → List α → Prop where
  | done {seen : List α} : Visits next seen [] []
  | skip {seen todo order : List α} {a : α} : a ∈ seen → Visits next seen todo order → Visits next seen (a :: todo) order
  | enter {seen todo below rest : List α} {a : α} : a ∉ seen → Visits next (a :: seen) (next a) below →
      Visits next (below.reverse ++ a :: seen) todo rest → Visits next seen (a :: todo) (a :: (below ++ rest))

namespace Visits

variable {α : Type} {next : α → List α} {seen todo order : List α}

/-- A search enters what it has not seen, and that once. -/
theorem nodup_disjoint (h : Visits next seen todo order) : order.Nodup ∧ order.Disjoint seen := by
  induction h with
  | done => simp
  | skip _ _ ih => exact ih
  | enter hnew _ _ hbelow hrest =>
    obtain ⟨hbelow, hapart⟩ := hbelow
    obtain ⟨hrest, hlater⟩ := hrest
    simp only [List.disjoint_left, List.mem_append, List.mem_reverse, List.mem_cons, not_or] at hapart hlater ⊢
    refine ⟨List.nodup_cons.mpr ⟨?_, List.nodup_append.mpr ⟨hbelow, hrest, ?_⟩⟩, ?_⟩
    · rintro ha
      rcases List.mem_append.mp ha with ha | ha
      · exact (hapart ha).1 rfl
      · exact (hlater ha).2.1 rfl
    · rintro x hx y hy rfl
      exact (hlater hy).1 hx
    · rintro x (rfl | hx | hx)
      · exact hnew
      · exact (hapart hx).2
      · exact (hlater hx).2.2

theorem nodup (h : Visits next seen todo order) : order.Nodup := h.nodup_disjoint.1

/-- Where the search was sent it has been, and from where it has been it went on. -/
theorem closed (h : Visits next seen todo order) :
    (∀ a ∈ todo, a ∈ order ∨ a ∈ seen) ∧ ∀ a ∈ order, ∀ c ∈ next a, c ∈ order ∨ c ∈ seen := by
  induction h with
  | done => exact ⟨nofun, nofun⟩
  | skip hseen _ ih => exact ⟨List.forall_mem_cons.mpr ⟨.inr hseen, ih.1⟩, ih.2⟩
  | @enter seen todo below rest a _ _ _ hbelow hrest =>
    have deeper {c : α} (hc : c ∈ below ∨ c ∈ a :: seen) : c ∈ a :: (below ++ rest) ∨ c ∈ seen := by
      rcases hc with hc | hc
      · exact .inl (List.mem_cons_of_mem _ (List.mem_append_left _ hc))
      · exact (List.mem_cons.mp hc).imp_left fun h : c = a => h ▸ List.mem_cons_self
    have later {c : α} (hc : c ∈ rest ∨ c ∈ below.reverse ++ a :: seen) : c ∈ a :: (below ++ rest) ∨ c ∈ seen := by
      rcases hc with hc | hc
      · exact .inl (List.mem_cons_of_mem _ (List.mem_append_right _ hc))
      · exact deeper ((List.mem_append.mp hc).imp_left List.mem_reverse.mp)
    refine ⟨List.forall_mem_cons.mpr ⟨.inl List.mem_cons_self, fun c hc => later (hrest.1 c hc)⟩, ?_⟩
    intro c hc d hd
    rcases List.mem_cons.mp hc with rfl | hc
    · exact deeper (hbelow.1 d hd)
    · rcases List.mem_append.mp hc with hc | hc
      · exact deeper (hbelow.2 c hc d hd)
      · exact later (hrest.2 c hc d hd)

/-- The search only goes where the graph leads. -/
theorem reaches (h : Visits next seen todo order) :
    ∀ d ∈ order, ∃ a ∈ todo, Relation.ReflTransGen (fun a c => c ∈ next a) a d := by
  induction h with
  | done => exact nofun
  | skip _ _ ih =>
    intro d hd
    obtain ⟨a, ha, hreach⟩ := ih d hd
    exact ⟨a, List.mem_cons_of_mem _ ha, hreach⟩
  | @enter seen todo below rest a _ _ _ hbelow hrest =>
    intro d hd
    rcases List.mem_cons.mp hd with rfl | hd
    · exact ⟨d, List.mem_cons_self, .refl⟩
    · rcases List.mem_append.mp hd with hd | hd
      · obtain ⟨c, hc, hreach⟩ := hbelow d hd
        exact ⟨a, List.mem_cons_self, .head hc hreach⟩
      · obtain ⟨c, hc, hreach⟩ := hrest d hd
        exact ⟨c, List.mem_cons_of_mem _ hc, hreach⟩

/-- Sent to one node, a search that has seen nothing enters all that can be reached from there. -/
theorem mem_iff {a d : α} (h : Visits next [] [a] order) :
    d ∈ order ↔ Relation.ReflTransGen (fun a c => c ∈ next a) a d := by
  refine ⟨fun hd => ?_, fun hreach => ?_⟩
  · obtain ⟨c, hc, hreach⟩ := h.reaches d hd
    obtain rfl := List.mem_singleton.mp hc
    exact hreach
  · induction hreach with
    | refl => exact (h.closed.1 a List.mem_cons_self).resolve_right List.not_mem_nil
    | tail _ hstep ih => exact (h.closed.2 _ ih _ hstep).resolve_right List.not_mem_nil

/-! ## Searches come to an end -/

variable [DecidableEq α]

/-- How many nodes are still to be seen. -/
def unseen (nodes seen : List α) : Nat := nodes.countP (· ∉ seen)

theorem unseen_le {nodes seen' : List α} (h : ∀ a ∈ seen, a ∈ seen') : unseen nodes seen' ≤ unseen nodes seen :=
  List.countP_mono_left fun a _ ha => by
    simp only [decide_eq_true_eq] at ha ⊢
    exact fun hseen => ha (h a hseen)

theorem unseen_lt {nodes : List α} {a : α} (hmem : a ∈ nodes) (hnew : a ∉ seen) :
    unseen nodes (a :: seen) < unseen nodes seen := by
  obtain ⟨front, back, rfl⟩ := List.append_of_mem hmem
  have hfront : unseen front (a :: seen) ≤ unseen front seen := unseen_le fun _ => List.mem_cons_of_mem a
  have hback : unseen back (a :: seen) ≤ unseen back seen := unseen_le fun _ => List.mem_cons_of_mem a
  simp only [unseen, List.countP_append, List.countP_cons, List.mem_cons_self, not_true_eq_false, decide_false,
    Bool.false_eq_true, if_false, hnew, not_false_eq_true, decide_true, if_true] at hfront hback ⊢
  omega

/-- If finitely many nodes lead on, every search comes to its end. -/
theorem exists_order {nodes : List α} (hnodes : ∀ a, next a ≠ [] → a ∈ nodes) (seen todo : List α) :
    ∃ order, Visits next seen todo order := by
  suffices ∀ n seen todo, unseen nodes seen ≤ n → ∃ order, Visits next seen todo order from this _ seen todo (Nat.le_refl _)
  intro n
  induction n using Nat.strongRecOn with
  | _ n ih =>
    intro seen todo hn
    induction todo generalizing seen with
    | nil => exact ⟨[], .done⟩
    | cons a todo ihtodo =>
      by_cases hseen : a ∈ seen
      · obtain ⟨order, h⟩ := ihtodo seen hn
        exact ⟨order, .skip hseen h⟩
      · obtain ⟨below, hbelow⟩ : ∃ below, Visits next (a :: seen) (next a) below := by
          by_cases hleaf : next a = []
          · rw [hleaf]
            exact ⟨[], .done⟩
          · exact ih _ (Nat.lt_of_lt_of_le (unseen_lt (hnodes a hleaf) hseen) hn) _ _ (Nat.le_refl _)
        obtain ⟨rest, hrest⟩ := ihtodo (below.reverse ++ a :: seen)
          (Nat.le_trans (unseen_le fun c hc => List.mem_append_right _ (List.mem_cons_of_mem _ hc)) hn)
        exact ⟨_, .enter hseen hbelow hrest⟩

end Visits

end Recheck
