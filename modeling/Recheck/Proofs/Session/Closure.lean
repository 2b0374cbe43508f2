import Mathlib.Logic.Relation
import Recheck.Session.Store
import Recheck.Proofs.Text.PathOrder

/-!
# What a change can reach

`Store.affected` follows edges backwards with a work list. Here the edges are a relation, `Store.Refers`, and
following them is another one, `Leads`; `contains_affected_iff` says that the work list finds exactly the paths
that lead to a seed.

`Search` is a moment of the work, and `Search.Step` takes one path from the queue. What a step keeps, a run keeps: what is
known stays known and leads to the beginning, and the dependents of what was reached are known. When nothing waits any
more, the paths that were reached are those that lead to a seed (`contains_seen_iff`).

The queue grows while it is worked off, and the graph may have cycles, so the bound on the steps is an argument of its own.
`Store.pending` counts the edges whose end was not reached yet: a path that is reached for the first time takes its edges
out of that count and puts at most as many paths into the queue, so the queue and the count together only shrink
(`length_dependents_le`, `Search.Step.load_lt`).
-/

set_option autoImplicit false

namespace Recheck

open Relation (ReflTransGen)

/-- A path leads to another one when edges of `R` connect it with a spelling of that one. -/
inductive Leads (R : Path → Path → Prop) : Path → Path → Prop where
  | here {a b : Path} : (a == b) = true → Leads R a b
  | step {a b c : Path} : R a b → Leads R b c → Leads R a c

namespace Leads

variable {R : Path → Path → Prop} {a b c : Path}

theorem congr_right (h : Leads R a b) (hbc : (b == c) = true) : Leads R a c := by
  induction h with
  | here hab => exact here (BEq.trans hab hbc)
  | step hr _ ih => exact step hr (ih hbc)

/-- Edges that tell no spellings apart where they begin can be followed from any spelling. -/
theorem congr_left (hR : ∀ {a b c : Path}, (a == b) = true → R b c → R a c) (hab : (a == b) = true)
    (h : Leads R b c) : Leads R a c := by
  cases h with
  | here hbc => exact here (BEq.trans hab hbc)
  | step hr hrest => exact step (hR hab hr) hrest

theorem trans (hR : ∀ {a b c : Path}, (a == b) = true → R b c → R a c) (h : Leads R a b) (hbc : Leads R b c) :
    Leads R a c := by
  induction h with
  | here hab => exact hbc.congr_left hR hab
  | step hr _ ih => exact step hr (ih hbc)

/-- A set of paths that holds, with the end of an edge, its beginning too, holds all that leads into it. -/
theorem mem_of_closed {p : Path → Prop} (hp : ∀ {a b : Path}, (a == b) = true → p b → p a)
    (hstep : ∀ {a b : Path}, R a b → p b → p a) (h : Leads R a b) (hb : p b) : p a := by
  induction h with
  | here hab => exact hp hab hb
  | step hr _ ih => exact hstep hr (ih hb)

end Leads

namespace Store

variable {s : Store} {a b p q : Path}

/-- The record of the first path lists the second one. -/
def Refers (s : Store) (a b : Path) : Prop :=
  ∃ e ∈ s.records.entries, (e.1 == a) = true ∧ e.2.dependencies.contains b = true

theorem Refers.congr_left (hab : (a == b) = true) (h : s.Refers b p) : s.Refers a p := by
  obtain ⟨e, he, hb, hp⟩ := h
  exact ⟨e, he, BEq.trans hb (BEq.symm hab), hp⟩

theorem Refers.congr_right (hqp : (q == b) = true) (h : s.Refers p q) : s.Refers p b := by
  obtain ⟨e, he, hp, hq⟩ := h
  exact ⟨e, he, hp, by rwa [← List.contains_congr hqp]⟩

theorem dependents_eq (s : Store) (p : Path) :
    s.dependents p = (s.records.entries.filter fun e => e.2.dependencies.contains p).map (·.1) := rfl

theorem contains_dependents_iff : (s.dependents p).contains a = true ↔ s.Refers a p := by
  unfold Refers
  rw [dependents_eq, List.contains_iff_exists_mem_beq]
  constructor
  · rintro ⟨q, hq, haq⟩
    obtain ⟨e, he, rfl⟩ := List.mem_map.mp hq
    obtain ⟨hm, hd⟩ := List.mem_filter.mp he
    exact ⟨e, hm, BEq.symm haq, hd⟩
  · rintro ⟨e, hm, hea, hd⟩
    exact ⟨e.1, List.mem_map_of_mem (List.mem_filter.mpr ⟨hm, hd⟩), BEq.symm hea⟩

/-! ## The bound -/

/-- The edges whose end is not among the given paths. -/
def pending (s : Store) (seen : List Path) : Nat :=
  (s.records.entries.flatMap fun e => e.2.dependencies.filter fun d => !seen.contains d).length

theorem pending_nil (s : Store) : s.pending [] = s.edgeCount := by
  unfold pending edgeCount Dict.values
  rw [List.flatMap_map]
  refine congrArg List.length (congrArg (List.flatMap · s.records.entries) (funext fun e => ?_))
  exact List.filter_eq_self.mpr (by simp)

/-- Of the dependencies of one record, those that are new shrink when a new path is reached, and by one at
least if the record refers to it. -/
theorem length_newDependencies_le {seen : List Path} (hp : seen.contains p = false) (deps : List Path) :
    (if deps.contains p then 1 else 0) + (deps.filter fun d => !(seen ++ [p]).contains d).length ≤
      (deps.filter fun d => !seen.contains d).length := by
  have hsplit : (deps.filter fun d => !(seen ++ [p]).contains d) =
      (deps.filter fun d => !seen.contains d).filter fun d => !(d == p) := by
    rw [List.filter_filter]
    refine List.filter_congr fun d _ => ?_
    simp [List.contains_append, Bool.and_comm]
  rw [hsplit]
  split
  · rename_i hd
    obtain ⟨d, hd, hpd⟩ := List.contains_iff_exists_mem_beq.mp hd
    have hmem : d ∈ deps.filter fun d => !seen.contains d := by
      rw [List.mem_filter, ← List.contains_congr hpd, hp]
      exact ⟨hd, rfl⟩
    have hlt := (List.length_filter_lt_length_iff_exists (p := fun d => !(d == p))).mpr
      ⟨d, hmem, by simp [BEq.symm hpd]⟩
    omega
  · rw [Nat.zero_add]
    exact List.length_filter_le ..

theorem length_dependents_le {seen : List Path} (hp : seen.contains p = false) (s : Store) :
    (s.dependents p).length + s.pending (seen ++ [p]) ≤ s.pending seen := by
  unfold pending
  rw [dependents_eq, List.length_map]
  induction s.records.entries with
  | nil => simp
  | cons e es ih =>
    obtain ⟨path, r⟩ := e
    have hr := length_newDependencies_le hp r.dependencies
    simp only [List.filter_cons, List.flatMap_cons, List.length_append]
    split at hr
    · rename_i hd
      rw [if_pos hd, List.length_cons]
      omega
    · rename_i hd
      rw [if_neg hd]
      omega

/-! ## One step of the search -/

/-- A moment of the search: the paths that wait, and those that were reached. -/
structure Search where
  queue : List Path
  seen : List Path

namespace Search

/-- One path is taken from the queue. Its dependents enter the queue when it is reached for the first time. -/
inductive Step (s : Store) : Search → Search → Prop where
  | again {path : Path} {queue seen : List Path} : seen.contains path = true →
      Step s ⟨path :: queue, seen⟩ ⟨queue, seen⟩
  | reached {path : Path} {queue seen : List Path} : seen.contains path = false →
      Step s ⟨path :: queue, seen⟩ ⟨queue ++ s.dependents path, seen ++ [path]⟩

/-- What is left to do at most: the paths that wait, and the edges that may still bring paths into the queue. -/
def load (s : Store) (w : Search) : Nat := w.queue.length + s.pending w.seen

/-- The search has come across a path. -/
def Knows (w : Search) (p : Path) : Prop := w.seen.contains p = true ∨ w.queue.contains p = true

/-- The search has come across the dependents of all that was reached. -/
def Covers (s : Store) (w : Search) : Prop := ∀ a b, w.seen.contains b = true → s.Refers a b → w.Knows a

variable {v w : Search} {path : Path} {queue seen : List Path}

theorem knows_cons : Knows ⟨path :: queue, seen⟩ a ↔ (a == path) = true ∨ Knows ⟨queue, seen⟩ a := by
  unfold Knows
  rw [List.contains_cons, Bool.or_eq_true]
  exact or_left_comm

/-- A path that is reached for the first time stays known, and only its dependents come in. -/
theorem knows_reached : Knows ⟨queue ++ s.dependents path, seen ++ [path]⟩ a ↔
    Knows ⟨path :: queue, seen⟩ a ∨ s.Refers a path := by
  rw [knows_cons]
  unfold Knows
  rw [List.contains_append, List.contains_append, Bool.or_eq_true, Bool.or_eq_true, contains_dependents_iff,
    List.contains_cons, List.contains_nil, Bool.or_false]
  tauto

theorem Step.load_lt (h : Step s v w) : w.load s < v.load s := by
  cases h with
  | again => simp [load]
  | reached hpath =>
    -- The edges of the path leave the count of `pending` as its dependents enter the queue.
    have hbound := length_dependents_le hpath s
    simp only [load, List.length_append, List.length_cons]
    omega

theorem Step.knows (h : Step s v w) (ha : v.Knows a) : w.Knows a := by
  cases h with
  | again hpath =>
    rcases knows_cons.mp ha with hsame | ha
    · exact .inl ((List.contains_congr hsame).trans hpath)
    · exact ha
  | reached => exact knows_reached.mpr (.inl ha)

/-- Nothing comes in that does not lead to what was known before. -/
theorem Step.leads (h : Step s v w) (ha : w.Knows a) : ∃ b, v.Knows b ∧ Leads s.Refers a b := by
  cases h with
  | again => exact ⟨a, knows_cons.mpr (.inr ha), .here BEq.rfl⟩
  | @reached path =>
    rcases knows_reached.mp ha with ha | hrefers
    · exact ⟨a, ha, .here BEq.rfl⟩
    · exact ⟨path, knows_cons.mpr (.inl BEq.rfl), .step hrefers (.here BEq.rfl)⟩

theorem Step.covers (h : Step s v w) (hv : v.Covers s) : w.Covers s := by
  intro a b hb hrefers
  have hkept (hseen : v.seen.contains b = true) : w.Knows a := h.knows (hv a b hseen hrefers)
  cases h with
  | again => exact hkept hb
  | reached =>
    rw [List.contains_append, Bool.or_eq_true] at hb
    rcases hb with hb | hb
    · exact hkept hb
    · exact knows_reached.mpr (.inr (hrefers.congr_right (by simpa using hb)))

theorem Step.apart (h : Step s v w) (hv : Apart v.seen) : Apart w.seen := by
  cases h with
  | again => exact hv
  | reached hpath => exact hv.append_singleton hpath

/-! ## Runs of the search -/

theorem knows_of_run (h : ReflTransGen (Step s) v w) (ha : v.Knows a) : w.Knows a := by
  induction h with
  | refl => exact ha
  | tail _ hstep ih => exact hstep.knows ih

theorem leads_of_run (h : ReflTransGen (Step s) v w) (ha : w.Knows a) : ∃ b, v.Knows b ∧ Leads s.Refers a b := by
  induction h generalizing a with
  | refl => exact ⟨a, ha, .here BEq.rfl⟩
  | tail _ hstep ih =>
    obtain ⟨b, hb, hab⟩ := hstep.leads ha
    obtain ⟨c, hc, hbc⟩ := ih hb
    exact ⟨c, hc, hab.trans Refers.congr_left hbc⟩

theorem covers_of_run (h : ReflTransGen (Step s) v w) (hv : v.Covers s) : w.Covers s := by
  induction h with
  | refl => exact hv
  | tail _ hstep ih => exact hstep.covers ih

theorem apart_of_run (h : ReflTransGen (Step s) v w) (hv : Apart v.seen) : Apart w.seen := by
  induction h with
  | refl => exact hv
  | tail _ hstep ih => exact hstep.apart ih

/-- With steps enough for its load, a search ends where `reach` says. -/
theorem runs_to_reach : ∀ {n : Nat} {queue seen : List Path}, load s ⟨queue, seen⟩ ≤ n →
    ReflTransGen (Step s) ⟨queue, seen⟩ ⟨[], s.reach n queue seen⟩
  | n, [], seen, _ => by
    have hstop : s.reach n [] seen = seen := by cases n <;> rfl
    rw [hstop]
  | 0, _ :: _, _, hn => by rw [load, List.length_cons] at hn; omega
  | n + 1, path :: queue, seen, hn => by
    rw [reach]
    split
    · rename_i hpath
      have hstep : Step s ⟨path :: queue, seen⟩ ⟨queue, seen⟩ := .again hpath
      exact .head hstep (runs_to_reach (Nat.le_of_lt_succ (hstep.load_lt.trans_le hn)))
    · rename_i hpath
      have hstep : Step s ⟨path :: queue, seen⟩ ⟨queue ++ s.dependents path, seen ++ [path]⟩ :=
        .reached (Bool.eq_false_iff.mpr hpath)
      exact .head hstep (runs_to_reach (Nat.le_of_lt_succ (hstep.load_lt.trans_le hn)))

/-- Where nothing waits any more, what was reached are the paths that lead to the first queue. -/
theorem contains_seen_iff (h : ReflTransGen (Step s) ⟨queue, []⟩ ⟨[], seen⟩) :
    seen.contains p = true ↔ ∃ q ∈ queue, Leads s.Refers p q := by
  have hcovers : Covers s ⟨[], seen⟩ := covers_of_run h fun _ _ hb => by simp at hb
  have hall (a : Path) (ha : Knows ⟨[], seen⟩ a) : seen.contains a = true := ha.resolve_right (by simp)
  constructor
  · intro hp
    obtain ⟨b, hb, hl⟩ := leads_of_run h (.inl hp)
    obtain ⟨q, hq, hbq⟩ := List.contains_iff_exists_mem_beq.mp (hb.resolve_left (by simp))
    exact ⟨q, hq, hl.congr_right hbq⟩
  · rintro ⟨q, hq, hl⟩
    have hseed : Knows ⟨queue, []⟩ q := .inr (List.contains_iff_exists_mem_beq.mpr ⟨q, hq, BEq.rfl⟩)
    refine hl.mem_of_closed (p := fun a => seen.contains a = true) ?_ ?_ (hall q (knows_of_run h hseed))
    · intro a b hab hb
      exact (List.contains_congr hab).trans hb
    · intro a b hrefers hb
      exact hall a (hcovers a b hb hrefers)

end Search

/-! ## The affected files -/

/-- The affected files are what was reached when nothing waits any more, in order. -/
theorem exists_run_affected (s : Store) (seed : List Path) :
    ∃ seen, ReflTransGen (Search.Step s) ⟨seed, []⟩ ⟨[], seen⟩ ∧ s.affected seed = Path.sort seen := by
  refine ⟨_, Search.runs_to_reach ?_, rfl⟩
  have hload : Search.load s ⟨seed, []⟩ = seed.length + s.edgeCount := congrArg (seed.length + ·) s.pending_nil
  omega

/-- **The work list finds what leads to a seed, and nothing else.** -/
theorem contains_affected_iff (s : Store) (seed : List Path) (p : Path) :
    (s.affected seed).contains p = true ↔ ∃ q ∈ seed, Leads s.Refers p q := by
  obtain ⟨seen, hrun, haffected⟩ := exists_run_affected s seed
  rw [haffected, Path.contains_sort]
  exact Search.contains_seen_iff hrun

end Store

end Recheck
