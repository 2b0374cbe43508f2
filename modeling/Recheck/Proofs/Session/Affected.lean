import Mathlib.Data.Set.Defs
import Mathlib.Order.Bounds.Defs
import Recheck.Proofs.Session.Closure

/-!
# The least set of affected files

`Store.reach` counts its steps down from a number that is known in advance. A `Search` goes on for as long as paths wait,
with no number at all. It gets lighter with every step, so it ends (`wellFounded_step`); there is one way to go on, so it
ends alike from wherever a run has come to (`runs_on`). What it ends with is the least set of paths that holds the seed and,
with a path, its dependents (`isLeast_affected`).
-/

set_option autoImplicit false

namespace Recheck.Store

open Relation (ReflTransGen)

variable {s : Store}

namespace Search

variable {v w : Search} {seen : List Path}

theorem wellFounded_step (s : Store) : WellFounded fun w v => Step s v w :=
  Subrelation.wf Step.load_lt (InvImage.wf (load s) Nat.lt_wfRel.wf)

/-- The path in front decides what happens. -/
theorem rightUnique_step (s : Store) : Relator.RightUnique (Step s) := by
  intro v w x hw hx
  cases hw with
  | again hpath =>
    cases hx with
    | again => rfl
    | reached hnew => exact nomatch hpath.symm.trans hnew
  | reached hnew =>
    cases hx with
    | again hpath => exact nomatch hpath.symm.trans hnew
    | reached => rfl

/-- From wherever a run has come to, it goes on to the end that the beginning has. -/
theorem runs_on (hend : ReflTransGen (Step s) v ⟨[], seen⟩) (hw : ReflTransGen (Step s) v w) :
    ReflTransGen (Step s) w ⟨[], seen⟩ := by
  rcases ReflTransGen.total_of_right_unique (rightUnique_step s) hw hend with h | h
  · exact h
  · -- A search in which nothing waits takes no step, so the run has come to its end.
    rcases h.cases_head with rfl | ⟨x, hstep, -⟩
    · exact .refl
    · exact nomatch hstep

end Search

/-- A set of paths that holds the seed and, with a path, its dependents. It tells no spellings apart. -/
structure ClosedOver (s : Store) (seed : List Path) (paths : Set Path) : Prop where
  of_beq {a b : Path} : (a == b) = true → b ∈ paths → a ∈ paths
  seed : ∀ q ∈ seed, q ∈ paths
  dependent {a b : Path} : s.Refers a b → b ∈ paths → a ∈ paths

theorem isLeast_affected (s : Store) (seed : List Path) :
    IsLeast {paths | s.ClosedOver seed paths} {p | (s.affected seed).contains p = true} := by
  constructor
  · refine ⟨fun hab hb => ?_, fun q hq => ?_, fun hab hb => ?_⟩
    · exact (List.contains_congr hab).trans hb
    · exact (contains_affected_iff s seed q).mpr ⟨q, hq, .here BEq.rfl⟩
    · obtain ⟨q, hq, hl⟩ := (contains_affected_iff s seed _).mp hb
      exact (contains_affected_iff s seed _).mpr ⟨q, hq, .step hab hl⟩
  · intro paths hpaths p hp
    obtain ⟨q, hq, hl⟩ := (contains_affected_iff s seed p).mp hp
    exact hl.mem_of_closed (p := (· ∈ paths)) hpaths.of_beq hpaths.dependent (hpaths.seed q hq)

/-- **The search for affected files ends, and finds the least set of paths that holds the seed and all dependents of its
paths, that is the paths that lead to a seed. They are in order, and none of them is there twice.** -/
theorem affected_least (s : Store) (seed : List Path) :
    (WellFounded fun w v => Search.Step s v w) ∧
    (∀ w, ReflTransGen (Search.Step s) ⟨seed, []⟩ w →
      ∃ seen, ReflTransGen (Search.Step s) w ⟨[], seen⟩ ∧ s.affected seed = Path.sort seen) ∧
    (∀ p, (s.affected seed).contains p = true ↔ ∃ q ∈ seed, Leads s.Refers p q) ∧
    IsLeast {paths | s.ClosedOver seed paths} {p | (s.affected seed).contains p = true} ∧
    ((s.affected seed).map Path.rank).Pairwise (· < ·) := by
  obtain ⟨seen, hrun, haffected⟩ := exists_run_affected s seed
  have hascends : ((s.affected seed).map Path.rank).Pairwise (· < ·) := by
    rw [haffected]
    exact Path.sort_ascends (Search.apart_of_run hrun List.Pairwise.nil)
  exact ⟨Search.wellFounded_step s, fun w hw => ⟨seen, Search.runs_on hrun hw, haffected⟩,
    contains_affected_iff s seed, isLeast_affected s seed, hascends⟩

/-- Two files in a circle, one of which refers to itself too, a third one beside them, and one that refers to nothing;
`/x.ts` has no record. -/
def tangled : Store :=
  let refersTo (files : List Path) : FileRecord := { FileRecord.fresh with dependencies := files }
  ⟨.ofList [(⟨"/a.ts"⟩, refersTo [⟨"/b.ts"⟩, ⟨"/x.ts"⟩]), (⟨"/b.ts"⟩, refersTo [⟨"/a.ts"⟩, ⟨"/b.ts"⟩]),
    (⟨"/c.ts"⟩, refersTo [⟨"//x.ts"⟩]), (⟨"/d.ts"⟩, refersTo [])], [], []⟩

theorem affected_least_tangled :
    tangled.affected [⟨"/x.ts"⟩] = [⟨"/a.ts"⟩, ⟨"/b.ts"⟩, ⟨"/c.ts"⟩, ⟨"/x.ts"⟩] ∧
      ∃ seen, ReflTransGen (Search.Step tangled) ⟨[⟨"/x.ts"⟩], []⟩ ⟨[], seen⟩ ∧
        tangled.affected [⟨"/x.ts"⟩] = Path.sort seen :=
  ⟨by decide +kernel, (affected_least tangled [⟨"/x.ts"⟩]).2.1 _ .refl⟩

end Recheck.Store
