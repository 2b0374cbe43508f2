import Recheck.Proofs.Types.Relation

/-!
# Comparison without strict null checks

The mode is looked at in one place only, between the two rules for unions: without strict null checks, `null` and `undefined`
fit everything there. So a step of the comparison accepts at least as much as it does with them (`Ty.assignableStep_loosens`).
All other rules are monotone in how parts compare, in both directions where parameters of functions do, and that carries the
step through every level of the types.
-/

set_option autoImplicit false

namespace Recheck

namespace Ty

variable {part : Ty → Ty → Bool} {source target : Ty}

/-- What one step accepts with strict null checks it accepts without them. -/
theorem assignableStep_loosens (h : assignableStep true part source target = true) :
    assignableStep false part source target = true := by
  revert h
  unfold assignableStep
  refine accepts_ite id (accepts_ite id ?_)
  split
  · exact id
  · intro h
    -- With strict null checks the case of `null` and `undefined` is never taken.
    rw [if_neg (by simp)] at h
    by_cases hnull : source.isNullish
    · rw [if_pos (by simp [hnull])]
    · rwa [if_neg (by simp [hnull])]

theorem assignableWithin_loosens (n : Nat) {source target : Ty} (h : assignableWithin true n source target = true) :
    assignableWithin false n source target = true := by
  induction n generalizing source target with
  | zero => rfl
  | succ n ih =>
    rw [assignableWithin, Bool.or_eq_true] at h ⊢
    refine h.imp_right fun hstep => assignableStep_loosens ?_
    apply assignableStep_mono _ hstep
    intro s t _ hpart
    exact ih hpart

/-- Without strict null checks nothing is rejected that is assignable with them. -/
theorem loosening_never_rejects (source target : Ty) (h : isAssignable true source target = true) :
    isAssignable false source target = true :=
  assignableWithin_loosens _ h

/-- A function that may be given `undefined` stands for one that is given a number, in both modes. -/
theorem loosening_never_rejects_callback :
    let callback : Ty := function ⟨[⟨"value", union [number, undefined], false, false⟩], null⟩
    let expected : Ty := function ⟨[⟨"value", number, false, false⟩], union [string, null]⟩
    isAssignable true callback expected = true ∧ isAssignable false callback expected = true := by
  intro callback expected
  have hstrict : isAssignable true callback expected = true := by decide +kernel
  exact ⟨hstrict, loosening_never_rejects callback expected hstrict⟩

/-- The other way around modes differ: `null` fits a number only where null checks are off. -/
example : isAssignable false null number = true ∧ isAssignable true null number = false := by decide +kernel

end Ty

end Recheck
