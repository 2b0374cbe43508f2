import Recheck.Proofs.Types.Congruence
import Recheck.Proofs.Types.NormalForm

/-!
# Unions are upper bounds

Each of some types is assignable to their union, and so is all that is assignable to one of them (`Ty.unionOf_upper_bound`). A
union may collapse: its literals may be absorbed, and what is left may be a single type. Then the target is compared one level
higher than the members of a union were, where the rules look deeper and accept less. That only happens to literals that their
primitive has absorbed (`Ty.core_ne_singleton`), and what fits a literal fits its primitive to any depth.
-/

set_option autoImplicit false

namespace Recheck

mutual

/-- How many unions stand directly inside one another. -/
def Ty.unionDepth : Ty → Nat
  | .union members => Ty.unionDepthOver members + 1
  | _ => 0

/-- The greatest depth of unions among some types. -/
def Ty.unionDepthOver : List Ty → Nat
  | [] => 0
  | t :: rest => max t.unionDepth (Ty.unionDepthOver rest)

end

namespace Ty

variable {strict : Bool} {n : Nat} {s t u m : Ty} {types members : List Ty}

/-! ## Unions in unions -/

theorem unionDepth_lt (h : m ∈ members) : m.unionDepth < (union members).unionDepth := by
  rw [unionDepth]
  induction members with
  | nil => cases h
  | cons first rest ih =>
    rw [unionDepthOver]
    rcases List.mem_cons.mp h with rfl | h
    · exact Nat.lt_succ_of_le (Nat.le_max_left ..)
    · exact Nat.lt_of_lt_of_le (ih h) (Nat.succ_le_succ (Nat.le_max_right ..))

theorem unionDepth_of_single (h : t.isUnion = false) : t.unionDepth = 0 := by
  cases t with
  | union => cases h
  | _ => simp [unionDepth]

theorem unionDepthOver_of_flat (h : ∀ m ∈ members, m.isUnion = false) : unionDepthOver members = 0 := by
  induction members with
  | nil => rfl
  | cons m rest ih =>
    rw [unionDepthOver, unionDepth_of_single (h m List.mem_cons_self), ih fun m hm => h m (List.mem_cons_of_mem _ hm)]
    rfl

/-- Unions in normal form have no unions for members. -/
theorem IsNormal.unionDepth_le (h : t.IsNormal) : t.unionDepth ≤ 1 := by
  cases hunion : t.isUnion with
  | false => rw [unionDepth_of_single hunion]; exact Nat.zero_le 1
  | true =>
    cases t with
    | union members =>
      have hmembers := unionDepthOver_of_flat fun m hm => ((h members rfl).flat m hm).1
      simp [unionDepth, hmembers]
    | _ => cases hunion

theorem WellFormed.unionDepth_lt (h : t.WellFormed) : t.unionDepth < comparisonDepth :=
  Nat.lt_of_le_of_lt (wellFormed_iff.mp h).normal.unionDepth_le (by decide)

/-! ## Fewer levels accept more -/

theorem assignableWithin_pred (n : Nat) (h : assignableWithin strict (n + 1) s t = true) : assignableWithin strict n s t = true := by
  induction n generalizing s t with
  | zero => rfl
  | succ n ih =>
    rw [assignableWithin, Bool.or_eq_true] at h ⊢
    refine h.imp_right (assignableStep_mono ?_)
    intro s t _ hpart
    exact ih hpart

theorem assignableWithin_of_beq (n : Nat) (h : (s == t) = true) : assignableWithin strict n s t = true := by
  cases n with
  | zero => rfl
  | succ n => rw [assignableWithin, h, Bool.true_or]

theorem assignableWithin_of_step (n : Nat) (h : ∀ part, assignableStep strict part s t = true) :
    assignableWithin strict n s t = true := by
  cases n with
  | zero => rfl
  | succ n => rw [assignableWithin, h, Bool.or_true]

/-- Types that fit everywhere. -/
def IsLenient (strict : Bool) (s : Ty) : Prop := (s = any ∨ s = never) ∨ s.isUnion = false ∧ s.isNullish = true ∧ strict = false

theorem assignableWithin_of_lenient (n : Nat) (h : s.IsLenient strict) (t : Ty) : assignableWithin strict n s t = true := by
  refine assignableWithin_of_step n fun part => assignableStep_iff.mpr ?_
  rcases h with h | ⟨hsingle, hnullish⟩
  · exact .inr (.inl h)
  · exact .inr (.inr (.inr ⟨hsingle, .inl hnullish⟩))

theorem assignableWithin_any (n : Nat) (s : Ty) : assignableWithin strict n s any = true :=
  assignableWithin_of_step n fun _ => assignableStep_iff.mpr (.inl (.inl rfl))

theorem assignableWithin_union (h : ∀ m ∈ members, assignableWithin strict n m t = true) :
    assignableWithin strict (n + 1) (union members) t = true := by
  rw [assignableWithin, Bool.or_eq_true, assignableStep_iff]
  exact .inr (.inr (.inr (.inl ⟨members, rfl, List.all_eq_true.mpr h⟩)))

theorem assignableWithin_to_union (hs : s.isUnion = false) (hm : m ∈ members) (h : assignableWithin strict n s m = true) :
    assignableWithin strict (n + 1) s (union members) = true := by
  rw [assignableWithin, Bool.or_eq_true, assignableStep_iff]
  exact .inr (.inr (.inr (.inr ⟨hs, .inr (.inl ⟨members, rfl, List.any_eq_true.mpr ⟨m, hm, h⟩⟩)⟩)))

/-! ## Targets that little fits -/

theorem plainStep_never (part : Ty → Ty → Bool) (s : Ty) : plainStep part s never = false := by
  cases s with
  | keyword word => cases word <;> rfl
  | literal value => cases value <;> simp [plainStep, ofLiteral]
  | _ => rfl

theorem plainStep_literal (part : Ty → Ty → Bool) (s : Ty) (value : Syntax.LiteralType) : plainStep part s (literal value) = false := by
  cases s with
  | keyword word => cases word <;> rfl
  | _ => rfl

/-- Only the type itself fits a target like these, and what fits everywhere. -/
theorem eq_or_lenient (hs : s.isUnion = false) (ht : t = never ∨ ∃ value, t = literal value)
    (h : assignableWithin strict (n + 1) s t = true) : s = t ∨ s.IsLenient strict := by
  rw [assignableWithin, Bool.or_eq_true, assignableStep_iff] at h
  rcases h with hbeq | htop | hbottom | ⟨members, rfl, -⟩ | ⟨-, hnullish | ⟨members, rfl, -⟩ | ⟨-, hplain⟩⟩
  · rcases ht with rfl | ⟨value, rfl⟩
    · exact .inl (beq_keyword.mp hbeq)
    · exact .inl (beq_literal.mp hbeq)
  · rcases ht with rfl | ⟨value, rfl⟩ <;> simp at htop
  · exact .inr (.inl hbottom)
  · cases hs
  · exact .inr (.inr ⟨hs, hnullish⟩)
  · rcases ht with h | ⟨value, h⟩ <;> cases h
  · rcases ht with rfl | ⟨value, rfl⟩
    · rw [plainStep_never] at hplain
      cases hplain
    · rw [plainStep_literal] at hplain
      cases hplain

/-- What fits a literal fits its primitive, to any depth. -/
theorem assignableWithin_ofLiteral {value : Syntax.LiteralType} (k : Nat) (hs : s.isUnion = false)
    (h : assignableWithin strict (n + 1) s (literal value) = true) : assignableWithin strict k s (ofLiteral value) = true := by
  rcases eq_or_lenient hs (.inr ⟨value, rfl⟩) h with rfl | hlenient
  · refine assignableWithin_of_step k fun part => assignableStep_iff.mpr (.inr (.inr (.inr ⟨rfl, .inr (.inr ?_)⟩)))
    cases value <;> simp [ofLiteral, isUnion, plainStep]
  · exact assignableWithin_of_lenient k hlenient _

/-! ## The alternatives of a union -/

/-- A member of a union in normal form is left alone only by the literals that it absorbs, and they do not stand beside it. -/
theorem core_ne_singleton (hnormal : Normal members) (hmembers : ∀ m ∈ members, m.Orderly) (hsub : members ⊆ types) (hm : m ∈ members)
    (hu : u ∈ core types) (humem : u.Orderly) (hbeq : (u == m) = true) : core types ≠ [u] := by
  intro hcore
  -- Every other member would have to equal `u`, or be a literal with the primitive `u`.
  have hother (m' : Ty) (hm' : m' ∈ members) : (u == m') = true := by
    obtain ⟨u', hu', hcover⟩ := exists_mem_core (hsub hm') (beq_refl (hmembers m' hm'))
    rw [hcore] at hu'
    obtain rfl := List.mem_singleton.mp hu'
    rcases hcover with hbeq' | ⟨value, rfl, rfl⟩
    · exact hbeq'
    · obtain rfl := ofLiteral_beq.mp hbeq
      have habsorbed := hnormal.kept _ hm'
      rw [Bool.eq_false_iff, Ne, isAbsorbed_eq_true] at habsorbed
      exact absurd ⟨value, rfl, hm⟩ habsorbed
  have hseveral := hnormal.several
  cases members with
  | nil => simp at hseveral
  | cons first rest =>
    cases rest with
    | nil => simp at hseveral
    | cons second rest =>
      have hfirst := hmembers first List.mem_cons_self
      have hsame := beq_trans (beq_symm humem hfirst (hother first List.mem_cons_self)) (hother second (by simp))
      have hdistinct := (List.pairwise_cons.mp hnormal.distinct).1 second List.mem_cons_self
      rw [hdistinct] at hsame
      cases hsame

/-- What fits a member that is left fits the union. If that member is all that is left, it has to fit at the level of the union. -/
theorem assignableWithin_unionOf_of_mem (hany : any ∉ types) (hs : s.isUnion = false) (hu : u ∈ core (types.flatMap alternatives))
    (h : assignableWithin strict n s u = true)
    (hsingle : core (types.flatMap alternatives) = [u] → assignableWithin strict (n + 1) s u = true) :
    assignableWithin strict (n + 1) s (unionOf types) = true := by
  rw [unionOf_eq hany]
  generalize core (types.flatMap alternatives) = left at hu hsingle
  cases left with
  | nil => cases hu
  | cons first rest =>
    cases rest with
    | nil =>
      obtain rfl := List.mem_singleton.mp hu
      exact hsingle rfl
    | cons second rest => exact assignableWithin_to_union hs hu h

/-- What is no union and fits one of the types fits their union. -/
theorem assignableWithin_unionOf_of_single (htypes : ∀ t ∈ types, t.Orderly) (hany : any ∉ types) (hs : s.isUnion = false)
    (ht : t ∈ types) (h : assignableWithin strict (n + 2) s t = true) :
    assignableWithin strict (n + 2) s (unionOf types) = true := by
  have horderly := Orderly.flatMap_alternatives htypes
  have hmem {m : Ty} (hm : m ∈ t.alternatives) : m ∈ types.flatMap alternatives := List.mem_flatMap.mpr ⟨t, ht, hm⟩
  have hcover {m : Ty} (hm : m ∈ t.alternatives) := exists_mem_core (hmem hm) (beq_refl (horderly m (hmem hm)))
  have halike {u m : Ty} (hu : u ∈ core (types.flatMap alternatives)) (hm : m ∈ t.alternatives) (hbeq : (u == m) = true) : Alike m u :=
    Alike.symm (.inr ⟨hbeq, horderly u (core_subset _ hu), horderly m (hmem hm)⟩)
  cases hunion : t.isUnion with
  | false =>
    by_cases hnever : t = never
    · rcases eq_or_lenient hs (.inl hnever) h with rfl | hlenient
      · exact assignableWithin_of_lenient _ (.inl (.inr hnever)) _
      · exact assignableWithin_of_lenient _ hlenient _
    · have hself : t ∈ t.alternatives := alternatives_of_flat hunion hnever ▸ List.mem_cons_self
      obtain ⟨u, hu, hbeq | ⟨value, rfl, rfl⟩⟩ := hcover hself
      · have hfits := assignableWithin_congr (n + 2) (.refl s) (halike hu hself hbeq) h
        exact assignableWithin_unionOf_of_mem hany hs hu (assignableWithin_pred _ hfits) fun _ => hfits
      · exact assignableWithin_unionOf_of_mem hany hs hu (assignableWithin_ofLiteral _ hs h) fun _ => assignableWithin_ofLiteral _ hs h
  | true =>
    cases t with
    | union members =>
      rw [assignableWithin, Bool.or_eq_true, assignableStep_iff] at h
      rcases h with hbeq | htop | hbottom | ⟨members', rfl, -⟩ | ⟨-, hnullish | ⟨members', ⟨⟩, hfits⟩ | ⟨hsingle, -⟩⟩
      · rw [isUnion_of_beq hbeq] at hs
        cases hs
      · simp at htop
      · exact assignableWithin_of_lenient _ (.inl hbottom) _
      · cases hs
      · exact assignableWithin_of_lenient _ (.inr ⟨hs, hnullish⟩) _
      · obtain ⟨m, hm, hfits⟩ := List.any_eq_true.mp hfits
        obtain ⟨u, hu, hbeq | ⟨value, rfl, rfl⟩⟩ := hcover hm
        · -- A union of which a member is left has not collapsed, so the levels are the same on both sides.
          have hseveral := core_ne_singleton ((htypes _ ht).normal members rfl) (fun m hm => (htypes _ ht).part hm)
            (fun m hm => hmem hm) hm hu (horderly u (core_subset _ hu)) hbeq
          exact assignableWithin_unionOf_of_mem hany hs hu (assignableWithin_congr _ (.refl s) (halike hu hm hbeq) hfits)
            fun hsingle => absurd hsingle hseveral
        · exact assignableWithin_unionOf_of_mem hany hs hu (assignableWithin_ofLiteral _ hs hfits)
            fun _ => assignableWithin_ofLiteral _ hs hfits
      · cases hsingle
    | _ => cases hunion

/-- Where a union fits, its members fit one level below. -/
theorem assignableWithin_of_union (ht : t.IsNormal) (h : assignableWithin strict (n + 1) (union members) t = true) :
    ∀ m ∈ members, assignableWithin strict n m t = true := by
  intro m hm
  rw [assignableWithin, Bool.or_eq_true, assignableStep_iff] at h
  rcases h with hbeq | htop | hbottom | ⟨members', ⟨⟩, hfits⟩ | ⟨hsingle, -⟩
  · obtain ⟨bs, rfl, hbs⟩ := union_beq.mp hbeq
    obtain ⟨b, hb, hmb⟩ := exists_of_forall₂ hbs hm
    cases n with
    | zero => rfl
    | succ n =>
      have hsingle : m.isUnion = false := (isUnion_of_beq hmb).trans ((ht bs rfl).flat b hb).1
      exact assignableWithin_to_union hsingle hb (assignableWithin_of_beq n hmb)
  · exact assignableWithin_of_step n fun _ => assignableStep_iff.mpr (.inl htop)
  · simp at hbottom
  · exact List.all_eq_true.mp hfits m hm
  · cases hsingle

/-- What fits one of the types fits their union, as long as unions in it are not nested as deep as types are compared. -/
theorem assignableWithin_unionOf (htypes : ∀ t ∈ types, t.Orderly) (ht : t ∈ types) (hdepth : s.unionDepth + 2 ≤ n)
    (h : assignableWithin strict n s t = true) : assignableWithin strict n s (unionOf types) = true := by
  by_cases hany : any ∈ types
  · rw [unionOf_of_any hany]
    exact assignableWithin_any n s
  -- The levels go down with the unions of the source, and at least two are left where they end.
  induction n generalizing s with
  | zero => rfl
  | succ n ih =>
    cases hunion : s.isUnion with
    | false =>
      rw [unionDepth_of_single hunion] at hdepth
      obtain ⟨n, rfl⟩ : ∃ k, n = k + 1 := Nat.exists_eq_succ_of_ne_zero (by omega)
      exact assignableWithin_unionOf_of_single htypes hany hunion ht h
    | true =>
      cases s with
      | union members =>
        have hmembers := assignableWithin_of_union (htypes t ht).normal h
        refine assignableWithin_union fun m hm => ih ?_ (hmembers m hm)
        have hlower := unionDepth_lt hm
        omega
      | _ => cases hunion

/-! ## The union as an upper bound -/

theorem isAssignable_unionOf (htypes : ∀ t ∈ types, t.Orderly) (ht : t ∈ types) (hdepth : s.unionDepth < comparisonDepth)
    (h : isAssignable strict s t = true) : isAssignable strict s (unionOf types) = true :=
  assignableWithin_unionOf htypes ht (Nat.succ_le_succ hdepth) h

/-- A type fits what it is widened to. -/
theorem isAssignable_widen (h : t.Orderly) : isAssignable strict t t.widen = true := by
  have hsingle (n : Nat) (m : Ty) (hm : m.Orderly) (hunion : m.isUnion = false) : assignableWithin strict n m m.widen = true := by
    rcases widen_of_single hunion with ⟨value, rfl, hwiden⟩ | ⟨-, hwiden⟩
    · rw [hwiden]
      exact assignableWithin_ofLiteral (n := 0) n hunion (assignableWithin_of_beq _ (beq_refl hm))
    · rw [hwiden]
      exact assignableWithin_of_beq n (beq_refl hm)
  cases hunion : t.isUnion with
  | false => exact hsingle _ t h hunion
  | true =>
    cases t with
    | union members =>
      have hflat : Flat members := (h.normal members rfl).flat
      rw [widen, widenAll_eq_map]
      refine assignableWithin_union fun m hm => ?_
      have hdepth : m.unionDepth + 2 ≤ comparisonDepth := by
        rw [unionDepth_of_single (hflat m hm).1]
        decide
      refine assignableWithin_unionOf (t := m.widen) (fun t ht => ?_) (List.mem_map_of_mem hm) hdepth
        (hsingle _ m (h.part hm) (hflat m hm).1)
      obtain ⟨source, hsource, rfl⟩ := List.mem_map.mp ht
      exact (h.part hsource).widen
    | _ => cases hunion

/-- A union of well-formed types is an upper bound of them, with and without strict null checks: each of the types is assignable to
it, and so is every type that is assignable to one of them. Unions may be nested in that type in any way, but not as deep as types
are compared; in a well-formed type they are not nested at all (`WellFormed.unionDepth_lt`). A well-formed type is assignable to
what it is widened to. -/
theorem unionOf_upper_bound (strict : Bool) (types : List Ty) (t : Ty) (htypes : ∀ t ∈ types, t.WellFormed) (ht : t.WellFormed) :
    (∀ t ∈ types, isAssignable strict t (unionOf types) = true) ∧
    (∀ t ∈ types, ∀ s, s.unionDepth < comparisonDepth → isAssignable strict s t = true →
      isAssignable strict s (unionOf types) = true) ∧
    isAssignable strict t t.widen = true := by
  have horderly (t : Ty) (ht : t ∈ types) : t.Orderly := wellFormed_iff.mp (htypes t ht)
  refine ⟨fun t ht => ?_, fun t ht s hdepth => isAssignable_unionOf horderly ht hdepth, isAssignable_widen (wellFormed_iff.mp ht)⟩
  exact isAssignable_unionOf horderly ht (htypes t ht).unionDepth_lt (isAssignable_of_beq (beq_refl (horderly t ht)))

/-- Two literals and their primitive: the union collapses to the primitive, and what fits the literals fits it. -/
theorem unionOf_upper_bound_collapsed :
    let letters : Ty := union [literal (.string "a"), literal (.string "b")]
    ((∀ t ∈ [letters, string], t.WellFormed) ∧ letters.WellFormed) ∧
    isAssignable true letters (unionOf [letters, string]) = true ∧
    isAssignable true (literal (.string "b")) (unionOf [letters, string]) = true ∧ isAssignable true letters letters.widen = true := by
  intro letters
  have hliteral (value : Syntax.LiteralType) : (literal value).WellFormed := .single rfl (by rintro o ⟨⟩) fun _ hc => by cases hc
  have hnormal : Normal [literal (.string "a"), literal (.string "b")] :=
    ⟨by simp, by simp [isUnion], by decide +kernel, by decide +kernel⟩
  have hletters : letters.WellFormed := by
    have hunion : unionOf [literal (.string "a"), literal (.string "b")] = letters := hnormal.unionOf_eq
    exact hunion ▸ .union (by simp [hliteral])
  have htypes : ∀ t ∈ [letters, string], t.WellFormed := by simp [hletters, wellFormed_iff.mpr (.keyword .string)]
  obtain ⟨hmember, hfits, hwiden⟩ := unionOf_upper_bound true [letters, string] letters htypes hletters
  have hletter : isAssignable true (literal (.string "b")) letters = true := by decide +kernel
  exact ⟨⟨htypes, hletters⟩, hmember letters List.mem_cons_self,
    hfits letters List.mem_cons_self _ (hliteral _).unionDepth_lt hletter, hwiden⟩

/-- At the depth to which types are compared the union is no upper bound any more: there the members of a union are not looked at,
while a single type is. -/
example :
    let letters : Ty := union [literal (.string "a"), literal (.string "b")]
    let nested : Ty := Nat.repeat (fun t => union [t]) comparisonDepth number
    isAssignable true nested letters = true ∧ isAssignable true nested (unionOf [letters, string]) = false := by
  decide +kernel

end Ty
end Recheck
