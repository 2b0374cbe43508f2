import Recheck.Proofs.Types.Relation

/-!
# Reading through assignability

A value that is assignable to an object type can be read by way of that type: what the type requires is there, and what is
listed for the value has the type that the target gives the name (`Ty.assignable_object`). This says nothing of properties
that the value may lack, and nothing of names that the value has only by an index: there the rules do not look
(`Ty.assignable_object_gaps`).
-/

set_option autoImplicit false

namespace Recheck

/-- No two properties have one name. -/
def ObjectTy.Distinct (o : ObjectTy) : Prop := (o.properties.map (·.name)).Nodup

/-! ## Equal object types -/

section

variable {properties others : List PropertyTy} {p : PropertyTy} {name : String}

theorem PropertyTy.within_iff : PropertyTy.within properties others = true ↔
    ∀ p ∈ properties, ∃ q, PropertyTy.find? others p.name = some q ∧ (p.type == q.type) = true ∧ p.optional = q.optional := by
  induction properties with
  | nil => simp [PropertyTy.within]
  | cons first rest ih =>
    obtain ⟨name, type, optional⟩ := first
    rw [PropertyTy.within, Bool.and_eq_true, ih, List.forall_mem_cons]
    refine and_congr_left fun _ => ?_
    cases PropertyTy.find? others name with
    | none => simp
    | some q =>
      change (Ty.same type q.type && decide (optional = q.optional)) = true ↔ ∃ q', some q = some q' ∧ Ty.same type q'.type = true ∧ _
      simp

theorem PropertyTy.isSome_find? (h : name ∈ properties.map (·.name)) : (PropertyTy.find? properties name).isSome := by
  obtain ⟨p, hp, rfl⟩ := List.mem_map.mp h
  exact List.find?_isSome.mpr ⟨p, hp, decide_eq_true rfl⟩

namespace ObjectTy

variable {o t : ObjectTy}

theorem of_same (h : (Ty.object o == Ty.object t) = true) :
    o.properties.length = t.properties.length ∧ PropertyTy.within o.properties t.properties = true := by
  obtain ⟨name, properties, index⟩ := o
  change Ty.same (.object ⟨name, properties, index⟩) (.object t) = true at h
  simp only [Ty.same, ObjectTy.same, Bool.and_eq_true, decide_eq_true_eq] at h
  exact ⟨h.1.1.2, h.1.2⟩

/-- Equal object types have the same names. -/
theorem hasProperty_of_same (ho : o.Distinct) (h : (Ty.object o == Ty.object t) = true) (hp : p ∈ t.properties) :
    o.hasProperty p.name = true := by
  obtain ⟨hlength, hwithin⟩ := of_same h
  have hsubset : o.properties.map (·.name) ⊆ t.properties.map (·.name) := by
    intro name hname
    obtain ⟨q, hq, rfl⟩ := List.mem_map.mp hname
    obtain ⟨q', hfound, -⟩ := PropertyTy.within_iff.mp hwithin q hq
    obtain ⟨hmem, hname⟩ := PropertyTy.of_find? hfound
    exact hname ▸ List.mem_map_of_mem hmem
  have hperm : (o.properties.map (·.name)).Perm (t.properties.map (·.name)) :=
    (List.subperm_of_subset ho hsubset).perm_of_length_le (by simp [hlength])
  exact PropertyTy.isSome_find? (hperm.mem_iff.mpr (List.mem_map_of_mem hp))

end ObjectTy

end

namespace Ty

/-! ## Assignable object types -/

section

variable {strict : Bool} {o t : ObjectTy}

/-- Object types are equal, or the target is open, or they compare property by property. -/
theorem cases_of_assignable (h : isAssignable strict (object o) (object t) = true) :
    (object o == object t) = true ∨ isOpen t = true ∨ objectStep (assignableWithin strict comparisonDepth) o t = true := by
  rw [isAssignable, assignableWithin, Bool.or_eq_true] at h
  refine h.imp_right fun hstep => ?_
  change (if isOpen t = true then _ else objectStep _ o t) = true at hstep
  split at hstep
  · exact .inl ‹_›
  · exact .inr hstep

theorem isAssignable_of_beq {s t : Ty} (h : (s == t) = true) : isAssignable strict s t = true := by
  rw [isAssignable, assignableWithin, h, Bool.true_or]

theorem isAssignable_of_within {s t : Ty} (hheight : s.height + t.height < comparisonDepth)
    (h : assignableWithin strict comparisonDepth s t = true) : isAssignable strict s t = true := by
  rw [assignableWithin_eq_assigns hheight] at h
  exact assignableWithin_of_assigns _ h

/-- A value of an object type that is assignable to another one can be read by way of that: it has every property that is
required, and each of its listed properties is assignable to what the target says of the name, in its list or by its index.
-/
theorem assignable_object (strict : Bool) (o t : ObjectTy) (ho : o.Distinct) (hheight : (object o).height + (object t).height ≤ 8)
    (h : isAssignable strict (object o) (object t) = true) :
    (∀ p ∈ t.properties, p.optional = false → o.hasProperty p.name = true) ∧
    ∀ name q target, o.property? name = some q → (object t).property? name = some target →
      isAssignable strict q.type target = true := by
  rcases cases_of_assignable h with hsame | hopen | hstep
  · refine ⟨fun p hp _ => ObjectTy.hasProperty_of_same ho hsame hp, fun name q target hq htarget => ?_⟩
    obtain ⟨hmem, rfl⟩ := PropertyTy.of_find? hq
    obtain ⟨p, hp, htype, -⟩ := PropertyTy.within_iff.mp (ObjectTy.of_same hsame).2 q hmem
    have hp : t.property? q.name = some p := hp
    simp only [property?, hp, Option.some.injEq] at htarget
    exact isAssignable_of_beq (htarget ▸ htype)
  · obtain ⟨hproperties, hindex⟩ : t.properties = [] ∧ t.index = none := by simpa [isOpen] using hopen
    refine ⟨fun p hp => absurd (hproperties ▸ hp) List.not_mem_nil, fun name q target _ htarget => ?_⟩
    simp [property?, ObjectTy.property?, PropertyTy.find?, hproperties, hindex] at htarget
  · simp only [objectStep, Bool.and_eq_true, List.all_eq_true] at hstep
    obtain ⟨⟨hmissing, hnamed⟩, hindex⟩ := hstep
    refine ⟨fun p hp hrequired => ?_, fun name q target hq htarget => ?_⟩
    · simp only [ObjectTy.missing?, Option.isNone_map, Option.isNone_iff_eq_none, List.find?_eq_none] at hmissing
      simpa [hrequired] using hmissing p hp
    · have hlow {s' t' : Ty} (hs : s' ∈ (object o).components) (ht : t' ∈ (object t).components) :
          s'.height + t'.height < comparisonDepth :=
        Nat.lt_of_lt_of_le (Nat.add_lt_add (height_lt hs) (height_lt ht)) hheight
      have hqc := ObjectTy.type_mem_components (ObjectTy.mem_of_property? hq)
      unfold property? at htarget
      dsimp only at htarget
      split at htarget
      · rename_i p hp
        obtain rfl := Option.some.inj htarget
        obtain ⟨hmem, rfl⟩ := PropertyTy.of_find? hp
        have hstep := hnamed p hmem
        rw [hq] at hstep
        exact isAssignable_of_within (hlow hqc (ObjectTy.type_mem_components hmem)) hstep
      · rw [htarget] at hindex
        have hstep := List.all_eq_true.mp hindex q (ObjectTy.mem_of_property? hq)
        exact isAssignable_of_within (hlow hqc (ObjectTy.index_mem_components htarget)) hstep

end

/-- A labelled point for a target that may have a label. -/
theorem assignable_object_point :
    let point : ObjectTy := ⟨none, [⟨"x", literal (.number "1"), false⟩, ⟨"label", string, false⟩], none⟩
    let target : ObjectTy := ⟨some "Point", [⟨"label", union [string, undefined], true⟩, ⟨"x", number, false⟩], none⟩
    (point.Distinct ∧ (object point).height + (object target).height ≤ 8 ∧
      isAssignable true (object point) (object target) = true) ∧
    (∀ p ∈ target.properties, p.optional = false → point.hasProperty p.name = true) ∧
    ∀ name q t, point.property? name = some q → (object target).property? name = some t → isAssignable true q.type t = true := by
  intro point target
  have hpoint : point.Distinct := by simp [ObjectTy.Distinct, point]
  have hheight : (object point).height + (object target).height ≤ 8 := by decide
  have hassignable : isAssignable true (object point) (object target) = true := by decide +kernel
  exact ⟨⟨hpoint, hheight, hassignable⟩, assignable_object true point target hpoint hheight hassignable⟩

/-! ## Where the rules do not look -/

/-- A type in which `any` does not occur. -/
inductive AnyFree : Ty → Prop
  | intro {t : Ty} : t ≠ any → (∀ c ∈ t.components, AnyFree c) → AnyFree t

/-- The object type with one property, of type `number`. -/
def withNumber (optional : Bool) : ObjectTy := ⟨none, [⟨"x", number, optional⟩], none⟩

/-- The object type in which every name has this type. -/
def indexed (type : Ty) : ObjectTy := ⟨none, [], some type⟩

theorem distinct_withNumber (optional : Bool) : (withNumber optional).Distinct := by simp [ObjectTy.Distinct, withNumber]

theorem anyFree_keyword {word : Syntax.KeywordType} (h : word ≠ .any) : AnyFree (keyword word) :=
  .intro (fun heq => h (Ty.keyword.inj heq)) nofun

theorem anyFree_withNumber (optional : Bool) : AnyFree (object (withNumber optional)) := by
  refine .intro (by rintro ⟨⟩) fun c hc => ?_
  obtain rfl : c = number := by simpa [components, withNumber] using hc
  exact anyFree_keyword (by rintro ⟨⟩)

/-- A property that may be lacking stands for one that is required, and an index for a listed property of another type. -/
theorem assignable_object_gaps :
    (¬∀ o t : ObjectTy, o.Distinct → t.Distinct → AnyFree (object o) → AnyFree (object t) →
      (object o).height + (object t).height ≤ 8 → isAssignable true (object o) (object t) = true →
      ∀ p ∈ t.properties, p.optional = false → ∃ q, o.property? p.name = some q ∧ q.optional = false) ∧
    ¬∀ o t : ObjectTy, o.Distinct → t.Distinct → AnyFree (object o) → AnyFree (object t) →
      (object o).height + (object t).height ≤ 8 → isAssignable true (object o) (object t) = true →
      ∀ name source target, (object o).property? name = some source → (object t).property? name = some target →
        isAssignable true source target = true := by
  constructor
  · intro h
    obtain ⟨q, hq, hrequired⟩ := h (withNumber true) (withNumber false) (distinct_withNumber _) (distinct_withNumber _)
      (anyFree_withNumber true) (anyFree_withNumber false) (by decide) (by decide +kernel) _ List.mem_cons_self rfl
    obtain rfl := Option.some.inj hq
    cases hrequired
  · intro h
    have hsource : AnyFree (object (indexed string)) := by
      refine .intro (by rintro ⟨⟩) fun c hc => ?_
      obtain rfl : c = string := by simpa [components, indexed] using hc
      exact anyFree_keyword (by rintro ⟨⟩)
    have hwrong := h (indexed string) (withNumber true) List.nodup_nil (distinct_withNumber _) hsource
      (anyFree_withNumber true) (by decide) (by decide +kernel) "x" string number rfl rfl
    exact absurd hwrong (by decide +kernel)

end Ty

end Recheck
