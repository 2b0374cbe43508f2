import Recheck.Proofs.Types.Equality

/-!
# The normal form of unions

A union of well-formed types is `any` if one of them is; else it is `never`, a single type, or a union with members in normal form.
Taking a union of a union makes no difference, and the order of the types shows only in the order of the members. Widening and
removing `null` and `undefined` rebuild a union from its members and may collapse it; what they return is in normal form again,
and a second time they change nothing (`Ty.union_normal_form`).
-/

set_option autoImplicit false

namespace Recheck

namespace Ty

variable {types more : List Ty} {s t m : Ty}

/-! ## The order of the types -/

/-- Two types consist of equal types, in any order. -/
def Rearranged (s t : Ty) : Prop :=
  ∃ members : List Ty, members.Perm s.alternatives ∧ List.Forall₂ (fun a b => (a == b) = true) members t.alternatives

/-- Lists that hold equal types, none of them twice, hold them in some order. -/
theorem exists_perm_of_cover {as bs : List Ty} (has : ∀ a ∈ as, a.Orderly) (hbs : ∀ b ∈ bs, b.Orderly)
    (hdistinct : as.Pairwise fun a b => (a == b) = false) (hdistinct' : bs.Pairwise fun a b => (a == b) = false)
    (hforth : ∀ a ∈ as, ∃ b ∈ bs, (a == b) = true) (hback : ∀ b ∈ bs, ∃ a ∈ as, (a == b) = true) :
    ∃ cs : List Ty, cs.Perm as ∧ List.Forall₂ (fun a b => (a == b) = true) cs bs := by
  induction bs generalizing as with
  | nil =>
    cases as with
    | nil => exact ⟨[], .nil, .nil⟩
    | cons a as =>
      obtain ⟨b, hb, -⟩ := hforth a List.mem_cons_self
      cases hb
  | cons b bs ih =>
    obtain ⟨a, ha, hab⟩ := hback b List.mem_cons_self
    obtain ⟨before, behind, rfl⟩ := List.append_of_mem ha
    have hperm : (before ++ a :: behind).Perm (a :: (before ++ behind)) := List.perm_middle
    have hmem (x : Ty) (hx : x ∈ before ++ behind) : x ∈ before ++ a :: behind := hperm.mem_iff.mpr (List.mem_cons_of_mem _ hx)
    have hb := hbs b List.mem_cons_self
    -- No other type of the one list equals `a`, on either side of it, and none of the other list equals `b`.
    have hother (x : Ty) (hx : x ∈ before ++ behind) : (x == b) = false := by
      rw [Bool.eq_false_iff]
      intro hxb
      have hax := beq_trans hab (beq_symm (has x (hmem x hx)) hb hxb)
      obtain ⟨-, hbehind, hcross⟩ := List.pairwise_append.mp hdistinct
      rcases List.mem_append.mp hx with hx' | hx'
      · have hxa := beq_symm (has a ha) (has x (hmem x hx)) hax
        rw [hcross x hx' a List.mem_cons_self] at hxa
        cases hxa
      · rw [(List.pairwise_cons.mp hbehind).1 x hx'] at hax
        cases hax
    obtain ⟨hfirst, hrest⟩ := List.pairwise_cons.mp hdistinct'
    obtain ⟨cs, hcs, hmatch⟩ := ih (fun x hx => has x (hmem x hx)) (fun y hy => hbs y (List.mem_cons_of_mem _ hy))
      (hdistinct.sublist ((List.Sublist.refl before).append (List.sublist_cons_self a behind))) hrest
      (fun x hx => by
        obtain ⟨y, hy, hxy⟩ := hforth x (hmem x hx)
        rcases List.mem_cons.mp hy with rfl | hy
        · rw [hother x hx] at hxy
          cases hxy
        · exact ⟨y, hy, hxy⟩)
      (fun y hy => by
        obtain ⟨x, hx, hxy⟩ := hback y (List.mem_cons_of_mem _ hy)
        rcases List.mem_cons.mp (hperm.mem_iff.mp hx) with rfl | hx
        · have hby := beq_trans (beq_symm (has x ha) hb hab) hxy
          rw [hfirst y hy] at hby
          cases hby
        · exact ⟨x, hx, hxy⟩)
    exact ⟨a :: cs, (hcs.cons a).trans hperm.symm, .cons hab hmatch⟩

theorem strip_perm (h : types.Perm more) : (strip types).Perm (strip more) := by
  unfold strip
  rw [List.filter_congr fun t _ => by rw [isAbsorbed_congr (fun word => h.mem_iff) t]]
  exact h.filter _

/-- What is left of some types in another order equals what is left of them. -/
theorem exists_perm_core (h : types.Perm more) (htypes : ∀ t ∈ types, t.Orderly) :
    ∃ members : List Ty, members.Perm (core types) ∧ List.Forall₂ (fun a b => (a == b) = true) members (core more) := by
  have hmore (t : Ty) (ht : t ∈ more) : t.Orderly := htypes t (h.mem_iff.mpr ht)
  have hleft (t : Ty) (ht : t ∈ core types) : t.Orderly := htypes t (core_subset _ ht)
  have hright (t : Ty) (ht : t ∈ core more) : t.Orderly := hmore t (core_subset _ ht)
  refine exists_perm_of_cover hleft hright (pairwise_unique _) (pairwise_unique _) (fun a ha => ?_) fun b hb => ?_
  · have hmem := (strip_perm h).mem_iff.mp (unique_subset _ ha)
    obtain ⟨b, hb, hba⟩ := exists_mem_unique hmem (beq_refl (hleft a ha))
    exact ⟨b, hb, beq_symm (hright b hb) (hleft a ha) hba⟩
  · have hmem := (strip_perm h).mem_iff.mpr (unique_subset _ hb)
    exact exists_mem_unique hmem (beq_refl (hright b hb))

theorem rearranged_unionOf (h : types.Perm more) (htypes : ∀ t ∈ types, t.Orderly) :
    Rearranged (unionOf types) (unionOf more) := by
  by_cases hany : any ∈ types
  · rw [unionOf_of_any hany, unionOf_of_any (h.mem_iff.mp hany)]
    exact ⟨[any], .refl _, .cons (beq_refl (.keyword _)) .nil⟩
  · have hmore (t : Ty) (ht : t ∈ more) : t.Orderly := htypes t (h.mem_iff.mpr ht)
    unfold Rearranged
    rw [alternatives_unionOf (fun t ht => (htypes t ht).normal) hany,
      alternatives_unionOf (fun t ht => (hmore t ht).normal) fun hmem => hany (h.mem_iff.mpr hmem)]
    exact exists_perm_core (h.flatMap_right _) (Orderly.flatMap_alternatives htypes)

/-! ## Widening -/

/-- A literal is widened to its primitive, any other type that is no union stays. -/
theorem widen_of_single (h : t.isUnion = false) :
    (∃ value, t = literal value ∧ t.widen = ofLiteral value) ∨ t.hasLiteral = false ∧ t.widen = t := by
  cases t with
  | literal value => exact .inl ⟨value, rfl, by simp [widen]⟩
  | union => cases h
  | _ => exact .inr (by simp [hasLiteral, widen])

theorem flat_widen (h : Flat types) : Flat (types.map widen) := by
  intro t ht
  obtain ⟨m, hm, rfl⟩ := List.mem_map.mp ht
  rcases widen_of_single (h m hm).1 with ⟨value, rfl, hwiden⟩ | ⟨-, hwiden⟩
  · rw [hwiden]
    cases value <;> simp [ofLiteral, isUnion]
  · rw [hwiden]
    exact h m hm

theorem Orderly.widen (h : t.Orderly) : t.widen.Orderly := by
  have hsingle (m : Ty) (hm : m.Orderly) (hunion : m.isUnion = false) : m.widen.Orderly := by
    rcases widen_of_single hunion with ⟨value, -, hwiden⟩ | ⟨-, hwiden⟩
    · obtain ⟨word, hword⟩ := ofLiteral_eq value
      rw [hwiden, hword]
      exact .keyword word
    · rwa [hwiden]
  cases hunion : t.isUnion with
  | false => exact hsingle t h hunion
  | true =>
    cases t with
    | union members =>
      rw [Ty.widen, widenAll_eq_map]
      refine .unionOf fun t ht => ?_
      obtain ⟨m, hm, rfl⟩ := List.mem_map.mp ht
      exact hsingle m (h.part hm) ((h.normal members rfl).flat m hm).1
    | _ => cases hunion

theorem hasLiteral_widen (h : t.IsNormal) : t.widen.hasLiteral = false := by
  have hsingle (m : Ty) (hunion : m.isUnion = false) : m.widen.hasLiteral = false := by
    rcases widen_of_single hunion with ⟨value, -, hwiden⟩ | ⟨hliteral, hwiden⟩
    · rw [hwiden]
      cases value <;> simp [ofLiteral, hasLiteral]
    · rwa [hwiden]
  cases hunion : t.isUnion with
  | false => exact hsingle t hunion
  | true =>
    cases t with
    | union members =>
      have hflat : Flat members := (h members rfl).flat
      have hwidened := flat_widen hflat
      rw [widen, widenAll_eq_map]
      refine unionOf_induction (P := fun t => t.hasLiteral = false) (fun t ht => isNormal_of_single (hwidened t ht).1)
        (by simp [hasLiteral]) (by simp [hasLiteral]) (fun m hm => ?_)
        fun members _ hmembers => by simpa [hasLiteral] using hmembers
      rw [flatMap_alternatives hwidened] at hm
      obtain ⟨source, hsource, rfl⟩ := List.mem_map.mp hm
      exact hsingle source (hflat source hsource).1
    | _ => cases hunion

/-- Widening changes nothing where no literal is. -/
theorem widen_eq_self (h : t.IsNormal) (hliteral : t.hasLiteral = false) : t.widen = t := by
  have hsingle (m : Ty) (hunion : m.isUnion = false) (hliteral : m.hasLiteral = false) : m.widen = m := by
    rcases widen_of_single hunion with ⟨value, rfl, -⟩ | ⟨-, hwiden⟩
    · simp [hasLiteral] at hliteral
    · exact hwiden
  cases hunion : t.isUnion with
  | false => exact hsingle t hunion hliteral
  | true =>
    cases t with
    | union members =>
      have hnormal := h members rfl
      have hsame : members.map widen = members.map id := List.map_congr_left fun m hm => by
        refine hsingle m (hnormal.flat m hm).1 ?_
        simp only [hasLiteral, anyLiteral_eq_any, List.any_eq_false] at hliteral
        simpa using hliteral m hm
      rw [widen, widenAll_eq_map, hsame, List.map_id, hnormal.unionOf_eq]
    | _ => cases hunion

/-! ## Without `null` and `undefined` -/

theorem Orderly.nonNullable (h : t.Orderly) : t.nonNullable.Orderly := by
  cases t with
  | union members => exact .unionOf fun m hm => h.part (List.mem_of_mem_filter hm)
  | _ => exact h

/-- A union without nullish members stays as it is. -/
theorem nonNullable_eq_self (h : t.IsNormal) (hnullish : ∀ members, t = union members → ∀ m ∈ members, m.isNullish = false) :
    t.nonNullable = t := by
  cases t with
  | union members =>
    have hsame : (members.filter fun m => !m.isNullish) = members :=
      List.filter_eq_self.mpr fun m hm => by simp [hnullish members rfl m hm]
    rw [nonNullable, hsame, (h members rfl).unionOf_eq]
  | _ => rfl

theorem isNullish_of_mem_nonNullable (h : t.IsNormal) :
    ∀ members, t.nonNullable = union members → ∀ m ∈ members, m.isNullish = false := by
  intro left hleft m hm
  cases t with
  | union members =>
    have hflat : Flat members := (h members rfl).flat
    have hflat' : Flat (members.filter fun m => !m.isNullish) := hflat.subset fun _ hm => List.mem_of_mem_filter hm
    have halternatives := alternatives_unionOf (fun m hm => isNormal_of_single (hflat' m hm).1) fun hany => (hflat' any hany).2.1 rfl
    rw [nonNullable] at hleft
    rw [hleft, flatMap_alternatives hflat'] at halternatives
    have hmem : m ∈ core _ := halternatives ▸ (show m ∈ (union left).alternatives from hm)
    have hmem := core_subset _ hmem
    simpa using (List.mem_filter.mp hmem).2
  | _ => cases hleft

/-! ## All together -/

/-- What `unionOf` makes of well-formed types: `any` if one of them is, else `never`, a single type or a union in normal form. A
union of types with their union in place of them is the same type, and types in another order have equal members in another order.
Widening and `nonNullable` keep all this and do nothing a second time, and widening leaves no literals. -/
theorem union_normal_form (types more : List Ty) (t : Ty) (htypes : ∀ t ∈ types, t.WellFormed) (ht : t.WellFormed) :
    (any ∈ types → unionOf types = any) ∧
    (any ∉ types →
      unionOf types = never ∨
      ((unionOf types).isUnion = false ∧ unionOf types ≠ any ∧ unionOf types ≠ never) ∨
      ∃ members, unionOf types = union members ∧ Normal members) ∧
    unionOf (unionOf types :: more) = unionOf (types ++ more) ∧
    (types.Perm more → Rearranged (unionOf types) (unionOf more)) ∧
    (t.widen.widen = t.widen ∧ t.widen.WellFormed ∧ t.widen.IsNormal ∧ t.widen.hasLiteral = false) ∧
    (t.nonNullable.nonNullable = t.nonNullable ∧ t.nonNullable.WellFormed ∧ t.nonNullable.IsNormal) := by
  have horderly (t : Ty) (ht : t ∈ types) : t.Orderly := wellFormed_iff.mp (htypes t ht)
  have hnormal (t : Ty) (ht : t ∈ types) : t.IsNormal := (horderly t ht).normal
  have ht := wellFormed_iff.mp ht
  refine ⟨unionOf_of_any, fun hany => ?_, unionOf_unionOf_cons hnormal more, fun hperm => rearranged_unionOf hperm horderly,
    ⟨?_, wellFormed_iff.mpr ht.widen, ht.widen.normal, hasLiteral_widen ht.normal⟩,
    ⟨?_, wellFormed_iff.mpr ht.nonNullable, ht.nonNullable.normal⟩⟩
  · by_cases hnever : unionOf types = never
    · exact .inl hnever
    cases hunion : (unionOf types).isUnion with
    | false => exact .inr (.inl ⟨rfl, unionOf_ne_any hnormal hany, hnever⟩)
    | true =>
      cases hshape : unionOf types with
      | union members => exact .inr (.inr ⟨members, rfl, isNormal_unionOf hnormal members hshape⟩)
      | _ =>
        rw [hshape] at hunion
        cases hunion
  · exact widen_eq_self ht.widen.normal (hasLiteral_widen ht.normal)
  · exact nonNullable_eq_self ht.nonNullable.normal (isNullish_of_mem_nonNullable ht.normal)

/-- A literal, its primitive and `null`, and a number that may be missing. -/
theorem union_normal_form_optional :
    let types : List Ty := [literal (.string "a"), string, null]
    let optional : Ty := union [literal (.number "1"), null]
    ((∀ t ∈ types, t.WellFormed) ∧ optional.WellFormed) ∧
    Rearranged (unionOf types) (unionOf types.reverse) ∧ optional.widen.widen = optional.widen ∧ optional.widen.hasLiteral = false := by
  intro types optional
  have hword (word : Syntax.KeywordType) : (keyword word).WellFormed := wellFormed_iff.mpr (.keyword word)
  have hliteral (value : Syntax.LiteralType) : (literal value).WellFormed :=
    .single rfl (by rintro o ⟨⟩) fun _ hc => by cases hc
  have htypes : ∀ t ∈ types, t.WellFormed := by simp [types, hword, hliteral]
  have hnormal : Normal [literal (.number "1"), null] :=
    ⟨by simp, by simp [isUnion], by decide +kernel, by decide +kernel⟩
  have hoptional : optional.WellFormed := by
    have hunion : unionOf [literal (.number "1"), null] = optional := hnormal.unionOf_eq
    exact hunion ▸ .union (by simp [hword, hliteral])
  obtain ⟨-, -, -, hreverse, ⟨hagain, -, -, hwide⟩, -⟩ := union_normal_form types types.reverse optional htypes hoptional
  exact ⟨⟨htypes, hoptional⟩, hreverse (List.reverse_perm types).symm, hagain, hwide⟩

end Ty
end Recheck
