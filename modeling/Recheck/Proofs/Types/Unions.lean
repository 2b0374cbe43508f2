import Mathlib.Data.List.Forall2
import Recheck.Types.Show

/-!
# What unions are made of

`Ty.unionOf` takes unions apart, keeps what is left once each, drops the literals that stand beside their primitive, and puts the
rest together (`Ty.unionOf_eq`). Whether a literal is dropped depends only on the primitives among the types, and no primitive is
ever dropped. So dropping and keeping once each can be done in any order, in one go or bit by bit (`Ty.core_append_core`), and what
comes out is always in normal form (`Ty.normal_core`).
-/

set_option autoImplicit false

namespace Recheck

open Syntax (KeywordType LiteralType)

/-- What is true of the members of a union that `Ty.unionOf` has made. -/
structure Ty.Normal (members : List Ty) : Prop where
  several : 2 ≤ members.length
  flat : ∀ m ∈ members, m.isUnion = false ∧ m ≠ .any ∧ m ≠ .never
  distinct : members.Pairwise fun a b => (a == b) = false
  kept : ∀ m ∈ members, Ty.isAbsorbed members m = false

namespace Ty

/-! ## Equality with words and literals -/

section

variable {t : Ty} {word : KeywordType} {value : LiteralType}

@[simp] theorem beq_keyword : (t == keyword word) = true ↔ t = keyword word := by
  change same t (keyword word) = true ↔ _
  cases t <;> simp [same]

@[simp] theorem keyword_beq : (keyword word == t) = true ↔ t = keyword word := by
  change same (keyword word) t = true ↔ _
  cases t <;> simp [same, eq_comm]

@[simp] theorem keyword_beq_keyword {other : KeywordType} : (keyword word == keyword other) = decide (word = other) := by
  change same (keyword word) (keyword other) = _
  simp [same]

@[simp] theorem beq_literal : (t == literal value) = true ↔ t = literal value := by
  change same t (literal value) = true ↔ _
  cases t <;> simp [same]

@[simp] theorem literal_beq : (literal value == t) = true ↔ t = literal value := by
  change same (literal value) t = true ↔ _
  cases t <;> simp [same, eq_comm]

/-- The primitive of a literal is a word. -/
theorem ofLiteral_eq (value : LiteralType) : ∃ word, ofLiteral value = keyword word := by
  cases value with
  | string => exact ⟨.string, rfl⟩
  | number => exact ⟨.number, rfl⟩
  | bool => exact ⟨.boolean, rfl⟩

@[simp] theorem ofLiteral_beq : (ofLiteral value == t) = true ↔ t = ofLiteral value := by
  obtain ⟨word, hword⟩ := ofLiteral_eq value
  rw [hword]
  exact keyword_beq

end

/-! ## Each once -/

section

variable {types more : List Ty} {t u : Ty}

/-- The types, each once. -/
def unique (types : List Ty) : List Ty := types.foldl pushNew []

theorem mem_pushNew (h : u ∈ pushNew types t) : u ∈ types ∨ u = t := by
  unfold pushNew at h
  split at h
  · exact .inl h
  · simpa using h

theorem subset_pushNew : types ⊆ pushNew types t := by
  unfold pushNew
  split
  · exact List.Subset.refl _
  · exact List.subset_append_left _ _

/-- What is pushed is there, or an equal type is. -/
theorem exists_mem_pushNew (types : List Ty) (h : (t == t) = true) : ∃ m ∈ pushNew types t, (m == t) = true := by
  unfold pushNew
  split
  next hold => exact List.any_eq_true.mp hold
  next => exact ⟨t, by simp, h⟩

theorem foldl_pushNew_subset (types more : List Ty) : more.foldl pushNew types ⊆ types ++ more := by
  induction more generalizing types with
  | nil => simp
  | cons t more ih =>
    intro u hu
    rcases List.mem_append.mp (ih (pushNew types t) hu) with hu | hu
    · rcases mem_pushNew hu with hu | rfl
      · exact List.mem_append_left _ hu
      · simp
    · simp [hu]

theorem unique_subset (types : List Ty) : unique types ⊆ types := foldl_pushNew_subset [] types

theorem subset_foldl_pushNew (types more : List Ty) : types ⊆ more.foldl pushNew types := by
  induction more generalizing types with
  | nil => exact List.Subset.refl _
  | cons t more ih => exact fun u hu => ih _ (subset_pushNew hu)

/-- Nothing gets lost but for what equals something that stays. -/
theorem exists_mem_unique (h : t ∈ types) (ht : (t == t) = true) : ∃ m ∈ unique types, (m == t) = true := by
  suffices ∀ acc, ∃ m ∈ types.foldl pushNew acc, (m == t) = true from this []
  induction types with
  | nil => cases h
  | cons u rest ih =>
    intro acc
    rcases List.mem_cons.mp h with rfl | h
    · obtain ⟨m, hm, heq⟩ := exists_mem_pushNew acc ht
      exact ⟨m, subset_foldl_pushNew _ rest hm, heq⟩
    · exact ih h (pushNew acc u)

theorem pairwise_pushNew (h : types.Pairwise fun a b => (a == b) = false) :
    (pushNew types t).Pairwise fun a b => (a == b) = false := by
  unfold pushNew
  split
  · exact h
  next hnew =>
    refine List.pairwise_append.mpr ⟨h, List.pairwise_singleton _ _, fun a ha b hb => ?_⟩
    rw [List.mem_singleton.mp hb]
    rw [Bool.not_eq_true, List.any_eq_false] at hnew
    simpa using hnew a ha

theorem pairwise_unique (types : List Ty) : (unique types).Pairwise fun a b => (a == b) = false := by
  suffices ∀ acc : List Ty, acc.Pairwise (fun a b => (a == b) = false) →
      (types.foldl pushNew acc).Pairwise fun a b => (a == b) = false from this [] .nil
  induction types with
  | nil => exact fun _ h => h
  | cons t rest ih => exact fun acc h => ih _ (pairwise_pushNew h)

/-- Pushing types that are all new puts them behind the others. -/
theorem foldl_pushNew_of_pairwise (h : (types ++ more).Pairwise fun a b => (a == b) = false) :
    more.foldl pushNew types = types ++ more := by
  induction more generalizing types with
  | nil => simp
  | cons t more ih =>
    have hnew : pushNew types t = types ++ [t] := by
      unfold pushNew
      rw [if_neg]
      simp only [List.any_eq_true, not_exists, not_and, Bool.not_eq_true]
      intro m hm
      exact (List.pairwise_append.mp h).2.2 m hm t List.mem_cons_self
    rw [List.foldl_cons, hnew, ih (by simpa using h)]
    simp

theorem unique_of_pairwise (h : types.Pairwise fun a b => (a == b) = false) : unique types = types :=
  foldl_pushNew_of_pairwise (show ([] ++ types).Pairwise _ from h)

theorem unique_append (types more : List Ty) : unique (types ++ more) = more.foldl pushNew (unique types) := List.foldl_append

theorem unique_unique_append (types more : List Ty) : unique (unique types ++ more) = unique (types ++ more) := by
  rw [unique_append, unique_append, unique_of_pairwise (pairwise_unique types)]

/-- A property that equal types share can be asked for before or after. -/
theorem filter_unique {p : Ty → Bool} (h : ∀ a b, (a == b) = true → p a = p b) (types : List Ty) :
    (unique types).filter p = unique (types.filter p) := by
  suffices ∀ acc, (types.foldl pushNew acc).filter p = (types.filter p).foldl pushNew (acc.filter p) from this []
  induction types with
  | nil => exact fun _ => rfl
  | cons t rest ih =>
    intro acc
    rw [List.foldl_cons, ih]
    by_cases ht : p t
    · rw [List.filter_cons_of_pos ht, List.foldl_cons]
      congr 1
      -- The types that equal `t` have the property as well, so they are found among those that have it.
      have hfound : (acc.filter p).any (· == t) = acc.any (· == t) := by
        rw [Bool.eq_iff_iff]
        simp only [List.any_eq_true, List.mem_filter]
        constructor
        · rintro ⟨m, ⟨hm, -⟩, heq⟩
          exact ⟨m, hm, heq⟩
        · rintro ⟨m, hm, heq⟩
          exact ⟨m, ⟨hm, by rw [h m t heq, ht]⟩, heq⟩
      unfold pushNew
      rw [hfound]
      split
      · rfl
      · simp [ht]
    · rw [List.filter_cons_of_neg ht]
      congr 1
      unfold pushNew
      split
      · rfl
      · simp [ht]

end

/-! ## Absorbed literals -/

section

variable {types more : List Ty} {t u : Ty}

theorem isAbsorbed_eq_true : isAbsorbed types t = true ↔ ∃ value, t = literal value ∧ ofLiteral value ∈ types := by
  cases t <;> simp [isAbsorbed, primitive?]

/-- Only the primitives among the types count. -/
theorem isAbsorbed_congr (h : ∀ word, keyword word ∈ types ↔ keyword word ∈ more) (t : Ty) :
    isAbsorbed types t = isAbsorbed more t := by
  rw [Bool.eq_iff_iff, isAbsorbed_eq_true, isAbsorbed_eq_true]
  refine exists_congr fun value => and_congr_right fun _ => ?_
  obtain ⟨word, hword⟩ := ofLiteral_eq value
  rw [hword]
  exact h word

/-- A member that nothing absorbs among more types is not absorbed among fewer. -/
theorem isAbsorbed_mono (hsub : types ⊆ more) (h : isAbsorbed more t = false) : isAbsorbed types t = false := by
  rw [← Bool.not_eq_true] at h ⊢
  rw [isAbsorbed_eq_true] at h ⊢
  rintro ⟨value, rfl, hmem⟩
  exact h ⟨value, rfl, hsub hmem⟩

theorem isAbsorbed_of_beq (h : (t == u) = true) : isAbsorbed types t = isAbsorbed types u := by
  by_cases hliteral : ∃ value, u = literal value
  · obtain ⟨value, rfl⟩ := hliteral
    rw [beq_literal.mp h]
  · have hother : ¬∃ value, t = literal value := by
      rintro ⟨value, rfl⟩
      exact hliteral ⟨value, literal_beq.mp h⟩
    rw [Bool.eq_iff_iff, isAbsorbed_eq_true, isAbsorbed_eq_true]
    constructor
    · rintro ⟨value, hvalue, -⟩
      exact absurd ⟨value, hvalue⟩ hother
    · rintro ⟨value, hvalue, -⟩
      exact absurd ⟨value, hvalue⟩ hliteral

/-- The types but for the literals that stand beside their primitive. -/
def strip (types : List Ty) : List Ty := types.filter fun t => !isAbsorbed types t

/-- Words are kept. -/
theorem keyword_mem_unique {word : KeywordType} : keyword word ∈ unique types ↔ keyword word ∈ types := by
  constructor
  · exact fun h => unique_subset types h
  · intro h
    obtain ⟨m, hm, heq⟩ := exists_mem_unique h (by simp)
    exact beq_keyword.mp heq ▸ hm

theorem keyword_mem_strip {word : KeywordType} : keyword word ∈ strip types ↔ keyword word ∈ types := by
  simp [strip, isAbsorbed, primitive?]

theorem strip_unique (types : List Ty) : strip (unique types) = unique (strip types) := by
  unfold strip
  rw [← filter_unique fun a b h => by rw [isAbsorbed_of_beq h]]
  refine List.filter_congr fun t _ => ?_
  rw [isAbsorbed_congr fun word => keyword_mem_unique]

end

/-! ## What is left -/

section

variable {types more : List Ty} {t u : Ty}

/-- What a union of the types, which are no unions, has for members. -/
def core (types : List Ty) : List Ty := unique (strip types)

theorem core_subset (types : List Ty) : core types ⊆ types := fun _ h => List.mem_of_mem_filter (unique_subset _ h)

theorem keyword_mem_core {word : KeywordType} : keyword word ∈ core types ↔ keyword word ∈ types :=
  keyword_mem_unique.trans keyword_mem_strip

/-- Each of the types is left, or an equal one is, or it is a literal whose primitive is left. -/
theorem exists_mem_core (h : t ∈ types) (ht : (t == t) = true) :
    ∃ m ∈ core types, (m == t) = true ∨ ∃ value, t = literal value ∧ m = ofLiteral value := by
  by_cases habsorbed : isAbsorbed types t
  · obtain ⟨value, rfl, hmem⟩ := isAbsorbed_eq_true.mp habsorbed
    obtain ⟨word, hword⟩ := ofLiteral_eq value
    exact ⟨ofLiteral value, by rwa [hword, keyword_mem_core, ← hword], .inr ⟨value, rfl, rfl⟩⟩
  · have hkept : t ∈ strip types := by simp [strip, h, habsorbed]
    obtain ⟨m, hm, heq⟩ := exists_mem_unique hkept ht
    exact ⟨m, hm, .inl heq⟩

theorem isAbsorbed_core (h : t ∈ core types) : isAbsorbed (core types) t = false := by
  have hkept := (List.mem_filter.mp (unique_subset _ h)).2
  exact isAbsorbed_mono (core_subset types) (by simpa using hkept)

theorem core_of_kept (hdistinct : types.Pairwise fun a b => (a == b) = false) (hkept : ∀ t ∈ types, isAbsorbed types t = false) :
    core types = types := by
  have hstrip : strip types = types := List.filter_eq_self.mpr fun t ht => by simp [hkept t ht]
  rw [core, hstrip, unique_of_pairwise hdistinct]

/-- To take what is left of some types first makes no difference to what is left of them and others. -/
theorem core_append_core (types more : List Ty) : core (core types ++ more) = core (types ++ more) := by
  -- Both sides drop the same literals.
  have hsame (t : Ty) : isAbsorbed (core types ++ more) t = isAbsorbed (types ++ more) t :=
    isAbsorbed_congr (fun word => by simp [keyword_mem_core]) t
  let keep := fun t => !isAbsorbed (types ++ more) t
  have hkeep (a b : Ty) (h : (a == b) = true) : keep a = keep b := by simp [keep, isAbsorbed_of_beq h]
  have hfirst : (core types).filter keep = unique (types.filter keep) := by
    rw [core, filter_unique hkeep, strip, List.filter_filter]
    congr 1
    refine List.filter_congr fun t _ => ?_
    -- What is kept among all is kept among some.
    by_cases h : isAbsorbed (types ++ more) t = true
    · simp [keep, h]
    · simp [keep, h, isAbsorbed_mono (List.subset_append_left types more) (Bool.eq_false_iff.mpr h)]
  have hleft : strip (core types ++ more) = unique (types.filter keep) ++ more.filter keep := by
    rw [← hfirst, ← List.filter_append]
    exact List.filter_congr fun t _ => by rw [hsame]
  have hright : strip (types ++ more) = types.filter keep ++ more.filter keep := List.filter_append ..
  change unique (strip (core types ++ more)) = unique (strip (types ++ more))
  rw [hleft, hright, unique_unique_append]

end

/-! ## Taking apart and putting together -/

/-- The types that a union consists of; any other type stands for itself, and `never` for none. -/
def alternatives : Ty → List Ty
  | never => []
  | union members => members
  | t => [t]

/-- The union that has these members, which are in normal form if there are several. -/
def ofAlternatives : List Ty → Ty
  | [] => never
  | [t] => t
  | members => union members

section

variable {types members : List Ty} {t m : Ty}

theorem alternatives_of_flat (hunion : t.isUnion = false) (hnever : t ≠ never) : t.alternatives = [t] := by
  cases t with
  | keyword word =>
    cases word with
    | never => exact absurd rfl hnever
    | _ => rfl
  | union => cases hunion
  | _ => rfl

/-- What a type is taken apart into is the type itself or a member of it. -/
theorem mem_alternatives (h : m ∈ t.alternatives) : m = t ∨ ∃ members, t = union members ∧ m ∈ members := by
  cases t with
  | keyword word =>
    cases word with
    | never => cases h
    | _ => exact .inl (List.mem_singleton.mp h)
  | union members => exact .inr ⟨members, rfl, h⟩
  | _ => exact .inl (List.mem_singleton.mp h)

theorem addMember_eq (types : List Ty) (t : Ty) : addMember types t = t.alternatives.foldl pushNew types := by
  cases t with
  | keyword word => cases word <;> rfl
  | _ => rfl

theorem flatten_eq (types : List Ty) : flatten types = unique (types.flatMap alternatives) := by
  have hadd : addMember = fun types t => t.alternatives.foldl pushNew types := funext fun types => funext (addMember_eq types)
  rw [flatten, unique, List.foldl_flatMap, hadd]

theorem unionOf_of_any (h : any ∈ types) : unionOf types = any := by
  unfold unionOf
  rw [if_pos (List.any_eq_true.mpr ⟨any, h, rfl⟩)]

/-- How a union is made. -/
theorem unionOf_eq (h : any ∉ types) : unionOf types = ofAlternatives (core (types.flatMap alternatives)) := by
  unfold unionOf
  split
  next hany =>
    obtain ⟨t, ht, hmatch⟩ := List.any_eq_true.mp hany
    split at hmatch
    · exact absurd ht h
    · cases hmatch
  next =>
    dsimp only
    rw [flatten_eq, core, ← strip_unique, strip]
    generalize List.filter _ _ = left
    cases left with
    | nil => rfl
    | cons first rest => cases rest <;> rfl

/-- Types that are no unions, and neither `any` nor `never`. -/
def Flat (types : List Ty) : Prop := ∀ m ∈ types, m.isUnion = false ∧ m ≠ any ∧ m ≠ never

theorem Flat.subset {more : List Ty} (h : Flat more) (hsub : types ⊆ more) : Flat types := fun m hm => h m (hsub hm)

theorem alternatives_ofAlternatives (h : Flat types) : (ofAlternatives types).alternatives = types := by
  cases types with
  | nil => rfl
  | cons first rest =>
    cases rest with
    | nil => exact alternatives_of_flat (h first List.mem_cons_self).1 (h first List.mem_cons_self).2.2
    | cons => rfl

/-- What is left of flat types is as it has to be. -/
theorem normal_core (h : Flat types) (hseveral : 2 ≤ (core types).length) : Normal (core types) where
  several := hseveral
  flat := h.subset (core_subset types)
  distinct := pairwise_unique _
  kept := fun _ hm => isAbsorbed_core hm

theorem Normal.core_eq (h : Normal members) : core members = members := core_of_kept h.distinct h.kept

theorem Normal.ofAlternatives_eq (h : Normal members) : ofAlternatives members = union members := by
  have hseveral := h.several
  cases members with
  | nil => simp at hseveral
  | cons first rest =>
    cases rest with
    | nil => simp at hseveral
    | cons => rfl

/-- Flat types stand for themselves. -/
theorem flatMap_alternatives (h : Flat types) : types.flatMap alternatives = types := by
  induction types with
  | nil => rfl
  | cons t rest ih =>
    obtain ⟨hunion, -, hnever⟩ := h t List.mem_cons_self
    rw [List.flatMap_cons, alternatives_of_flat hunion hnever, ih (h.subset (List.subset_cons_self t rest)), List.singleton_append]

/-- Such members are a union as they are. -/
theorem Normal.unionOf_eq (h : Normal members) : unionOf members = union members := by
  have hflat : Flat members := h.flat
  rw [Ty.unionOf_eq fun hany => (h.flat any hany).2.1 rfl, flatMap_alternatives hflat, h.core_eq, h.ofAlternatives_eq]

/-! ## Types in normal form -/

/-- If the type is a union, its members are as `unionOf` leaves them. -/
def IsNormal (t : Ty) : Prop := ∀ members, t = union members → Normal members

theorem isNormal_of_single (h : t.isUnion = false) : IsNormal t := by
  rintro members rfl
  cases h

theorem isNormal_ofAlternatives (hflat : Flat types) (h : 2 ≤ types.length → Normal types) : IsNormal (ofAlternatives types) := by
  cases types with
  | nil => exact isNormal_of_single rfl
  | cons first rest =>
    cases rest with
    | nil => exact isNormal_of_single (hflat first List.mem_cons_self).1
    | cons second rest =>
      intro members heq
      obtain rfl : first :: second :: rest = members := Ty.union.inj heq
      exact h (by simp)

/-- Types in normal form are taken apart into flat types. -/
theorem IsNormal.flat_alternatives (h : IsNormal t) (hany : t ≠ any) : Flat t.alternatives := by
  intro m hm
  cases hunion : t.isUnion with
  | true =>
    cases t with
    | union members => exact (h members rfl).flat m hm
    | _ => cases hunion
  | false =>
    by_cases hnever : t = never
    · subst hnever
      cases hm
    · rw [alternatives_of_flat hunion hnever] at hm
      obtain rfl := List.mem_singleton.mp hm
      exact ⟨hunion, hany, hnever⟩

end

section

variable {types more : List Ty} {t : Ty}

theorem flat_flatMap (h : ∀ t ∈ types, t.IsNormal) (hany : any ∉ types) : Flat (types.flatMap alternatives) := by
  intro m hm
  obtain ⟨t, ht, hm⟩ := List.mem_flatMap.mp hm
  refine (h t ht).flat_alternatives ?_ m hm
  rintro rfl
  exact hany ht

/-- The members of a union are what is left of the alternatives. -/
theorem alternatives_unionOf (h : ∀ t ∈ types, t.IsNormal) (hany : any ∉ types) :
    (unionOf types).alternatives = core (types.flatMap alternatives) := by
  rw [unionOf_eq hany]
  exact alternatives_ofAlternatives ((flat_flatMap h hany).subset (core_subset _))

theorem isNormal_unionOf (h : ∀ t ∈ types, t.IsNormal) : (unionOf types).IsNormal := by
  by_cases hany : any ∈ types
  · rw [unionOf_of_any hany]
    exact isNormal_of_single rfl
  · have hflat := flat_flatMap h hany
    rw [unionOf_eq hany]
    exact isNormal_ofAlternatives (hflat.subset (core_subset _)) (normal_core hflat)

theorem unionOf_ne_any (h : ∀ t ∈ types, t.IsNormal) (hany : any ∉ types) : unionOf types ≠ any := by
  intro heq
  have halternatives := alternatives_unionOf h hany
  rw [heq] at halternatives
  have hmem : any ∈ core (types.flatMap alternatives) := halternatives ▸ List.mem_cons_self
  exact (flat_flatMap h hany any (core_subset _ hmem)).2.1 rfl

/-- What is true of `any`, of `never` and of all members, and is kept when members in normal form become a union, is true of the
union of some types. -/
theorem unionOf_induction {P : Ty → Prop} (h : ∀ t ∈ types, t.IsNormal) (hany : P any) (hnever : P never)
    (hmember : ∀ m ∈ types.flatMap alternatives, P m)
    (hunion : ∀ members, Normal members → (∀ m ∈ members, P m) → P (union members)) : P (unionOf types) := by
  by_cases hmem : any ∈ types
  · rw [unionOf_of_any hmem]
    exact hany
  · rw [unionOf_eq hmem]
    have hleft (m : Ty) (hm : m ∈ core (types.flatMap alternatives)) : P m := hmember m (core_subset _ hm)
    have hnormal := normal_core (flat_flatMap h hmem)
    revert hleft hnormal
    generalize core (types.flatMap alternatives) = left
    intro hleft hnormal
    cases left with
    | nil => exact hnever
    | cons first rest =>
      cases rest with
      | nil => exact hleft first List.mem_cons_self
      | cons second rest => exact hunion _ (hnormal (by simp)) hleft

/-- A union in a union is the union of all of them. -/
theorem unionOf_unionOf_cons (h : ∀ t ∈ types, t.IsNormal) (more : List Ty) :
    unionOf (unionOf types :: more) = unionOf (types ++ more) := by
  by_cases hany : any ∈ types
  · rw [unionOf_of_any hany, unionOf_of_any List.mem_cons_self, unionOf_of_any (List.mem_append_left _ hany)]
  · by_cases hmore : any ∈ more
    · rw [unionOf_of_any (List.mem_cons_of_mem _ hmore), unionOf_of_any (List.mem_append_right _ hmore)]
    · have hleft : any ∉ unionOf types :: more := by
        rw [List.mem_cons, not_or]
        exact ⟨(unionOf_ne_any h hany).symm, hmore⟩
      have hright : any ∉ types ++ more := by
        rw [List.mem_append, not_or]
        exact ⟨hany, hmore⟩
      rw [unionOf_eq hleft, unionOf_eq hright, List.flatMap_cons, alternatives_unionOf h hany, core_append_core, List.flatMap_append]

end

end Ty
end Recheck
