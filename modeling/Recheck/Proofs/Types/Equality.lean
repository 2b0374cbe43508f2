import Mathlib.Data.List.Nodup
import Recheck.Proofs.Types.Objects
import Recheck.Proofs.Types.Unions

/-!
# Equality of types

Two types are equal when they are built alike from equal types, where the properties of objects may come in any order. On the
types that the checker makes this is an equivalence. Transitivity needs nothing (`Ty.beq_trans`), but a type equals itself, and
equality can be turned around, only because objects list each property once.
-/

set_option autoImplicit false

namespace Recheck

/-! ## Related lists and options -/

theorem forall₂_of_mem {α β : Type} {R S : α → β → Prop} {as : List α} {bs : List β} (h : List.Forall₂ R as bs)
    (himp : ∀ a ∈ as, ∀ b ∈ bs, R a b → S a b) : List.Forall₂ S as bs := by
  induction h with
  | nil => exact .nil
  | cons hab _ ih =>
    refine .cons (himp _ List.mem_cons_self _ List.mem_cons_self hab) (ih fun a ha b hb => ?_)
    exact himp a (List.mem_cons_of_mem _ ha) b (List.mem_cons_of_mem _ hb)

theorem exists_of_forall₂ {α β : Type} {R : α → β → Prop} {as : List α} {bs : List β} (h : List.Forall₂ R as bs) {a : α}
    (ha : a ∈ as) : ∃ b ∈ bs, R a b := by
  induction h with
  | nil => cases ha
  | cons hab _ ih =>
    rcases List.mem_cons.mp ha with rfl | ha
    · exact ⟨_, List.mem_cons_self, hab⟩
    · obtain ⟨b, hb, hr⟩ := ih ha
      exact ⟨b, List.mem_cons_of_mem _ hb, hr⟩

theorem forall₂_comp_of_mem {α : Type} {R S : α → α → Prop} {as bs cs : List α} (h : List.Forall₂ R as bs)
    (h' : List.Forall₂ R bs cs) (hcomp : ∀ a ∈ as, ∀ b c, R a b → R b c → S a c) : List.Forall₂ S as cs := by
  induction h generalizing cs with
  | nil =>
    cases h'
    exact .nil
  | cons hab _ ih =>
    cases h' with
    | cons hbc hrest =>
      exact .cons (hcomp _ List.mem_cons_self _ _ hab hbc) (ih hrest fun a ha => hcomp a (List.mem_cons_of_mem _ ha))

theorem rel_comp_of_mem {α : Type} {R S : α → α → Prop} {a b c : Option α} (h : Option.Rel R a b) (h' : Option.Rel R b c)
    (hcomp : ∀ x, a = some x → ∀ y z, R x y → R y z → S x z) : Option.Rel S a c := by
  cases h with
  | none =>
    cases h'
    exact .none
  | some hxy =>
    cases h' with
    | some hyz => exact .some (hcomp _ rfl _ _ hxy hyz)

theorem rel_of_mem {α β : Type} {R S : α → β → Prop} {a : Option α} {b : Option β} (h : Option.Rel R a b)
    (himp : ∀ x, a = some x → ∀ y, b = some y → R x y → S x y) : Option.Rel S a b := by
  cases h with
  | some hxy => exact .some (himp _ rfl _ rfl hxy)
  | none => exact .none

theorem rel_flip {α β : Type} {R : α → β → Prop} {a : Option α} {b : Option β} (h : Option.Rel R a b) :
    Option.Rel (fun y x => R x y) b a := by
  cases h with
  | some hxy => exact .some hxy
  | none => exact .none

/-! ## Types that the checker makes -/

namespace Ty

/-- A type as the checker makes it: all unions in it, however deep, are made by `unionOf`, and all objects in it list each
property once. -/
inductive WellFormed : Ty → Prop
  | single {t : Ty} (single : t.isUnion = false) (distinct : ∀ o, t = object o → o.Distinct)
      (parts : ∀ c ∈ t.components, WellFormed c) : WellFormed t
  | union {types : List Ty} (h : ∀ t ∈ types, WellFormed t) : WellFormed (unionOf types)

/-- All unions in the type are in normal form, and all objects in it list each property once. -/
inductive Orderly : Ty → Prop
  | intro {t : Ty} (normal : t.IsNormal) (distinct : ∀ o, t = object o → o.Distinct) (parts : ∀ c ∈ t.components, Orderly c) :
      Orderly t

namespace Orderly

variable {t c : Ty} {types members : List Ty}

theorem normal (h : t.Orderly) : t.IsNormal := by
  cases h with
  | intro normal => exact normal

theorem distinct {o : ObjectTy} (h : (object o).Orderly) : o.Distinct := by
  cases h with
  | intro _ distinct => exact distinct o rfl

theorem part (h : t.Orderly) (hc : c ∈ t.components) : c.Orderly := by
  cases h with
  | intro _ _ parts => exact parts c hc

theorem keyword (word : Syntax.KeywordType) : (Ty.keyword word).Orderly :=
  .intro (isNormal_of_single rfl) (by rintro o ⟨⟩) fun _ hc => by cases hc

theorem union (hnormal : Normal members) (h : ∀ m ∈ members, m.Orderly) : (Ty.union members).Orderly := by
  refine .intro ?_ (by rintro o ⟨⟩) h
  intro members' heq
  obtain rfl := Ty.union.inj heq
  exact hnormal

theorem alternatives (h : t.Orderly) : ∀ m ∈ t.alternatives, m.Orderly := by
  intro m hm
  rcases mem_alternatives hm with rfl | ⟨members, rfl, hm⟩
  · exact h
  · exact h.part hm

theorem flatMap_alternatives (h : ∀ t ∈ types, t.Orderly) : ∀ m ∈ types.flatMap Ty.alternatives, m.Orderly := by
  intro m hm
  obtain ⟨t, ht, hm⟩ := List.mem_flatMap.mp hm
  exact (h t ht).alternatives m hm

theorem unionOf (h : ∀ t ∈ types, t.Orderly) : (Ty.unionOf types).Orderly :=
  unionOf_induction (fun t ht => (h t ht).normal) (.keyword .any) (.keyword .never) (flatMap_alternatives h) fun _ => .union

end Orderly

/-- To have all unions made by `unionOf` is to have them in normal form. -/
theorem wellFormed_iff {t : Ty} : t.WellFormed ↔ t.Orderly := by
  constructor
  · intro h
    induction h with
    | single single distinct _ ih => exact .intro (isNormal_of_single single) distinct ih
    | union _ ih => exact .unionOf ih
  · intro h
    induction h with
    | @intro t normal distinct _ ih =>
      cases hunion : t.isUnion with
      | false => exact .single hunion distinct ih
      | true =>
        cases t with
        | union members => exact (normal members rfl).unionOf_eq ▸ .union ih
        | _ => cases hunion

end Ty

/-! ## Equality part by part -/

theorem Ty.sameAll_iff {as bs : List Ty} : Ty.sameAll as bs = true ↔ List.Forall₂ (fun a b => (a == b) = true) as bs := by
  induction as generalizing bs with
  | nil => cases bs <;> simp [Ty.sameAll]
  | cons a as ih =>
    cases bs with
    | nil => simp [Ty.sameAll]
    | cons b bs =>
      rw [Ty.sameAll, Bool.and_eq_true, ih, List.forall₂_cons]
      rfl

theorem Ty.same?_iff {a b : Option Ty} : Ty.same? a b = true ↔ Option.Rel (fun a b => (a == b) = true) a b := by
  cases a <;> cases b <;> simp [Ty.same?]
  rfl

/-- Parameters with the same name and the same marks, and related types. -/
structure ParamTy.Rel (R : Ty → Ty → Prop) (p q : ParamTy) : Prop where
  name : p.name = q.name
  type : R p.type q.type
  optional : p.optional = q.optional
  rest : p.rest = q.rest

theorem ParamTy.sameAll_iff {as bs : List ParamTy} :
    ParamTy.sameAll as bs = true ↔ List.Forall₂ (ParamTy.Rel fun a b => (a == b) = true) as bs := by
  induction as generalizing bs with
  | nil => cases bs <;> simp [ParamTy.sameAll]
  | cons a as ih =>
    cases bs with
    | nil =>
      cases a
      simp [ParamTy.sameAll]
    | cons b bs =>
      obtain ⟨name, type, optional, rest⟩ := a
      simp only [ParamTy.sameAll, Bool.and_eq_true, decide_eq_true_eq, ih, List.forall₂_cons]
      refine and_congr_left fun _ => ?_
      constructor
      · rintro ⟨⟨⟨hname, htype⟩, hoptional⟩, hrest⟩
        exact ⟨hname, htype, hoptional, hrest⟩
      · rintro ⟨hname, htype, hoptional, hrest⟩
        exact ⟨⟨⟨hname, htype⟩, hoptional⟩, hrest⟩

namespace Ty

section

variable {a t : Ty} {as : List Ty} {o : ObjectTy} {f : FunctionTy}

theorem array_beq : (array a == t) = true ↔ ∃ b, t = array b ∧ (a == b) = true := by
  change same (array a) t = true ↔ ∃ b, t = array b ∧ same a b = true
  cases t <;> simp [same]

theorem tuple_beq : (tuple as == t) = true ↔ ∃ bs, t = tuple bs ∧ List.Forall₂ (fun a b => (a == b) = true) as bs := by
  change same (tuple as) t = true ↔ _
  cases t <;> simp [same, sameAll_iff]

theorem union_beq : (union as == t) = true ↔ ∃ bs, t = union bs ∧ List.Forall₂ (fun a b => (a == b) = true) as bs := by
  change same (union as) t = true ↔ _
  cases t <;> simp [same, sameAll_iff]

/-- Each property of one object has an equal one in the other, and there are as many. -/
structure SameObject (o o' : ObjectTy) : Prop where
  name : o.name = o'.name
  length : o.properties.length = o'.properties.length
  properties : ∀ p ∈ o.properties, ∃ q, o'.property? p.name = some q ∧ (p.type == q.type) = true ∧ p.optional = q.optional
  index : Option.Rel (fun a b => (a == b) = true) o.index o'.index

theorem object_beq : (object o == t) = true ↔ ∃ o', t = object o' ∧ SameObject o o' := by
  change same (object o) t = true ↔ _
  cases t with
  | object o' =>
    obtain ⟨name, properties, index⟩ := o
    simp only [same, ObjectTy.same, Bool.and_eq_true, decide_eq_true_eq, PropertyTy.within_iff, same?_iff]
    constructor
    · rintro ⟨⟨⟨hname, hlength⟩, hproperties⟩, hindex⟩
      exact ⟨o', rfl, hname, hlength, hproperties, hindex⟩
    · rintro ⟨_, ⟨⟩, hname, hlength, hproperties, hindex⟩
      exact ⟨⟨⟨hname, hlength⟩, hproperties⟩, hindex⟩
  | _ => simp [same]

theorem function_beq : (function f == t) = true ↔
    ∃ g, t = function g ∧ List.Forall₂ (ParamTy.Rel fun a b => (a == b) = true) f.params g.params ∧ (f.ret == g.ret) = true := by
  change same (function f) t = true ↔ ∃ g : FunctionTy, _ ∧ _ ∧ same f.ret g.ret = true
  obtain ⟨params, ret⟩ := f
  cases t <;> simp [same, FunctionTy.same, ParamTy.sameAll_iff]

end

theorem isUnion_of_beq {s t : Ty} (h : (s == t) = true) : s.isUnion = t.isUnion := by
  change same s t = true at h
  cases s <;> cases t <;> simp [same, isUnion] at h ⊢

/-! ## Equality is an equivalence -/

section

variable {s t u : Ty}

/-- Induction over what types consist of. -/
theorem components_induction {P : Ty → Prop} (step : ∀ t, (∀ c ∈ t.components, P c) → P t) (t : Ty) : P t := by
  induction h : t.height using Nat.strongRecOn generalizing t with
  | ind n ih =>
    subst h
    exact step t fun c hc => ih c.height (height_lt hc) c rfl

theorem property?_of_mem {o : ObjectTy} (ho : o.Distinct) {p : PropertyTy} (hp : p ∈ o.properties) :
    o.property? p.name = some p := by
  obtain ⟨q, hq⟩ := Option.isSome_iff_exists.mp (PropertyTy.isSome_find? (List.mem_map_of_mem hp))
  obtain ⟨hmem, hname⟩ := PropertyTy.of_find? hq
  rw [List.inj_on_of_nodup_map ho hmem hp hname] at hq
  exact hq

theorem beq_refl (h : t.Orderly) : (t == t) = true := by
  induction h with
  | @intro t normal distinct parts ih =>
    cases t with
    | keyword word => simp
    | literal value => simp
    | array element => exact array_beq.mpr ⟨_, rfl, ih element List.mem_cons_self⟩
    | tuple elements => exact tuple_beq.mpr ⟨_, rfl, List.forall₂_same.mpr ih⟩
    | union members => exact union_beq.mpr ⟨_, rfl, List.forall₂_same.mpr ih⟩
    | object o =>
      refine object_beq.mpr ⟨o, rfl, rfl, rfl, fun p hp => ?_, ?_⟩
      · exact ⟨p, property?_of_mem (distinct o rfl) hp, ih _ (ObjectTy.type_mem_components hp), rfl⟩
      · cases hindex : o.index with
        | none => exact .none
        | some index => exact .some (ih _ (ObjectTy.index_mem_components hindex))
    | function f =>
      refine function_beq.mpr ⟨f, rfl, List.forall₂_same.mpr fun p hp => ?_, ih _ FunctionTy.ret_mem_components⟩
      exact ⟨rfl, ih _ (FunctionTy.type_mem_components hp), rfl, rfl⟩

theorem beq_symm (hs : s.Orderly) (ht : t.Orderly) (h : (s == t) = true) : (t == s) = true := by
  induction hs generalizing t with
  | @intro s normal distinct parts ih =>
    cases s with
    | keyword word =>
      obtain rfl := keyword_beq.mp h
      exact h
    | literal value =>
      obtain rfl := literal_beq.mp h
      exact h
    | array element =>
      obtain ⟨b, rfl, hb⟩ := array_beq.mp h
      exact array_beq.mpr ⟨_, rfl, ih element List.mem_cons_self (ht.part List.mem_cons_self) hb⟩
    | tuple elements =>
      obtain ⟨bs, rfl, hbs⟩ := tuple_beq.mp h
      refine tuple_beq.mpr ⟨_, rfl, (forall₂_of_mem hbs fun a ha b hb => ?_).flip⟩
      exact ih a ha (ht.part hb)
    | union members =>
      obtain ⟨bs, rfl, hbs⟩ := union_beq.mp h
      refine union_beq.mpr ⟨_, rfl, (forall₂_of_mem hbs fun a ha b hb => ?_).flip⟩
      exact ih a ha (ht.part hb)
    | object o =>
      obtain ⟨o', rfl, hsame⟩ := object_beq.mp h
      refine object_beq.mpr ⟨o, rfl, hsame.name.symm, hsame.length.symm, fun q hq => ?_, ?_⟩
      · -- The other object has no more names, and what it lists under a name is what was found there.
        obtain ⟨p, hp⟩ := Option.isSome_iff_exists.mp (ObjectTy.hasProperty_of_same (distinct o rfl) h hq)
        obtain ⟨hmem, hname⟩ := PropertyTy.of_find? hp
        obtain ⟨q', hq', htype, hoptional⟩ := hsame.properties p hmem
        rw [hname, property?_of_mem ht.distinct hq] at hq'
        obtain rfl := Option.some.inj hq'
        exact ⟨p, hp, ih _ (ObjectTy.type_mem_components hmem) (ht.part (ObjectTy.type_mem_components hq)) htype, hoptional.symm⟩
      · refine rel_flip (rel_of_mem hsame.index fun index hi index' hi' hbeq => ?_)
        exact ih index (ObjectTy.index_mem_components hi) (ht.part (ObjectTy.index_mem_components hi')) hbeq
    | function f =>
      obtain ⟨g, rfl, hparams, hret⟩ := function_beq.mp h
      refine function_beq.mpr ⟨f, rfl, (forall₂_of_mem hparams fun p hp q hq hpq => ?_).flip,
        ih _ FunctionTy.ret_mem_components (ht.part FunctionTy.ret_mem_components) hret⟩
      have htype := ih _ (FunctionTy.type_mem_components hp) (ht.part (FunctionTy.type_mem_components hq)) hpq.type
      exact ⟨hpq.name.symm, htype, hpq.optional.symm, hpq.rest.symm⟩

theorem beq_trans (h : (s == t) = true) (h' : (t == u) = true) : (s == u) = true := by
  induction s using components_induction generalizing t u with
  | step s ih =>
    cases s with
    | keyword word =>
      obtain rfl := keyword_beq.mp h
      exact h'
    | literal value =>
      obtain rfl := literal_beq.mp h
      exact h'
    | array element =>
      obtain ⟨b, rfl, hb⟩ := array_beq.mp h
      obtain ⟨c, rfl, hc⟩ := array_beq.mp h'
      exact array_beq.mpr ⟨c, rfl, ih element List.mem_cons_self hb hc⟩
    | tuple elements =>
      obtain ⟨bs, rfl, hbs⟩ := tuple_beq.mp h
      obtain ⟨cs, rfl, hcs⟩ := tuple_beq.mp h'
      exact tuple_beq.mpr ⟨cs, rfl, forall₂_comp_of_mem hbs hcs fun a ha b c => ih a ha⟩
    | union members =>
      obtain ⟨bs, rfl, hbs⟩ := union_beq.mp h
      obtain ⟨cs, rfl, hcs⟩ := union_beq.mp h'
      exact union_beq.mpr ⟨cs, rfl, forall₂_comp_of_mem hbs hcs fun a ha b c => ih a ha⟩
    | object o =>
      obtain ⟨o', rfl, hsame⟩ := object_beq.mp h
      obtain ⟨o'', rfl, hsame'⟩ := object_beq.mp h'
      refine object_beq.mpr ⟨o'', rfl, hsame.name.trans hsame'.name, hsame.length.trans hsame'.length, fun p hp => ?_, ?_⟩
      · obtain ⟨q, hq, htype, hoptional⟩ := hsame.properties p hp
        obtain ⟨hmem, hname⟩ := PropertyTy.of_find? hq
        obtain ⟨r, hr, htype', hoptional'⟩ := hsame'.properties q hmem
        exact ⟨r, hname ▸ hr, ih _ (ObjectTy.type_mem_components hp) htype htype', hoptional.trans hoptional'⟩
      · exact rel_comp_of_mem hsame.index hsame'.index fun index hi _ _ => ih index (ObjectTy.index_mem_components hi)
    | function f =>
      obtain ⟨g, rfl, hparams, hret⟩ := function_beq.mp h
      obtain ⟨k, rfl, hparams', hret'⟩ := function_beq.mp h'
      refine function_beq.mpr ⟨k, rfl, forall₂_comp_of_mem hparams hparams' fun p hp q r hpq hqr => ?_,
        ih _ FunctionTy.ret_mem_components hret hret'⟩
      have htype := ih _ (FunctionTy.type_mem_components hp) hpq.type hqr.type
      exact ⟨hpq.name.trans hqr.name, htype, hpq.optional.trans hqr.optional, hpq.rest.trans hqr.rest⟩

end

end Ty
end Recheck
