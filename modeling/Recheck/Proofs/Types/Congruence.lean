import Recheck.Proofs.Types.Equality

/-!
# Assignability of equal types

Assignability cannot tell equal types apart, to any depth and on both sides (`Ty.assignableWithin_congr`). The rules compare
parameters in both directions, so one side cannot be treated without the other. Of a type that stays what it is nothing is asked;
where a type is replaced by an equal one, both have to be as the checker makes them.
-/

set_option autoImplicit false

namespace Recheck

namespace Ty

variable {s s' t t' : Ty}

/-! ## Alike types -/

/-- The types are the same, or they are equal and both as the checker makes them. -/
def Alike (s t : Ty) : Prop := s = t ∨ (s == t) = true ∧ s.Orderly ∧ t.Orderly

/-- Object types with alike properties under the same names. -/
structure AlikeObject (o o' : ObjectTy) : Prop where
  listed : ∀ q ∈ o'.properties, ∃ p ∈ o.properties, p.name = q.name ∧ p.optional = q.optional ∧ Alike p.type q.type
  found : ∀ name, Option.Rel (fun p q => Alike p.type q.type) (o.property? name) (o'.property? name)
  index : Option.Rel Alike o.index o'.index

/-- Types that are built in the same way from alike types. -/
inductive Matches : Ty → Ty → Prop
  | keyword (word : Syntax.KeywordType) : Matches (keyword word) (keyword word)
  | literal (value : Syntax.LiteralType) : Matches (literal value) (literal value)
  | array {a b : Ty} (h : Alike a b) : Matches (array a) (array b)
  | tuple {as bs : List Ty} (h : List.Forall₂ Alike as bs) : Matches (tuple as) (tuple bs)
  | union {as bs : List Ty} (h : List.Forall₂ Alike as bs) : Matches (union as) (union bs)
  | object {o o' : ObjectTy} (h : AlikeObject o o') : Matches (object o) (object o')
  | function {f g : FunctionTy} (params : List.Forall₂ (ParamTy.Rel Alike) f.params g.params) (ret : Alike f.ret g.ret) :
      Matches (function f) (function g)

namespace Alike

theorem refl (t : Ty) : Alike t t := .inl rfl

theorem symm (h : Alike s t) : Alike t s := by
  rcases h with rfl | ⟨hbeq, hs, ht⟩
  · exact .refl s
  · exact .inr ⟨beq_symm hs ht hbeq, ht, hs⟩

/-- What equals a type equals what is alike. -/
theorem beq (hs : Alike s s') (ht : Alike t t') (h : (s == t) = true) : (s' == t') = true := by
  have hleft : (s' == t) = true := by
    rcases hs with rfl | ⟨hbeq, hs, hs'⟩
    · exact h
    · exact beq_trans (beq_symm hs hs' hbeq) h
  rcases ht with rfl | ⟨hbeq, -, -⟩
  · exact hleft
  · exact beq_trans hleft hbeq

theorem rel_refl {α : Type} {R : α → α → Prop} (h : ∀ a, R a a) (a : Option α) : Option.Rel R a a := by
  cases a with
  | none => exact .none
  | some a => exact .some (h a)

theorem matches_refl (t : Ty) : Matches t t := by
  cases t with
  | keyword word => exact .keyword word
  | literal value => exact .literal value
  | array element => exact .array (.refl element)
  | tuple elements => exact .tuple (List.forall₂_same.mpr fun t _ => .refl t)
  | union members => exact .union (List.forall₂_same.mpr fun t _ => .refl t)
  | object o =>
    exact .object ⟨fun p hp => ⟨p, hp, rfl, rfl, .refl _⟩, fun _ => rel_refl (fun p => .refl p.type) _, rel_refl .refl _⟩
  | function f => exact .function (List.forall₂_same.mpr fun p _ => ⟨rfl, .refl p.type, rfl, rfl⟩) (.refl f.ret)

theorem alikeObject {o o' : ObjectTy} (ho : (Ty.object o).Orderly) (ho' : (Ty.object o').Orderly)
    (h : (Ty.object o == Ty.object o') = true) : AlikeObject o o' := by
  obtain ⟨_, ⟨⟩, hsame⟩ := object_beq.mp h
  obtain ⟨_, ⟨⟩, hback⟩ := object_beq.mp (beq_symm ho ho' h)
  have hpart {p q : PropertyTy} (hp : p ∈ o.properties) (hq : q ∈ o'.properties) (hpq : (p.type == q.type) = true) :
      Alike p.type q.type :=
    .inr ⟨hpq, ho.part (ObjectTy.type_mem_components hp), ho'.part (ObjectTy.type_mem_components hq)⟩
  refine ⟨fun q hq => ?_, fun name => ?_, rel_of_mem hsame.index fun index hi index' hi' hbeq => ?_⟩
  · obtain ⟨p, hp, hbeq, hoptional⟩ := hback.properties q hq
    obtain ⟨hmem, hname⟩ := PropertyTy.of_find? hp
    have htype : Alike q.type p.type :=
      .inr ⟨hbeq, ho'.part (ObjectTy.type_mem_components hq), ho.part (ObjectTy.type_mem_components hmem)⟩
    exact ⟨p, hmem, hname, hoptional.symm, htype.symm⟩
  · cases hp : o.property? name with
    | some p =>
      obtain ⟨hmem, rfl⟩ := PropertyTy.of_find? hp
      obtain ⟨q, hq, hbeq, -⟩ := hsame.properties p hmem
      rw [hq]
      exact .some (hpart hmem (PropertyTy.of_find? hq).1 hbeq)
    | none =>
      cases hq : o'.property? name with
      | none => exact .none
      | some q =>
        obtain ⟨hmem, rfl⟩ := PropertyTy.of_find? hq
        obtain ⟨p, hfound, -⟩ := hback.properties q hmem
        rw [hp] at hfound
        cases hfound
  · exact .inr ⟨hbeq, ho.part (ObjectTy.index_mem_components hi), ho'.part (ObjectTy.index_mem_components hi')⟩

/-- Alike types are built in the same way. -/
theorem shape (h : Alike s t) : Matches s t := by
  rcases h with rfl | ⟨hbeq, hs, ht⟩
  · exact matches_refl s
  have hparts {as bs : List Ty} (h : List.Forall₂ (fun a b => (a == b) = true) as bs) (has : ∀ a ∈ as, a.Orderly)
      (hbs : ∀ b ∈ bs, b.Orderly) : List.Forall₂ Alike as bs :=
    forall₂_of_mem h fun a ha b hb hab => .inr ⟨hab, has a ha, hbs b hb⟩
  cases s with
  | keyword word => exact keyword_beq.mp hbeq ▸ .keyword word
  | literal value => exact literal_beq.mp hbeq ▸ .literal value
  | array element =>
    obtain ⟨b, rfl, hb⟩ := array_beq.mp hbeq
    exact .array (.inr ⟨hb, hs.part List.mem_cons_self, ht.part List.mem_cons_self⟩)
  | tuple elements =>
    obtain ⟨bs, rfl, hbs⟩ := tuple_beq.mp hbeq
    exact .tuple (hparts hbs (fun _ h => hs.part h) fun _ h => ht.part h)
  | union members =>
    obtain ⟨bs, rfl, hbs⟩ := union_beq.mp hbeq
    exact .union (hparts hbs (fun _ h => hs.part h) fun _ h => ht.part h)
  | object o =>
    obtain ⟨o', rfl, -⟩ := object_beq.mp hbeq
    exact .object (alikeObject hs ht hbeq)
  | function f =>
    obtain ⟨g, rfl, hparams, hret⟩ := function_beq.mp hbeq
    refine .function (forall₂_of_mem hparams fun p hp q hq hpq => ⟨hpq.name, ?_, hpq.optional, hpq.rest⟩) ?_
    · exact .inr ⟨hpq.type, hs.part (FunctionTy.type_mem_components hp), ht.part (FunctionTy.type_mem_components hq)⟩
    · exact .inr ⟨hret, hs.part FunctionTy.ret_mem_components, ht.part FunctionTy.ret_mem_components⟩

theorem eq_keyword {word : Syntax.KeywordType} (h : Alike (keyword word) t) : t = keyword word := by
  cases h.shape
  rfl

end Alike

/-! ## What alike functions share -/

section

variable {f g : FunctionTy}

theorem minArgs_of_rel (h : List.Forall₂ (ParamTy.Rel Alike) f.params g.params) : f.minArgs = g.minArgs := by
  unfold FunctionTy.minArgs
  generalize f.params = as at h ⊢
  generalize g.params = bs at h ⊢
  induction h with
  | nil => rfl
  | cons hpq _ ih => rw [List.countP_cons, List.countP_cons, ih, hpq.optional, hpq.rest]

theorem maxArgs?_of_rel (h : List.Forall₂ (ParamTy.Rel Alike) f.params g.params) : f.maxArgs? = g.maxArgs? := by
  have hany : f.params.any (·.rest) = g.params.any (·.rest) := by
    generalize f.params = as at h ⊢
    generalize g.params = bs at h ⊢
    induction h with
    | nil => rfl
    | cons hpq _ ih => rw [List.any_cons, List.any_cons, ih, hpq.rest]
  rw [FunctionTy.maxArgs?, FunctionTy.maxArgs?, hany, h.length_eq]

theorem getElem?_of_rel {as bs : List ParamTy} (h : List.Forall₂ (ParamTy.Rel Alike) as bs) (i : Nat) :
    Option.Rel (ParamTy.Rel Alike) as[i]? bs[i]? := by
  induction h generalizing i with
  | nil => exact .none
  | cons hpq _ ih =>
    cases i with
    | zero => exact .some hpq
    | succ i => exact ih i

theorem getLast?_of_rel {as bs : List ParamTy} (h : List.Forall₂ (ParamTy.Rel Alike) as bs) :
    Option.Rel (ParamTy.Rel Alike) as.getLast? bs.getLast? := by
  rw [List.getLast?_eq_getElem?, List.getLast?_eq_getElem?, h.length_eq]
  exact getElem?_of_rel h _

theorem paramType?_of_rel (h : List.Forall₂ (ParamTy.Rel Alike) f.params g.params) (i : Nat) :
    Option.Rel Alike (f.paramType? i) (g.paramType? i) := by
  have hat := getElem?_of_rel h i
  have hlast := getLast?_of_rel h
  unfold FunctionTy.paramType?
  cases hf : f.params[i]? with
  | some p =>
    rw [hf] at hat
    generalize g.params[i]? = q at hat
    cases hat with
    | some hpq => exact .some hpq.type
  | none =>
    rw [hf] at hat
    generalize g.params[i]? = q at hat
    cases hat
    dsimp only
    generalize f.params.getLast? = last at hlast
    generalize g.params.getLast? = last' at hlast
    cases hlast with
    | none => exact .none
    | some hpq =>
      simp only [Option.bind_some, hpq.rest]
      split
      · exact .some hpq.type
      · exact .none

end

/-! ## Assignability cannot tell alike types apart -/

section

variable {part : Ty → Ty → Bool}

/-- The comparison of parts cannot tell alike types apart. -/
def Respects (part : Ty → Ty → Bool) : Prop :=
  ∀ {s s' t t' : Ty}, Alike s s' → Alike t t' → part s t = true → part s' t' = true

theorem functionStep_congr (hpart : Respects part) {f f' g g' : FunctionTy}
    (hf : List.Forall₂ (ParamTy.Rel Alike) f.params f'.params) (hfret : Alike f.ret f'.ret)
    (hg : List.Forall₂ (ParamTy.Rel Alike) g.params g'.params) (hgret : Alike g.ret g'.ret)
    (h : functionStep part f g = true) : functionStep part f' g' = true := by
  simp only [functionStep, Bool.and_eq_true, Bool.or_eq_true, List.all_eq_true] at h ⊢
  obtain ⟨⟨harity, hparams⟩, hret⟩ := h
  refine ⟨⟨?_, fun x hx => ?_⟩, ?_⟩
  · rwa [← minArgs_of_rel hf, ← maxArgs?_of_rel hg, ← hg.length_eq]
  · -- The parameter of the old source at the same place, and what the old target has there.
    obtain ⟨q, i⟩ := x
    have hq := List.mem_zipIdx_iff_getElem?.mp hx
    have hat := getElem?_of_rel hf i
    rw [hq] at hat
    cases hp : f.params[i]? with
    | none =>
      rw [hp] at hat
      cases hat
    | some p =>
      rw [hp] at hat
      have hold := hparams (p, i) (List.mem_zipIdx_iff_getElem?.mpr hp)
      have htarget := paramType?_of_rel hg i
      dsimp only at hold ⊢
      generalize g.paramType? i = t at hold htarget
      generalize g'.paramType? i = t' at htarget
      cases htarget with
      | none => rfl
      | some ht =>
        cases hat with
        | some hpq =>
          simp only [Bool.or_eq_true] at hold ⊢
          exact hold.imp (hpart ht hpq.type) (hpart hpq.type ht)
  · refine hret.imp (fun hvoid => ?_) (hpart hfret hgret)
    generalize g.ret = r at hvoid hgret
    split at hvoid
    · rw [hgret.eq_keyword]
    · cases hvoid

theorem objectStep_congr (hpart : Respects part) {o o' u u' : ObjectTy} (ho : AlikeObject o o') (hu : AlikeObject u u')
    (h : objectStep part o u = true) : objectStep part o' u' = true := by
  simp only [objectStep, Bool.and_eq_true, List.all_eq_true] at h ⊢
  obtain ⟨⟨hmissing, hnamed⟩, hindex⟩ := h
  refine ⟨⟨?_, fun q hq => ?_⟩, ?_⟩
  · simp only [ObjectTy.missing?, Option.isNone_map, Option.isNone_iff_eq_none, List.find?_eq_none] at hmissing ⊢
    intro q hq
    obtain ⟨p, hp, hname, hoptional, -⟩ := hu.listed q hq
    have hfound := ho.found q.name
    have hold := hmissing p hp
    unfold ObjectTy.hasProperty at hold ⊢
    rw [hname, hoptional] at hold
    generalize o.property? q.name = a at hfound hold
    generalize o'.property? q.name = b at hfound
    cases hfound with
    | none => exact hold
    | some => exact hold
  · obtain ⟨p, hp, hname, -, htype⟩ := hu.listed q hq
    have hfound := ho.found q.name
    have hold := hnamed p hp
    rw [hname] at hold
    generalize o.property? q.name = a at hfound hold
    generalize o'.property? q.name = b at hfound
    cases hfound with
    | none => rfl
    | some hsource => exact hpart hsource htype hold
  · have hu := hu.index
    generalize u.index = i at hu hindex
    generalize u'.index = i' at hu
    cases hu with
    | none => rfl
    | some htarget =>
      simp only [List.all_eq_true] at hindex ⊢
      intro q hq
      obtain ⟨p, hp, -, -, hsource⟩ := ho.listed q hq
      exact hpart hsource htarget (hindex p hp)

theorem isOpen_of_alike {o o' : ObjectTy} (h : AlikeObject o o') (hopen : isOpen o = true) : isOpen o' = true := by
  simp only [isOpen, Bool.and_eq_true, List.isEmpty_iff, Option.isNone_iff_eq_none] at hopen ⊢
  obtain ⟨hproperties, hindex⟩ := hopen
  constructor
  · rw [List.eq_nil_iff_forall_not_mem]
    intro q hq
    obtain ⟨p, hp, -⟩ := h.listed q hq
    rw [hproperties] at hp
    cases hp
  · have hrel := h.index
    rw [hindex] at hrel
    generalize o'.index = i' at hrel ⊢
    cases hrel
    rfl

theorem isNullish_of_alike (h : Alike s s') : s.isNullish = s'.isNullish := by
  cases h.shape <;> rfl

theorem all_of_rel {as bs : List Ty} (h : List.Forall₂ Alike as bs) {p q : Ty → Bool}
    (himp : ∀ {a b}, Alike a b → p a = true → q b = true) (hall : as.all p = true) : bs.all q = true := by
  induction h with
  | nil => rfl
  | cons hab _ ih =>
    rw [List.all_cons, Bool.and_eq_true] at hall ⊢
    exact ⟨himp hab hall.1, ih hall.2⟩

theorem any_of_rel {as bs : List Ty} (h : List.Forall₂ Alike as bs) {p q : Ty → Bool}
    (himp : ∀ {a b}, Alike a b → p a = true → q b = true) (hany : as.any p = true) : bs.any q = true := by
  induction h with
  | nil => exact hany
  | cons hab _ ih =>
    rw [List.any_cons, Bool.or_eq_true] at hany ⊢
    exact hany.imp (himp hab) ih

theorem zip_all_of_rel (hpart : Respects part) {as as' bs bs' : List Ty} (has : List.Forall₂ Alike as as')
    (hbs : List.Forall₂ Alike bs bs') (h : ((as.zip bs).all fun x => part x.1 x.2) = true) :
    ((as'.zip bs').all fun x => part x.1 x.2) = true := by
  induction has generalizing bs bs' with
  | nil => rfl
  | cons ha _ ih =>
    cases hbs with
    | nil => rfl
    | cons hb hrest =>
      rw [List.zip_cons_cons, List.all_cons, Bool.and_eq_true] at h ⊢
      exact ⟨hpart ha hb h.1, ih hrest h.2⟩

/-- Where an object type is expected: an open one takes all that is there, any other one compares objects. -/
theorem plainStep_object {o : ObjectTy} : plainStep part s (object o) = true ↔
    (isOpen o = true ∧ s.isNullish = false ∧ s ≠ void) ∨ (isOpen o = false ∧ ∃ o', s = object o' ∧ objectStep part o' o = true) := by
  cases hopen : isOpen o with
  | true =>
    cases s with
    | keyword word => cases word <;> simp [plainStep, isNullish, hopen]
    | _ => simp [plainStep, isNullish, hopen]
  | false =>
    cases s with
    | keyword word => cases word <;> simp [plainStep, hopen]
    | _ => simp [plainStep, hopen]

theorem plainStep_congr (hpart : Respects part) (hs : Alike s s') (ht : Alike t t') (h : plainStep part s t = true) :
    plainStep part s' t' = true := by
  by_cases hobject : ∃ o, t = object o
  · obtain ⟨o, rfl⟩ := hobject
    cases ht.shape with
    | @object _ u htarget =>
      rw [plainStep_object] at h ⊢
      rcases h with ⟨hopen, hnullish, hvoid⟩ | ⟨-, o', rfl, hstep⟩
      · refine .inl ⟨isOpen_of_alike htarget hopen, isNullish_of_alike hs ▸ hnullish, ?_⟩
        rintro rfl
        exact hvoid hs.symm.eq_keyword
      · cases hs.shape with
        | @object _ o'' hsource =>
          by_cases hopen : isOpen u = true
          · exact .inl ⟨hopen, rfl, by rintro ⟨⟩⟩
          · exact .inr ⟨Bool.eq_false_iff.mpr hopen, o'', rfl, objectStep_congr hpart hsource htarget hstep⟩
  unfold plainStep at h
  split at h
  · rw [hs.eq_keyword, ht.eq_keyword]
    rfl
  · cases hs.shape
    cases ht.shape
    exact h
  · rw [ht.eq_keyword]
    cases hs.shape <;> first | rfl | cases h
  · cases hs.shape with
    | array hsource =>
      cases ht.shape with
      | array htarget => exact hpart hsource htarget h
  · cases hs.shape with
    | tuple hsource =>
      cases ht.shape with
      | array htarget => exact all_of_rel hsource (fun hab => hpart hab htarget) h
  · cases hs.shape with
    | tuple hsource =>
      cases ht.shape with
      | tuple htarget =>
        simp only [Bool.and_eq_true, decide_eq_true_eq] at h
        simp only [plainStep, Bool.and_eq_true, decide_eq_true_eq]
        exact ⟨by rw [← hsource.length_eq, ← htarget.length_eq, h.1], zip_all_of_rel hpart hsource htarget h.2⟩
  · exact absurd ⟨_, rfl⟩ hobject
  · cases hs.shape with
    | function hsource hsret =>
      cases ht.shape with
      | function htarget htret => exact functionStep_congr hpart hsource hsret htarget htret h
  · cases h

/-- The rules as alternatives: what any target takes, what any source gives, and then by the unions on either side. -/
theorem assignableStep_iff {strict : Bool} : assignableStep strict part s t = true ↔
    (t = any ∨ t = unknown) ∨ (s = any ∨ s = never) ∨
    (∃ members, s = union members ∧ members.all (part · t) = true) ∨
    (s.isUnion = false ∧
      ((s.isNullish = true ∧ strict = false) ∨ (∃ members, t = union members ∧ members.any (part s ·) = true) ∨
        (t.isUnion = false ∧ plainStep part s t = true))) := by
  by_cases htop : t = any ∨ t = unknown
  · rcases htop with rfl | rfl <;> simp [assignableStep]
  by_cases hbottom : s = any ∨ s = never
  · rcases hbottom with rfl | rfl <;> simp [assignableStep]
  rw [or_iff_right htop, or_iff_right hbottom]
  rw [not_or] at htop hbottom
  cases s with
  | union members => simp [assignableStep, htop, isUnion]
  | _ => cases t <;> simp [assignableStep, htop, hbottom, isUnion, isNullish]

theorem isUnion_of_alike (h : Alike s s') : s.isUnion = s'.isUnion := by
  cases h.shape <;> rfl

theorem assignableStep_of_alike {strict : Bool} (hpart : Respects part) (hs : Alike s s') (ht : Alike t t')
    (h : assignableStep strict part s t = true) : assignableStep strict part s' t' = true := by
  rw [assignableStep_iff] at h ⊢
  rw [← isUnion_of_alike hs, ← isUnion_of_alike ht, ← isNullish_of_alike hs]
  rcases h with htop | hbottom | ⟨members, rfl, hall⟩ | ⟨hsingle, hnullish | ⟨members, rfl, hany⟩ | ⟨hsingle', hplain⟩⟩
  · refine .inl (htop.imp ?_ ?_)
    all_goals
      rintro rfl
      exact ht.eq_keyword
  · refine .inr (.inl (hbottom.imp ?_ ?_))
    all_goals
      rintro rfl
      exact hs.eq_keyword
  · cases hs.shape with
    | union hmembers => exact .inr (.inr (.inl ⟨_, rfl, all_of_rel hmembers (fun hab => hpart hab ht) hall⟩))
  · exact .inr (.inr (.inr ⟨hsingle, .inl hnullish⟩))
  · cases ht.shape with
    | union hmembers => exact .inr (.inr (.inr ⟨hsingle, .inr (.inl ⟨_, rfl, any_of_rel hmembers (hpart hs) hany⟩)⟩))
  · exact .inr (.inr (.inr ⟨hsingle, .inr (.inr ⟨hsingle', plainStep_congr hpart hs ht hplain⟩)⟩))

/-- To any depth, what is assignable stays assignable when types are replaced by alike ones. -/
theorem assignableWithin_congr {strict : Bool} (n : Nat) : Respects (assignableWithin strict n) := by
  induction n with
  | zero => exact fun _ _ _ => rfl
  | succ n ih =>
    intro s s' t t' hs ht h
    rw [assignableWithin, Bool.or_eq_true] at h ⊢
    exact h.imp (hs.beq ht) (assignableStep_of_alike ih hs ht)

end

end Ty
end Recheck
