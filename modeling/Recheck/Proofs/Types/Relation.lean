import Mathlib.Data.List.Perm.Subperm
import Recheck.Types.Relation

/-!
# Assignability to any depth

The checker compares types to a fixed depth and takes what lies deeper for assignable. Types are finite, so the same rules
can also be followed to the end: `Ty.assigns` is the relation that they define, and the only one that obeys them
(`Ty.assigns_unique`). All rules are monotone in the comparison of parts, and parts are lower than what they are parts of.
So a fixed depth can only accept more, and it accepts no more when the types are low enough for it.
-/

set_option autoImplicit false

namespace Recheck

namespace Ty

/-! ## Heights -/

/-- The types that a type consists of. -/
def components : Ty → List Ty
  | array element => [element]
  | tuple elements => elements
  | union members => members
  | object o => o.properties.map (·.type) ++ o.index.toList
  | function f => f.params.map (·.type) ++ [f.ret]
  | keyword _ => []
  | literal _ => []

end Ty

mutual

/-- How deep a type is nested. -/
def Ty.height : Ty → Nat
  | .keyword _ => 0
  | .literal _ => 0
  | .array element => element.height + 1
  | .tuple elements => Ty.heightOver elements
  | .union members => Ty.heightOver members
  | .object o => o.height
  | .function f => f.height

/-- The height of a type with these components. -/
def Ty.heightOver : List Ty → Nat
  | [] => 0
  | type :: rest => max (type.height + 1) (Ty.heightOver rest)

def Ty.heightOver? : Option Ty → Nat
  | none => 0
  | some type => type.height + 1

def ObjectTy.height : ObjectTy → Nat
  | ⟨_, properties, index⟩ => max (PropertyTy.heightOver properties) (Ty.heightOver? index)

def PropertyTy.heightOver : List PropertyTy → Nat
  | [] => 0
  | ⟨_, type, _⟩ :: rest => max (type.height + 1) (PropertyTy.heightOver rest)

def FunctionTy.height : FunctionTy → Nat
  | ⟨params, ret⟩ => max (ParamTy.heightOver params) (ret.height + 1)

def ParamTy.heightOver : List ParamTy → Nat
  | [] => 0
  | ⟨_, type, _, _⟩ :: rest => max (type.height + 1) (ParamTy.heightOver rest)

end

theorem PropertyTy.heightOver_eq (properties : List PropertyTy) :
    PropertyTy.heightOver properties = Ty.heightOver (properties.map (·.type)) := by
  induction properties with
  | nil => rfl
  | cons p rest ih =>
    obtain ⟨name, type, optional⟩ := p
    rw [PropertyTy.heightOver, ih, List.map_cons, Ty.heightOver]

theorem ParamTy.heightOver_eq (params : List ParamTy) : ParamTy.heightOver params = Ty.heightOver (params.map (·.type)) := by
  induction params with
  | nil => rfl
  | cons p others ih =>
    obtain ⟨name, type, optional, rest⟩ := p
    rw [ParamTy.heightOver, ih, List.map_cons, Ty.heightOver]

namespace Ty

theorem heightOver_append (as bs : List Ty) : heightOver (as ++ bs) = max (heightOver as) (heightOver bs) := by
  induction as with
  | nil => simp [heightOver]
  | cons a as ih => rw [List.cons_append, heightOver, ih, heightOver, Nat.max_assoc]

theorem heightOver_singleton (t : Ty) : heightOver [t] = t.height + 1 := Nat.max_zero _

theorem heightOver?_eq (t : Option Ty) : heightOver? t = heightOver t.toList := by
  cases t with
  | none => rfl
  | some t => exact (heightOver_singleton t).symm

/-- A type without components has no height, any other is one higher than the highest of its components. -/
theorem height_eq (t : Ty) : t.height = heightOver t.components := by
  cases t with
  | keyword | literal => rfl
  | array element => exact (heightOver_singleton element).symm
  | tuple | union => rfl
  | object o =>
    obtain ⟨name, properties, index⟩ := o
    rw [height, ObjectTy.height, components, heightOver_append, PropertyTy.heightOver_eq, heightOver?_eq]
  | function f =>
    obtain ⟨params, ret⟩ := f
    rw [height, FunctionTy.height, components, heightOver_append, ParamTy.heightOver_eq, heightOver_singleton]

theorem height_lt_heightOver {t : Ty} {types : List Ty} (h : t ∈ types) : t.height < heightOver types := by
  induction types with
  | nil => exact nomatch h
  | cons type rest ih =>
    rw [heightOver]
    rcases List.mem_cons.mp h with rfl | h
    · omega
    · have := ih h
      omega

theorem height_lt {c t : Ty} (h : c ∈ t.components) : c.height < t.height := by
  rw [height_eq t]
  exact height_lt_heightOver h

end Ty

/-! ### Where components are found -/

theorem PropertyTy.of_find? {properties : List PropertyTy} {name : String} {p : PropertyTy}
    (h : PropertyTy.find? properties name = some p) : p ∈ properties ∧ p.name = name :=
  ⟨List.mem_of_find?_eq_some h, of_decide_eq_true (List.find?_some h :)⟩

namespace ObjectTy

variable {o : ObjectTy} {p : PropertyTy}

theorem type_mem_components (h : p ∈ o.properties) : p.type ∈ (Ty.object o).components :=
  List.mem_append_left _ (List.mem_map_of_mem h)

theorem index_mem_components {index : Ty} (h : o.index = some index) : index ∈ (Ty.object o).components :=
  List.mem_append_right _ (by simp [h])

theorem mem_of_property? {name : String} (h : o.property? name = some p) : p ∈ o.properties := (PropertyTy.of_find? h).1

end ObjectTy

namespace FunctionTy

variable {f : FunctionTy}

theorem type_mem_components {p : ParamTy} (h : p ∈ f.params) : p.type ∈ (Ty.function f).components :=
  List.mem_append_left _ (List.mem_map_of_mem h)

theorem ret_mem_components : f.ret ∈ (Ty.function f).components := List.mem_append_right _ List.mem_cons_self

theorem paramType?_mem_components {i : Nat} {t : Ty} (h : f.paramType? i = some t) : t ∈ (Ty.function f).components := by
  unfold paramType? at h
  split at h
  · rename_i p hp
    obtain rfl := Option.some.inj h
    exact type_mem_components (List.mem_of_getElem? hp)
  · obtain ⟨p, hp, h⟩ := Option.bind_eq_some_iff.mp h
    split at h
    · obtain rfl := Option.some.inj h
      exact type_mem_components (List.mem_of_getLast? hp)
    · exact nomatch h

end FunctionTy

namespace Ty

/-! ## The rules are monotone -/

section

variable {part part' : Ty → Ty → Bool}

/-- Whether one comparison of parts accepts all that another one accepts, as far as these types go. -/
def Accepts (part part' : Ty → Ty → Bool) (source target : Ty) : Prop :=
  ∀ s t, s.height + t.height < source.height + target.height → part s t = true → part' s t = true

variable {source target : Ty}

theorem Accepts.components (h : Accepts part part' source target) {s t : Ty} (hs : s ∈ source.components)
    (ht : t ∈ target.components) : part s t = true → part' s t = true :=
  h s t (Nat.add_lt_add (height_lt hs) (height_lt ht))

theorem Accepts.swapped (h : Accepts part part' source target) {s t : Ty} (hs : s ∈ source.components)
    (ht : t ∈ target.components) : part t s = true → part' t s = true :=
  h t s (Nat.add_comm t.height s.height ▸ Nat.add_lt_add (height_lt hs) (height_lt ht))

theorem Accepts.of_source (h : Accepts part part' source target) {s : Ty} (hs : s ∈ source.components) :
    part s target = true → part' s target = true :=
  h s target (Nat.add_lt_add_right (height_lt hs) _)

theorem Accepts.of_target (h : Accepts part part' source target) {t : Ty} (ht : t ∈ target.components) :
    part source t = true → part' source t = true :=
  h source t (Nat.add_lt_add_left (height_lt ht) _)

theorem functionStep_mono {f g : FunctionTy} (h : Accepts part part' (function f) (function g))
    (hstep : functionStep part f g = true) : functionStep part' f g = true := by
  simp only [functionStep, Bool.and_eq_true, Bool.or_eq_true, List.all_eq_true] at hstep ⊢
  obtain ⟨⟨harity, hparams⟩, hret⟩ := hstep
  refine ⟨⟨harity, fun x hx => ?_⟩, hret.imp_right (h.components FunctionTy.ret_mem_components FunctionTy.ret_mem_components)⟩
  have hp := FunctionTy.type_mem_components (List.fst_mem_of_mem_zipIdx hx)
  have hold := hparams x hx
  split at hold
  · rename_i t ht
    have ht' := FunctionTy.paramType?_mem_components ht
    rw [Bool.or_eq_true] at hold ⊢
    exact hold.imp (h.swapped hp ht') (h.components hp ht')
  · rfl

theorem objectStep_mono {o t : ObjectTy} (h : Accepts part part' (object o) (object t))
    (hstep : objectStep part o t = true) : objectStep part' o t = true := by
  simp only [objectStep, Bool.and_eq_true, List.all_eq_true] at hstep ⊢
  obtain ⟨⟨hmissing, hnamed⟩, hindex⟩ := hstep
  refine ⟨⟨hmissing, fun p hp => ?_⟩, ?_⟩
  · have hold := hnamed p hp
    split at hold
    · rename_i q hq
      exact h.components (ObjectTy.type_mem_components (ObjectTy.mem_of_property? hq)) (ObjectTy.type_mem_components hp) hold
    · rfl
  · split at hindex
    · rename_i index hsome
      rw [List.all_eq_true] at hindex ⊢
      exact fun p hp => h.components (ObjectTy.type_mem_components hp) (ObjectTy.index_mem_components hsome) (hindex p hp)
    · rfl

/-- Either way of a case distinction may accept more. -/
theorem accepts_ite {c : Prop} [Decidable c] {a b a' b' : Bool} (ha : a = true → a' = true) (hb : b = true → b' = true) :
    (if c then a else b) = true → (if c then a' else b') = true := by
  split
  · exact ha
  · exact hb

theorem plainStep_mono (h : Accepts part part' source target) :
    plainStep part source target = true → plainStep part' source target = true := by
  unfold plainStep
  split
  · exact id
  · exact id
  · exact id
  · exact h.components List.mem_cons_self List.mem_cons_self
  · rw [List.all_eq_true, List.all_eq_true]
    exact fun hstep s hs => h.components hs List.mem_cons_self (hstep s hs)
  · simp only [Bool.and_eq_true, List.all_eq_true]
    rintro ⟨hlength, hstep⟩
    exact ⟨hlength, fun x hx => h.components (List.of_mem_zip hx).1 (List.of_mem_zip hx).2 (hstep x hx)⟩
  · refine accepts_ite id ?_
    split
    · exact objectStep_mono h
    · exact id
  · exact functionStep_mono h
  · exact id

theorem assignableStep_mono {strict : Bool} (h : Accepts part part' source target) :
    assignableStep strict part source target = true → assignableStep strict part' source target = true := by
  unfold assignableStep
  refine accepts_ite id (accepts_ite id ?_)
  split
  · rw [List.all_eq_true, List.all_eq_true]
    exact fun hstep s hs => h.of_source hs (hstep s hs)
  · refine accepts_ite id ?_
    split
    · rw [List.any_eq_true, List.any_eq_true]
      rintro ⟨t, ht, hstep⟩
      exact ⟨t, ht, h.of_target ht hstep⟩
    · exact plainStep_mono h

theorem assignableStep_congr {strict : Bool}
    (h : ∀ s t, s.height + t.height < source.height + target.height → part s t = part' s t) :
    assignableStep strict part source target = assignableStep strict part' source target :=
  Bool.eq_iff_iff.mpr ⟨assignableStep_mono fun s t hlt => (h s t hlt ▸ ·), assignableStep_mono fun s t hlt => (h s t hlt ▸ ·)⟩

end

/-! ## The relation -/

/-- Whether a value of the source type may stand for one of the target type, by the rules, to any depth. -/
def assigns (strict : Bool) (source target : Ty) : Bool :=
  source == target || assignableStep strict (fun s t =>
    -- The rules only ever compare lower types.
    if s.height + t.height < source.height + target.height then assigns strict s t else true) source target
termination_by source.height + target.height

variable {strict : Bool}

theorem assigns_eq (source target : Ty) :
    assigns strict source target = (source == target || assignableStep strict (assigns strict) source target) := by
  rw [assigns]
  congr 1
  exact assignableStep_congr fun s t hlt => if_pos hlt

/-- No other relation obeys the rules. -/
theorem assigns_unique {R : Ty → Ty → Bool} (hR : ∀ s t, R s t = (s == t || assignableStep strict R s t)) (s t : Ty) :
    R s t = assigns strict s t := by
  induction h : s.height + t.height using Nat.strongRecOn generalizing s t with
  | ind n ih =>
    subst h
    rw [hR, assigns_eq, assignableStep_congr fun s' t' hlt => ih _ hlt s' t' rfl]

/-! ## Comparison to a fixed depth -/

/-- What the rules accept is accepted to any fixed depth. -/
theorem assignableWithin_of_assigns (n : Nat) {s t : Ty} (h : assigns strict s t = true) : assignableWithin strict n s t = true := by
  induction n generalizing s t with
  | zero => rfl
  | succ n ih =>
    rw [assigns_eq, Bool.or_eq_true] at h
    rw [assignableWithin, Bool.or_eq_true]
    exact h.imp_right (assignableStep_mono fun _ _ _ => ih)

/-- A depth that types do not reach makes no difference to them. -/
theorem assignableWithin_eq_assigns {n : Nat} {s t : Ty} (h : s.height + t.height < n) :
    assignableWithin strict n s t = assigns strict s t := by
  induction n generalizing s t with
  | zero => exact absurd h (Nat.not_lt_zero _)
  | succ n ih =>
    rw [assigns_eq, assignableWithin, assignableStep_congr fun s' t' hlt => ih (Nat.lt_of_lt_of_le hlt (Nat.le_of_lt_succ h))]

/-- The fixed depth only accepts. Whatever the rules accept is assignable, and where two types are nested no deeper than the
checker looks, nothing else is. -/
theorem depth_only_accepts (strict : Bool) :
    (∀ s t, assigns strict s t = (s == t || assignableStep strict (assigns strict) s t)) ∧
    (∀ s t, assigns strict s t = true → isAssignable strict s t = true) ∧
    ∀ s t, s.height + t.height ≤ 8 → isAssignable strict s t = assigns strict s t :=
  ⟨assigns_eq, fun _ _ => assignableWithin_of_assigns _, fun _ _ h => assignableWithin_eq_assigns (Nat.lt_succ_of_le h)⟩

end Ty

end Recheck
