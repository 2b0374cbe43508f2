import Recheck.Check.Checker
import Recheck.Proofs.Types.Relation
import Recheck.Proofs.Types.Wording

/-!
# What a written type means

A type without names in it means the same at every place, and to find it out changes nothing in the checker (`Means`). The
meaning is put together from the meanings of the parts: the rules of the checker, read for such types.
-/

set_option autoImplicit false

namespace Recheck

open Syntax Check

namespace Check

variable {α β ι σ : Type} {n : Nat}

/-! ## Parts of a check that only have a result -/

/-- A part of a check comes to this result, and leaves the checker as it was. -/
def Yields (n : Nat) (c : CheckM α) (a : α) : Prop :=
  ∀ (file : Path) (s : State), (c.run (answer file n)).run s = (a, s)

theorem run_bind_eq (answers : (q : Question) → StateM State q.Answer) (c : CheckM α) (f : α → CheckM β) (s : State) :
    ((c >>= f).run answers).run s = ((f ((c.run answers).run s).1).run answers).run ((c.run answers).run s).2 := by
  induction c generalizing s with
  | done a => rfl
  | ask q next ih => exact ih ((answers q).run s).1 ((answers q).run s).2

namespace Yields

theorem pure (a : α) : Yields n (Pure.pure a) a := fun _ _ => rfl

theorem bind {c : CheckM α} {f : α → CheckM β} {a : α} {b : β} (hc : Yields n c a) (hf : Yields n (f a) b) :
    Yields n (c >>= f) b := by
  intro file s
  rw [run_bind_eq, hc file s]
  exact hf file s

theorem mapM {Q : β → ι → Prop} {f : ι → CheckM β} {xs : List ι} {ys : List β} (h : List.Forall₂ Q ys xs)
    (hf : ∀ y ∈ ys, ∀ x, Q y x → Yields n (f x) y) : Yields n (xs.mapM f) ys := by
  unfold List.mapM
  suffices ∀ done, Yields n (List.mapM.loop f xs done) (done.reverse ++ ys) from this []
  induction h with
  | nil => exact fun done => by rw [List.append_nil]; exact pure _
  | cons hx _ ih =>
    intro done
    refine bind (hf _ List.mem_cons_self _ hx) ?_
    simpa using ih (fun y hy => hf y (List.mem_cons_of_mem _ hy)) (_ :: done)

end Yields

end Check

/-! ## Unions -/

namespace Ty.Writable

variable {t : Ty} {types : List Ty}

theorem isNormal (h : t.Writable) : t.IsNormal := by
  rintro members rfl
  cases h with
  | union hnormal => exact hnormal

theorem alternatives (h : t.Writable) : ∀ m ∈ t.alternatives, m.Writable := by
  intro m hm
  rcases mem_alternatives hm with rfl | ⟨members, rfl, hm⟩
  · exact h
  · cases h with
    | union _ hmembers => exact hmembers m hm

/-- Unions of types that can be written can be written. -/
theorem unionOf (h : ∀ t ∈ types, t.Writable) : (Ty.unionOf types).Writable := by
  refine unionOf_induction (fun t ht => (h t ht).isNormal) (.keyword .any) (.keyword .never) (fun m hm => ?_)
    fun _ hnormal hmembers => .union hnormal hmembers
  obtain ⟨t, ht, hm⟩ := List.mem_flatMap.mp hm
  exact (h t ht).alternatives m hm

end Ty.Writable

/-! ## Meanings -/

/-- The node means the type, wherever it stands. -/
def Means (t : Ty) (node : TypeNode) : Prop := ∀ site n, t.height < n → Yields n (typeMeaning node site) t

/-- The parameter has this name and type, and no default that would say more. -/
structure MeansParam (p : ParamTy) (param : Param) : Prop where
  name : param.name.name = p.name
  optional : param.optional = p.optional
  rest : param.rest = p.rest
  type : ∃ node, param.type = some node ∧ Means p.type node

/-- The member has this name and type. -/
structure MeansMember (p : PropertyTy) (m : Member) : Prop where
  name : m.name.name = p.name
  optional : m.optional = p.optional
  type : ∃ node, m.type = some node ∧ Means p.type node

/-- The member stands for all names, and has this type. -/
structure MeansIndex (t : Ty) (m : Member) : Prop where
  name : m.name.name = indexName
  type : ∃ node, m.type = some node ∧ Means t node

namespace Means

variable {t : Ty} {node : TypeNode} {ts : List Ty} {nodes : List TypeNode}

theorem of_rule (h : ∀ site n, t.height ≤ n → Yields n (typeRule node site) t) : Means t node := by
  intro site n hn
  obtain ⟨n, rfl⟩ := Nat.exists_eq_succ_of_ne_zero (Nat.ne_of_gt (Nat.lt_of_le_of_lt (Nat.zero_le _) hn))
  exact fun file s => h site n (Nat.lt_succ_iff.mp hn) file s

/-- The place of a node says nothing about its meaning. -/
theorem of_kind {other : TypeNode} (h : Means t other) (hkind : node.kind = other.kind) : Means t node := by
  refine of_rule fun site n hn => ?_
  have hother : Yields n (typeRule other site) t := h site (n + 1) (Nat.lt_succ_of_le hn)
  rwa [typeRule, hkind]

/-- The parts of a type are lower than the type, so they are looked at in time. -/
theorem part {c : Ty} (h : Means c node) (hc : c ∈ t.components) {n : Nat} (hn : t.height ≤ n) (site : Site) :
    Yields n (typeMeaning node site) c := h site n (Nat.lt_of_lt_of_le (Ty.height_lt hc) hn)

theorem parts (h : List.Forall₂ Means ts nodes) (hts : ∀ c ∈ ts, c ∈ t.components) {n : Nat} (hn : t.height ≤ n) (site : Site) :
    Yields n (nodes.mapM (typeMeaning · site)) ts :=
  .mapM h fun c hc _ h => h.part (hts c hc) hn site

theorem keyword {word : KeywordType} (hkind : node.kind = .keyword word) : Means (.keyword word) node :=
  of_rule fun _ _ _ => by rw [typeRule, hkind]; exact .pure _

theorem literal {value : LiteralType} (hkind : node.kind = .literal value) : Means (.literal value) node :=
  of_rule fun _ _ _ => by rw [typeRule, hkind]; exact .pure _

theorem array {element : TypeNode} (hkind : node.kind = .array element) (h : Means t element) : Means (.array t) node := by
  refine of_rule fun site n hn => ?_
  rw [typeRule, hkind]
  exact .bind (h.part (t := .array t) List.mem_cons_self hn site) (.pure _)

theorem tuple (hkind : node.kind = .tuple nodes) (h : List.Forall₂ Means ts nodes) : Means (.tuple ts) node := by
  refine of_rule fun site n hn => ?_
  rw [typeRule, hkind]
  exact .bind (parts (t := .tuple ts) h (fun _ hc => hc) hn site) (.pure _)

theorem union (hkind : node.kind = .union nodes) (hts : Ty.Normal ts) (h : List.Forall₂ Means ts nodes) :
    Means (.union ts) node := by
  refine of_rule fun site n hn => ?_
  rw [typeRule, hkind]
  refine .bind (parts (t := .union ts) h (fun _ hc => hc) hn site) ?_
  rw [hts.unionOf_eq]
  exact .pure _

theorem function {params : List Param} {ret : TypeNode} {ps : List ParamTy} (hkind : node.kind = .function params ret)
    (hparams : List.Forall₂ MeansParam ps params) (hret : Means t ret) : Means (.function ⟨ps, t⟩) node := by
  refine of_rule fun site n hn => ?_
  have hmem (p : ParamTy) (hp : p ∈ ps) : p.type ∈ (Ty.function ⟨ps, t⟩).components :=
    List.mem_append_left _ (List.mem_map_of_mem hp)
  have hret := hret.part (t := .function ⟨ps, t⟩) (List.mem_append_right _ List.mem_cons_self) hn site
  rw [typeRule, hkind]
  refine .bind (.mapM hparams fun p hp param h => ?_) (.bind hret (.pure _))
  have hlow := hmem p hp
  obtain ⟨node, htype, hnode⟩ := h.type
  rw [annotatedParam, htype, h.name, h.optional, h.rest]
  cases p
  exact .bind (hnode.part hlow hn site) (.pure _)

/-! ### Objects -/

theorem put_of_not_mem {p : PropertyTy} {ps : List PropertyTy} (h : p.name ∉ ps.map (·.name)) :
    ObjectTy.put p ps = ps ++ [p] := by
  induction ps with
  | nil => rfl
  | cons q ps ih =>
    rw [List.map_cons, List.mem_cons, not_or] at h
    rw [ObjectTy.put, if_neg (Ne.symm h.1), ih h.2, List.cons_append]

theorem addMember_property {n : Nat} {p : PropertyTy} {m : Member} {site : Site} (h : MeansMember p m)
    (hn : p.type.height < n) (hname : p.name ≠ indexName) (o : ObjectTy) :
    Yields n (Check.addMember o m site) (o.insert p) := by
  obtain ⟨node, htype, hnode⟩ := h.type
  rw [Check.addMember, htype, h.name, h.optional]
  simp only [hname, if_false]
  cases p
  exact .bind (hnode site n hn) (.pure _)

theorem addMember_index {n : Nat} {m : Member} {site : Site} (h : MeansIndex t m) (hn : t.height < n) (o : ObjectTy) :
    Yields n (Check.addMember o m site) { o with index := some t } := by
  obtain ⟨node, htype, hnode⟩ := h.type
  rw [Check.addMember, htype, h.name]
  exact .bind (hnode site n hn) (.pure _)

theorem addMembers {n : Nat} {ps : List PropertyTy} {members : List Member} {site : Site} (h : List.Forall₂ MeansMember ps members)
    (hn : ∀ p ∈ ps, p.type.height < n) (hnames : ∀ p ∈ ps, p.name ≠ indexName) (o : ObjectTy)
    (hdistinct : ((o.properties ++ ps).map (·.name)).Nodup) :
    Yields n (members.foldlM (Check.addMember · · site) o) { o with properties := o.properties ++ ps } := by
  induction h generalizing o with
  | nil =>
    rw [List.append_nil]
    cases o
    exact .pure _
  | @cons p m ps members hp _ ih =>
    have hnew : p.name ∉ o.properties.map (·.name) := by
      rw [List.map_append, List.nodup_append] at hdistinct
      exact fun hmem => hdistinct.2.2 _ hmem _ List.mem_cons_self rfl
    have hinsert : o.insert p = { o with properties := o.properties ++ [p] } := by
      rw [ObjectTy.insert, put_of_not_mem hnew]
    refine .bind (addMember_property hp (hn p List.mem_cons_self) (hnames p List.mem_cons_self) o) ?_
    have hrest := ih (fun q hq => hn q (List.mem_cons_of_mem _ hq)) (fun q hq => hnames q (List.mem_cons_of_mem _ hq))
      (o.insert p) (by rw [hinsert]; simpa using hdistinct)
    rw [hinsert] at hrest ⊢
    simpa using hrest

/-- The index, if there is one, stands first, and the properties have different names. -/
theorem object {index : Option Ty} {ps : List PropertyTy} {first others : List Member}
    (hkind : node.kind = .object (first ++ others)) (hindex : List.Forall₂ MeansIndex index.toList first)
    (hps : List.Forall₂ MeansMember ps others) (hnames : ∀ p ∈ ps, p.name ≠ indexName)
    (hdistinct : (ps.map (·.name)).Nodup) : Means (.object ⟨none, ps, index⟩) node := by
  refine of_rule fun site n hn => ?_
  have hlow (p : PropertyTy) (hp : p ∈ ps) : p.type.height < n :=
    Nat.lt_of_lt_of_le (Ty.height_lt (ObjectTy.type_mem_components (o := ⟨none, ps, index⟩) hp)) hn
  rw [typeRule, hkind]
  refine .bind ?_ (.pure _)
  cases index with
  | none =>
    cases hindex
    exact addMembers hps hlow hnames .empty hdistinct
  | some t =>
    obtain ⟨m, rest, hm, hrest, rfl⟩ := List.forall₂_cons_left_iff.mp hindex
    cases hrest
    have hlow' : t.height < n :=
      Nat.lt_of_lt_of_le (Ty.height_lt (ObjectTy.index_mem_components (o := ⟨none, ps, some t⟩) rfl)) hn
    exact .bind (addMember_index hm hlow' .empty) (addMembers hps hlow hnames { ObjectTy.empty with index := some t } hdistinct)

end Means

end Recheck
