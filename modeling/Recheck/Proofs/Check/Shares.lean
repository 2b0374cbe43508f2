import Mathlib.Algebra.GroupWithZero.Nat
import Mathlib.Algebra.Order.BigOperators.Group.List
import Mathlib.Algebra.Order.Group.Nat
import Recheck.Check.Fault
import Recheck.Proofs.Syntax.Parts

/-!
# What a tree has room for

A report is told apart by its key: the number of the fault, the role of its place and its span. The spots of a tree leave
room for one report of each number at each spot, so for a key it can be counted how many reports a part of a tree may give
(`Key.share`). The share of an expression is divided between those who report on it: its own check, and whoever expects a
value of some type there (`Key.own_add_misfits_le`).
-/

set_option autoImplicit false

namespace Recheck.Check

open Syntax

/-! ## Keys -/

/-- The role of the place where a fault is reported. A wrong number of arguments is reported at the call, or at those that
are too many. An import that is never used is no finding about a place that is looked at. -/
def Fault.role? : Fault → Option Role
  | unknownName _ => some .name
  | unknownModule _ => some .source
  | notExported .. => some .exported
  | unknownProperty .. => some .member
  | notAssignable .. => some .value
  | argumentNotAssignable .. => some .value
  | excessProperty .. => some .value
  | missingProperty .. => some .value
  | redeclared _ => some .variable
  | argumentCount least most given =>
    if most < given then some .surplus else if given < least then some .value else none
  | untypedVariable _ => some .variable
  | untypedParameter _ => some .param
  | unused _ => none

structure Key where
  code : Nat
  role : Option Role
  span : Span
deriving DecidableEq

def Report.key (r : Report) : Key := ⟨r.fault.code, r.fault.role?, r.span⟩

namespace Key

variable (k : Key)

/-- What a report adds to the reports with this key. -/
def cost (fault : Fault) (span : Span) : Nat := if (Report.mk fault span).key = k then 1 else 0

/-- For how many reports with this key there is room at some spots. -/
def share (spots : List Spot) : Nat := spots.countP fun x => some x.1 = k.role ∧ x.2 = k.span

@[simp] theorem share_nil : k.share [] = 0 := rfl

@[simp] theorem share_append (spots spots' : List Spot) : k.share (spots ++ spots') = k.share spots + k.share spots' :=
  List.countP_append

theorem share_cons (x : Spot) (spots : List Spot) : k.share (x :: spots) = k.share [x] + k.share spots :=
  k.share_append [x] spots

theorem share_sublist {spots spots' : List Spot} (h : spots.Sublist spots') : k.share spots ≤ k.share spots' :=
  h.countP_le

theorem share_le_of_mem {x : Spot} {spots : List Spot} (h : x ∈ spots) : k.share [x] ≤ k.share spots :=
  k.share_sublist (List.singleton_sublist.mpr h)

/-- Spots that are all different have room for one report at most. -/
theorem share_le_one {spots : List Spot} (h : spots.Nodup) : k.share spots ≤ 1 := by
  cases hrole : k.role with
  | none => simp [share, hrole]
  | some role =>
    have hcount : k.share spots = spots.count (role, k.span) := by
      refine List.countP_congr fun x _ => ?_
      simp only [hrole, decide_eq_true_eq, Option.some.injEq, beq_iff_eq, Prod.ext_iff]
    rw [hcount]
    exact List.nodup_iff_count_le_one.mp h _

variable {k}

/-- A report takes up room at its place. -/
theorem cost_le {fault : Fault} {role : Role} (hrole : fault.role? = some role) (span : Span) :
    k.cost fault span ≤ k.share [(role, span)] := by
  unfold cost
  split
  · rename_i hkey
    subst hkey
    simp [share, Report.key, hrole]
  · exact Nat.zero_le _

/-- Reports with different numbers do not take up each other's room. -/
theorem cost_add_le {fault fault' : Fault} {role : Role} (hcode : fault.code ≠ fault'.code) (hrole : fault.role? = some role)
    (hrole' : fault'.role? = some role) (span : Span) :
    k.cost fault span + k.cost fault' span ≤ k.share [(role, span)] := by
  by_cases hkey : (Report.mk fault span).key = k
  · have hother : (Report.mk fault' span).key ≠ k := by
      intro hkey'
      exact hcode (congrArg Key.code (hkey.trans hkey'.symm))
    rw [cost, cost, if_neg hother]
    exact cost_le hrole span
  · rw [cost, if_neg hkey, Nat.zero_add]
    exact cost_le hrole' span

/-! ## Shares of expressions -/

variable (k)

/-- The share of the names of properties. -/
def names (properties : List Property) : Nat := (properties.map fun p => k.share [(.value, p.name.span)]).sum

theorem share_le_names {properties : List Property} {p : Property} (hp : p ∈ properties) :
    k.share [(.value, p.name.span)] ≤ k.names properties :=
  List.le_sum_of_mem (List.mem_map_of_mem hp)

/-- Whether the key is one of reports about the number of arguments. -/
def IsCount : Prop := k.code = (Fault.argumentCount 0 0 0).code

instance : Decidable k.IsCount := inferInstanceAs (Decidable (_ = _))

/-- What may be reported about the number of arguments at a call itself. -/
def few (call : Span) : Nat := if k.IsCount then k.share [(.value, call)] else 0

/-- What the check of an expression may report by itself. Whether its value fits is for others to say. -/
def own (e : Expr) : Nat :=
  match e.kind with
  | .ident name => k.share (nameSpots name e.span)
  | .object properties => (properties.map fun p => k.share p.value.bareContent.spots).sum
  | .call callee args => k.few e.span + k.share (ExprKind.call callee args).content.spots
  | kind => k.share kind.content.spots

/-- What may be reported about an expression at the properties that it lists. -/
def listed (e : Expr) : Nat :=
  match e.kind with
  | .object properties => if k.IsCount then 0 else k.names properties
  | _ => 0

/-- What may be reported about a value that does not fit, at this span. -/
def misfit (span : Span) : Nat := if k.IsCount then 0 else k.share [(.value, span)]

variable (e : Expr)

theorem share_content : k.share e.content.spots = k.share (e.kind.spots e.span) + k.share e.kind.content.spots := by
  rw [e.content_eq, Content.spots_inside, Content.spots_append, share_append, Content.spots_ofSpots]

theorem share_bareContent :
    k.share e.bareContent.spots = k.share (e.kind.bareSpots e.span) + k.share e.kind.content.spots := by
  rw [e.bareContent_eq, Content.spots_inside, Content.spots_append, share_append, Content.spots_ofSpots]

/-- The shares of a list. -/
theorem share_foldr {α : Type} (f : α → Content) (xs : List α) :
    k.share (xs.foldr (fun x c => f x ++ c) .none).spots = (xs.map fun x => k.share (f x).spots).sum := by
  induction xs with
  | nil => rfl
  | cons x xs ih => rw [List.foldr_cons, Content.spots_append, share_append, ih, List.map_cons, List.sum_cons]

theorem share_properties (properties : List Property) : k.share (propertiesContent properties).spots =
    k.names properties + (properties.map fun p => k.share p.value.bareContent.spots).sum := by
  rw [propertiesContent_eq, share_foldr, names, ← List.sum_map_add]
  refine congrArg List.sum (List.map_congr_left fun p _ => ?_)
  cases p
  exact share_append k _ _

theorem share_ifElse (condition : Expr) (thenBranch : Statement) (elseBranch : Option Statement) (span : Span) :
    k.share (Statement.ifElse ⟨condition, thenBranch, elseBranch, span⟩).content.spots =
      k.share condition.content.spots +
        (k.share thenBranch.content.spots + k.share (statementContent? elseBranch).spots) := by
  rw [← k.share_append, ← k.share_append]
  rfl

/-- The check of an expression and the reports at its properties share what the expression has where nothing is asked of its
value. -/
theorem own_add_listed_le : k.own e + k.listed e ≤ k.share e.bareContent.spots := by
  rw [share_bareContent]
  obtain ⟨kind, span⟩ := e
  cases kind with
  | object properties =>
    have hshare := k.share_properties properties
    simp only [own, listed, ExprKind.bareSpots, ExprKind.content, share_nil]
    split <;> omega
  | call callee args =>
    simp only [own, few, listed, ExprKind.bareSpots]
    split <;> omega
  | ident name => simp [own, listed, ExprKind.bareSpots]
  | _ => simp [own, listed]

theorem own_add_listed_le_content : k.own e + k.listed e ≤ k.share e.content.spots :=
  Nat.le_trans (k.own_add_listed_le e) (k.share_sublist e.bareContent_sublist)

/-- The rest is left for the value as a whole. What could not be read has no value. -/
theorem own_add_misfits_le (h : e.kind ≠ .error) : k.own e + (k.listed e + k.misfit e.span) ≤ k.share e.content.spots := by
  rw [share_content]
  obtain ⟨kind, span⟩ := e
  cases kind with
  | error => exact absurd rfl h
  | object properties =>
    have hshare := k.share_properties properties
    simp only [own, listed, misfit, ExprKind.spots, ExprKind.content]
    split <;> omega
  | call callee args =>
    simp only [own, few, listed, misfit, ExprKind.spots]
    split <;> omega
  | ident name =>
    simp only [own, listed, misfit, ExprKind.spots, share_append]
    split <;> omega
  | _ =>
    simp only [own, listed, misfit, ExprKind.spots]
    split <;> omega

end Key

end Recheck.Check
