import Recheck.Proofs.Syntax.Places
import Recheck.Syntax.Walk

/-!
# Walks meet every node once

The statements of a tree are enumerated in two rounds: first those outside of function expressions, then body by body, over
all the expressions; the types are collected from the heads of these statements and expressions. What the two rounds give
for a piece of the tree (`Piece.met`) is, in another order, the piece itself and what they give for its parts
(`Piece.met_perm_parts`). So nothing in the tree is left out and nothing is met twice (`everyStatement_everyType_once`). Only
the default values of the parameters of function types are not looked at (`Piece.mem_everyType_iff`).
-/

set_option autoImplicit false

namespace Recheck.Syntax

/-! ## Lists are enumerated item by item -/

theorem nestedStatements_eq (xs : List Statement) : nestedStatements xs = xs.flatMap (·.nested) := by
  induction xs with
  | nil => rfl
  | cons s rest ih => rw [nestedStatements, ih, List.flatMap_cons]

theorem exprsOf_eq (xs : List Statement) : exprsOf xs = xs.flatMap (·.exprs) := by
  induction xs with
  | nil => rfl
  | cons s rest ih => rw [exprsOf, ih, List.flatMap_cons]

theorem Expr.nestedAll_eq (xs : List Expr) : Expr.nestedAll xs = xs.flatMap (·.nested) := by
  induction xs with
  | nil => rfl
  | cons e rest ih => rw [Expr.nestedAll, ih, List.flatMap_cons]

theorem Declarator.exprsOf_eq (xs : List Declarator) :
    Declarator.exprsOf xs = xs.flatMap fun d => d.init.toList.flatMap (·.nested) := by
  induction xs with
  | nil => rfl
  | cons d rest ih => obtain ⟨_, _, _ | e, _⟩ := d <;> simp [Declarator.exprsOf, ih]

theorem Param.exprsOf_eq (xs : List Param) :
    Param.exprsOf xs = xs.flatMap fun p => p.default.toList.flatMap (·.nested) := by
  induction xs with
  | nil => rfl
  | cons p rest ih => obtain ⟨_, _, _, _, _ | e, _⟩ := p <;> simp [Param.exprsOf, ih]

theorem Property.exprsOf_eq (xs : List Property) : Property.exprsOf xs = xs.flatMap (·.value.nested) := by
  induction xs with
  | nil => rfl
  | cons p rest ih =>
    obtain ⟨_, e, _⟩ := p
    rw [Property.exprsOf, ih, List.flatMap_cons]

theorem TypeNode.nestedAll_eq (xs : List TypeNode) : TypeNode.nestedAll xs = xs.flatMap (·.nested) := by
  induction xs with
  | nil => rfl
  | cons t rest ih => rw [TypeNode.nestedAll, ih, List.flatMap_cons]

theorem Member.types_eq (xs : List Member) : Member.types xs = xs.flatMap fun m => m.type.toList.flatMap (·.nested) := by
  induction xs with
  | nil => rfl
  | cons m rest ih => obtain ⟨_, _, _ | t, _⟩ := m <;> simp [Member.types, ih]

theorem Param.types_eq (xs : List Param) : Param.types xs = xs.flatMap fun p => p.type.toList.flatMap (·.nested) := by
  induction xs with
  | nil => rfl
  | cons p rest ih => obtain ⟨_, _, _, _ | t, _, _⟩ := p <;> simp [Param.types, ih]

namespace Piece

/-! ## What the walks give for a piece -/

/-- A statement that is met, with the types in its head. -/
@[simp] def ofNested (s : Statement) : List Piece := statement s :: s.headTypes.map type

/-- An expression that is met, with the statements in its body and the types in its head. -/
def ofInner (e : Expr) : List Piece := expr e :: (e.bodyStatements.flatMap ofNested ++ e.headTypes.map type)

/-- What is met when statements are looked at. -/
def inStatements (statements : List Statement) : List Piece :=
  statements.flatMap fun s => s.nested.flatMap ofNested ++ s.exprs.flatMap ofInner

/-- What is met when expressions are looked at. -/
def inExprs (exprs : List Expr) : List Piece := exprs.flatMap fun e => e.nested.flatMap ofInner

/-- What is met when types are looked at. -/
def inTypes (types : List TypeNode) : List Piece := types.flatMap fun t => t.nested.map type

/-- The statements, the expressions and the types that the walks meet in a piece, each as often as it is met. -/
@[simp] def met : Piece → List Piece
  | module m => inStatements m.statements
  | statement s => inStatements [s]
  | declarator d => inTypes d.type.toList ++ inExprs d.init.toList
  | param p => inTypes p.type.toList ++ inExprs p.default.toList
  | member m => inTypes m.type.toList
  | block b => inStatements b.statements
  | property p => inExprs [p.value]
  | expr e => inExprs [e]
  | type t => inTypes [t]
  | ident _ => []
  | literal _ => []
  | word _ => []

/-- A piece that the walks are about. -/
def own : Piece → List Piece
  | statement s => [statement s]
  | expr e => [expr e]
  | type t => [type t]
  | _ => []

@[simp] theorem inStatements_singleton (s : Statement) :
    inStatements [s] = s.nested.flatMap ofNested ++ s.exprs.flatMap ofInner := List.flatMap_singleton ..

@[simp] theorem inExprs_singleton (e : Expr) : inExprs [e] = e.nested.flatMap ofInner := List.flatMap_singleton ..

@[simp] theorem inTypes_singleton (t : TypeNode) : inTypes [t] = t.nested.map type := List.flatMap_singleton ..

@[simp] theorem flatMap_met_statement (xs : List Statement) : (xs.map statement).flatMap met = inStatements xs := by
  simp [List.flatMap_map, met, inStatements]

@[simp] theorem flatMap_met_expr (xs : List Expr) : (xs.map expr).flatMap met = inExprs xs := by
  simp [List.flatMap_map, met, inExprs]

@[simp] theorem flatMap_met_type (xs : List TypeNode) : (xs.map type).flatMap met = inTypes xs := by
  simp [List.flatMap_map, met, inTypes]

@[simp] theorem flatMap_met_ident (xs : List Ident) : (xs.map ident).flatMap met = [] := by
  simp [List.flatMap_map, met]

@[simp] theorem flatMap_met_literal (xs : List StringLiteral) : (xs.map literal).flatMap met = [] := by
  simp [List.flatMap_map, met]

@[simp] theorem flatMap_met_import (xs : List ImportSpecifier) : (xs.flatMap ofImport).flatMap met = [] := by
  simp [ofImport, List.flatMap_assoc, List.flatMap_eq_nil_iff]

@[simp] theorem flatMap_met_export (xs : List ExportSpecifier) : (xs.flatMap ofExport).flatMap met = [] := by
  simp [ofExport, List.flatMap_assoc, List.flatMap_eq_nil_iff]

/-! ## A piece and its parts -/

@[simp] theorem map_types_nestedAll (xs : List TypeNode) : (TypeNode.nestedAll xs).map type = inTypes xs := by
  rw [TypeNode.nestedAll_eq, List.map_flatMap, inTypes]

@[simp] theorem map_types_member (xs : List Member) : (Member.types xs).map type = (xs.map member).flatMap met := by
  simp [Member.types_eq, List.map_flatMap, List.flatMap_map, met, inTypes]

@[simp] theorem flatMap_ofInner_nestedAll (xs : List Expr) : (Expr.nestedAll xs).flatMap ofInner = inExprs xs := by
  rw [Expr.nestedAll_eq, List.flatMap_assoc, inExprs]

@[simp] theorem flatMap_ofInner_property (xs : List Property) :
    (Property.exprsOf xs).flatMap ofInner = (xs.map property).flatMap met := by
  simp [Property.exprsOf_eq, List.flatMap_assoc, List.flatMap_map, met, inExprs]

section Counts

open Classical

variable (q : Piece)

/-- The types and the expressions of some parameters, taken one kind after the other, are those of one parameter after the
other. -/
theorem count_params (xs : List Param) :
    ((Param.types xs).map type).count q + ((Param.exprsOf xs).flatMap ofInner).count q =
      ((xs.map param).flatMap met).count q := by
  rw [← List.count_append, Param.types_eq, Param.exprsOf_eq, List.map_flatMap, List.flatMap_assoc, List.flatMap_map]
  have hperm := List.flatMap_append_perm xs (fun p => inTypes p.type.toList) fun p => inExprs p.default.toList
  simpa only [met, inTypes, inExprs, List.map_flatMap, List.flatMap_assoc] using hperm.count_eq q

theorem count_declarators (xs : List Declarator) :
    ((xs.flatMap fun d => TypeNode.nestedAll d.type.toList).map type).count q +
      ((Declarator.exprsOf xs).flatMap ofInner).count q = ((xs.map declarator).flatMap met).count q := by
  rw [← List.count_append, Declarator.exprsOf_eq, List.map_flatMap, List.flatMap_assoc, List.flatMap_map]
  have hperm := List.flatMap_append_perm xs (fun d => inTypes d.type.toList) fun d => inExprs d.init.toList
  simpa only [map_types_nestedAll, met, inTypes, inExprs, List.map_flatMap, List.flatMap_assoc] using hperm.count_eq q

theorem count_statements (xs : List Statement) :
    ((nestedStatements xs).flatMap ofNested).count q + ((exprsOf xs).flatMap ofInner).count q =
      (inStatements xs).count q := by
  rw [← List.count_append, nestedStatements_eq, exprsOf_eq, List.flatMap_assoc, List.flatMap_assoc]
  exact (List.flatMap_append_perm xs _ _).count_eq q

theorem met_perm_statement (s : Statement) : (met (statement s)).Perm (statement s :: (ofStatement s).flatMap met) := by
  refine List.perm_iff_count.mpr fun q => ?_
  cases s with
  | variableDecl d =>
    obtain ⟨modifiers, kind, keyword, declarators, span⟩ := d
    have hdeclarators := count_declarators q declarators
    simp [Statement.nested, Statement.exprs, Statement.headTypes, ofStatement, List.count_cons]
    omega
  | function d =>
    -- the types and the expressions of the parameters stand on either side of the statements in the body
    obtain ⟨modifiers, name, typeParams, params, returnType, body, span⟩ := d
    have hparams := count_params q params
    cases body with
    | none =>
      simp [Statement.nested, FunctionDecl.nestedBody, Statement.exprs, Statement.headTypes, ofStatement, List.count_cons]
      omega
    | some body =>
      obtain ⟨body, span⟩ := body
      have hbody := count_statements q body
      simp [Statement.nested, FunctionDecl.nestedBody, Block.nested, Statement.exprs, Statement.headTypes, ofStatement,
        List.count_cons]
      omega
  | moduleDecl d =>
    obtain ⟨modifiers, name, _ | body, span⟩ := d
    · cases name <;>
        simp [Statement.nested, ModuleDecl.nestedBody, Statement.exprs, Statement.headTypes, ofStatement, ofModuleName]
    · have hbody := count_statements q body
      cases name <;>
        simp [Statement.nested, ModuleDecl.nestedBody, Statement.exprs, Statement.headTypes, ofStatement, ofModuleName,
          List.count_cons] <;>
        omega
  | ifElse d =>
    obtain ⟨condition, thenBranch, _ | elseBranch, span⟩ := d <;>
      simp [Statement.nested, IfStatement.nested, Statement.exprs, Statement.headTypes, ofStatement, List.count_cons] <;>
      omega
  | block b =>
    obtain ⟨body, span⟩ := b
    have hbody := count_statements q body
    simp [Statement.nested, Block.nested, Statement.exprs, Statement.headTypes, ofStatement, List.count_cons]
    omega
  | exportDecl d =>
    obtain ⟨_ | _ | _ | _, span⟩ := d <;>
      simp [Statement.nested, Statement.exprs, Statement.headTypes, ofStatement, ofExportKind]
  | ret d =>
    obtain ⟨_ | _, span⟩ := d <;> simp [Statement.nested, Statement.exprs, Statement.headTypes, ofStatement]
  | _ => simp [Statement.nested, Statement.exprs, Statement.headTypes, ofStatement]

theorem met_perm_expr (e : Expr) : (met (expr e)).Perm (expr e :: (ofExpr e.kind).flatMap met) := by
  refine List.perm_iff_count.mpr fun q => ?_
  obtain ⟨kind, span⟩ := e
  cases kind with
  | function params returnType body =>
    have hparams := count_params q params
    cases body with
    | expr value =>
      simp [Expr.nested, ExprKind.inner, ofInner, Expr.bodyStatements, Expr.headTypes, ofExpr, ofBody, List.count_cons]
      omega
    | block body =>
      obtain ⟨body, span⟩ := body
      have hbody := count_statements q body
      simp [Expr.nested, ExprKind.inner, ofInner, Expr.bodyStatements, Expr.headTypes, ofExpr, ofBody, List.count_cons]
      omega
  | cast value target =>
    simp [Expr.nested, ExprKind.inner, ofInner, Expr.bodyStatements, Expr.headTypes, ofExpr, List.count_cons]
    omega
  | _ => simp [Expr.nested, ExprKind.inner, ofInner, Expr.bodyStatements, Expr.headTypes, ofExpr]

end Counts

/-- The parameters of a function type have no default value. -/
def Bare : Piece → Prop
  | type ⟨.function params _, _⟩ => ∀ p ∈ params, p.default = none
  | _ => True

/-- The pieces inside a piece that the walks go into: its parts, but of the parameters of a function type only their types. -/
def entered : Piece → List Piece
  | type ⟨.function params ret, _⟩ => params.flatMap (fun p => p.type.toList.map type) ++ [type ret]
  | p => p.parts

theorem met_type (t : TypeNode) : met (type t) = type t :: (type t).entered.flatMap met := by
  obtain ⟨kind, span⟩ := t
  cases kind with
  | function params ret =>
    have hparams : (params.flatMap fun p => p.type.toList.map type).flatMap met = (Param.types params).map type := by
      simp only [Param.types_eq, List.map_flatMap, List.flatMap_assoc, flatMap_met_type, inTypes]
    simp [TypeNode.nested, TypeKind.inner, entered, hparams]
  | _ => simp [TypeNode.nested, TypeKind.inner, entered, parts, ofType]

/-- What the walks meet in a piece is the piece itself and what they meet in those that they go into. -/
theorem met_perm_entered (p : Piece) : p.met.Perm (p.own ++ p.entered.flatMap met) := by
  cases p with
  | statement s => exact met_perm_statement s
  | expr e => exact met_perm_expr e
  | type t => rw [met_type]; rfl
  | _ => simp [own, entered, parts]

theorem flatMap_met_entered {p : Piece} (h : p.Bare) : p.entered.flatMap met = p.parts.flatMap met := by
  cases p with
  | type t =>
    obtain ⟨kind, span⟩ := t
    cases kind with
    | function params ret =>
      have hparam : ∀ p ∈ params, (p.type.toList.flatMap fun t => met (type t)) = met (param p) := by
        intro p hp
        rw [met, h p hp, ← List.flatMap_map, flatMap_met_type]
        exact (List.append_nil _).symm
      simp only [entered, parts, ofType, List.flatMap_append, List.flatMap_assoc, List.flatMap_map]
      rw [List.flatMap_congr hparam]
    | _ => rfl
  | _ => rfl

/-- What the walks meet in a piece is the piece itself and what they meet in its parts. -/
theorem met_perm_parts {p : Piece} (h : p.Bare) : p.met.Perm (p.own ++ p.parts.flatMap met) :=
  flatMap_met_entered h ▸ met_perm_entered p

/-! ## Nothing is left out, nothing is met twice -/

def statement? : Piece → Option Statement
  | statement s => some s
  | _ => none

def type? : Piece → Option TypeNode
  | type t => some t
  | _ => none

section Selected

variable (types : List TypeNode) (s : Statement) (e : Expr)

theorem statement?_types : (types.map type).filterMap statement? = [] := by simp [List.filterMap_map, statement?]

theorem type?_types : (types.map type).filterMap type? = types := by simp [List.filterMap_map, Function.comp_def, type?]

theorem statement?_ofNested : (ofNested s).filterMap statement? = [s] := by
  rw [ofNested, List.filterMap_cons, statement?_types]
  rfl

theorem type?_ofNested : (ofNested s).filterMap type? = s.headTypes := by
  rw [ofNested, List.filterMap_cons, type?_types]
  rfl

theorem statement?_ofInner : (ofInner e).filterMap statement? = e.bodyStatements := by
  rw [ofInner, List.filterMap_cons, List.filterMap_append, List.filterMap_flatMap]
  simp only [statement?, statement?_ofNested, statement?_types, List.flatMap_singleton', List.append_nil]

theorem type?_ofInner :
    (ofInner e).filterMap type? = e.bodyStatements.flatMap (·.headTypes) ++ e.headTypes := by
  rw [ofInner, List.filterMap_cons, List.filterMap_append, List.filterMap_flatMap]
  simp only [type?, type?_ofNested, type?_types]

end Selected

theorem type?_own (p : Piece) : p.own.filterMap type? = (type? p).toList := by cases p <;> rfl

/-- Of what the walks are about they meet each piece once, at any depth. -/
theorem lists_met {α : Type} {select : Piece → Option α} (hown : ∀ p, p.own.filterMap select = (select p).toList)
    (p : Piece) (h : p.Everywhere Bare) : Lists select p (p.met.filterMap select) := by
  induction p using Piece.induct with
  | step p ih =>
    have hparts := Lists.parts fun q hq => ih q hq (h.part hq)
    have hmet := (met_perm_parts h.self).filterMap select
    rw [List.filterMap_append, hown, List.filterMap_flatMap] at hmet
    exact hparts.perm hmet.symm

/-- What the walks meet in a whole tree. -/
theorem met_module_perm (m : SourceModule) : (module m).met.Perm
    ((nestedStatements m.statements).flatMap ofNested ++ (exprsOf m.statements).flatMap ofInner) := by
  classical
  refine List.perm_iff_count.mpr fun q => ?_
  rw [List.count_append, count_statements, met]

theorem statement?_met_module_perm (m : SourceModule) :
    ((module m).met.filterMap statement?).Perm (everyStatement m.statements) := by
  refine ((met_module_perm m).filterMap statement?).trans (.of_eq ?_)
  simp only [everyStatement, List.filterMap_append, List.filterMap_flatMap, statement?_ofNested, statement?_ofInner,
    List.flatMap_singleton']

theorem type?_met_module_perm (m : SourceModule) : ((module m).met.filterMap type?).Perm (everyType m.statements) := by
  refine ((met_module_perm m).filterMap type?).trans ?_
  simp only [everyType, everyStatement, List.filterMap_append, List.filterMap_flatMap, type?_ofNested, type?_ofInner,
    List.flatMap_append, List.flatMap_assoc, List.append_assoc]
  exact (List.flatMap_append_perm _ _ _).symm.append_left _

theorem lists_everyType (m : SourceModule) (h : (module m).Everywhere Bare) :
    Lists type? (module m) (everyType m.statements) :=
  (lists_met type?_own _ h).perm (type?_met_module_perm m)

/-! ## What is met anyway -/

/-- One piece is the other, or inside it where the walks get to: not in the default value of a parameter of a function type. -/
inductive Reaches : Piece → Piece → Prop where
  | self (p : Piece) : Reaches p p
  | enter {p q r : Piece} : q ∈ p.entered → Reaches q r → Reaches p r

/-- What the walks go into is a part, or a part of one. -/
theorem inside_of_mem_entered {p q : Piece} (h : q ∈ p.entered) : q ∈ p.parts ∨ ∃ r ∈ p.parts, q ∈ r.parts := by
  cases p with
  | type t =>
    obtain ⟨kind, span⟩ := t
    cases kind with
    | function params ret =>
      rcases List.mem_append.mp h with h | h
      · obtain ⟨p, hp, hq⟩ := List.mem_flatMap.mp h
        exact .inr ⟨param p, List.mem_append_left _ (List.mem_map_of_mem hp),
          List.mem_cons_of_mem _ (List.mem_append_left _ hq)⟩
      · exact .inl (List.mem_append_right _ h)
    | _ => exact .inl h
  | _ => exact .inl h

theorem mem_met_iff {p q : Piece} : q ∈ p.met ↔ ∃ r, p.Reaches r ∧ q ∈ r.own := by
  constructor
  · -- the walks may skip a level, so the claim is carried along for the parts as well
    suffices h : ∀ r, r = p ∨ r ∈ p.parts → q ∈ r.met → ∃ s, r.Reaches s ∧ q ∈ s.own from h p (.inl rfl)
    induction p using Piece.induct with
    | step p ih =>
      rintro r (rfl | hr) hq
      · rcases List.mem_append.mp ((met_perm_entered r).mem_iff.mp hq) with hown | hq
        · exact ⟨r, .self r, hown⟩
        · obtain ⟨s, hs, hq⟩ := List.mem_flatMap.mp hq
          obtain ⟨u, hu, hqu⟩ : ∃ u, s.Reaches u ∧ q ∈ u.own := by
            rcases inside_of_mem_entered hs with hpart | ⟨r', hr', hpart⟩
            · exact ih s hpart s (.inl rfl) hq
            · exact ih r' hr' s (.inr hpart) hq
          exact ⟨u, .enter hs hu, hqu⟩
      · exact ih r hr r (.inl rfl) hq
  · rintro ⟨r, hr, hq⟩
    induction hr with
    | self p => exact (met_perm_entered p).mem_iff.mpr (List.mem_append_left _ hq)
    | enter hs _ ih =>
      exact (met_perm_entered _).mem_iff.mpr (List.mem_append_right _ (List.mem_flatMap.mpr ⟨_, hs, ih hq⟩))

/-- The types that the rules look at are those of the tree that the walks get to. -/
theorem mem_everyType_iff {m : SourceModule} {t : TypeNode} :
    t ∈ everyType m.statements ↔ (module m).Reaches (type t) := by
  rw [← (type?_met_module_perm m).mem_iff, List.mem_filterMap]
  constructor
  · rintro ⟨p, hp, htype⟩
    obtain ⟨r, hr, hp⟩ := mem_met_iff.mp hp
    have hown : t ∈ r.own.filterMap type? := List.mem_filterMap.mpr ⟨p, hp, htype⟩
    rw [type?_own, Option.mem_toList] at hown
    cases r with
    | type t' => rwa [Option.some.inj hown] at hr
    | _ => exact nomatch hown
  · exact fun h => ⟨type t, mem_met_iff.mpr ⟨type t, h, List.mem_singleton_self _⟩, rfl⟩

end Piece

open Piece

/-- The statements that the rules look at are those of the tree, once each: in blocks, branches and modules, and in the
bodies of function expressions wherever an expression can stand. The types are those of the tree, once each, in whatever
they are written. No parameter of a function type may have a default value, for that is not looked at. -/
theorem everyStatement_everyType_once (m : SourceModule) (h : (Piece.module m).Everywhere Bare) :
    Lists statement? (.module m) (everyStatement m.statements) ∧ Lists type? (.module m) (everyType m.statements) :=
  ⟨(lists_met (fun p => by cases p <;> rfl) _ h).perm (statement?_met_module_perm m), lists_everyType m h⟩

/-- A function expression in the arguments of a call, with a statement and a cast inside it, and a function type. -/
theorem everyStatement_everyType_once_nested :
    let here := Span.empty
    let number : TypeNode := ⟨.keyword .number, here⟩
    let body : List Statement := [.ret ⟨some ⟨.cast ⟨.this, here⟩ ⟨.array number, here⟩, here⟩, here⟩]
    let param : Param := ⟨⟨"x", here⟩, false, false, some number, none, here⟩
    let call : Expr := ⟨.call ⟨.ident "f", here⟩ [⟨.function [param] none (.block ⟨body, here⟩), here⟩], here⟩
    let declarator : Declarator := ⟨⟨"v", here⟩, some ⟨.function [param] number, here⟩, some call, here⟩
    let m : SourceModule := ⟨[.variableDecl ⟨.none, .const, here, [declarator], here⟩], here⟩
    (Piece.module m).Everywhere Bare ∧
      Lists statement? (.module m) (everyStatement m.statements) ∧ Lists type? (.module m) (everyType m.statements) := by
  intro here number body param call declarator m
  have hbare : (Piece.module m).Everywhere Bare := by
    simp [everywhere_iff, m, declarator, call, param, body, number, parts, ofStatement, ofExpr, ofType, ofBody, Bare]
  exact ⟨hbare, everyStatement_everyType_once m hbare⟩

end Recheck.Syntax
