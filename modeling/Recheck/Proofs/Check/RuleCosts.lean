import Recheck.Proofs.Check.Costs
import Recheck.Proofs.Types.UpperBound

/-!
# What the rules may report

Whatever the rule for a node is answered, it reports no more than the content of the node has room for (`costs_rule`): it
judges each part of the node once, and what the parts leave of the share of the node it uses up at most once.
-/

set_option autoImplicit false

namespace Recheck.Check

open Syntax

section

variable {k : Key} {scope : ScopeId} {site : Site} {n : Nat}

/-! ## Types -/

theorem costs_typeMeanings (types : List TypeNode) :
    Costs k scope (types.mapM (typeMeaning · site)) (k.share (typesContent types).spots) := by
  rw [typesContent_eq, Key.share_foldr]
  exact Spends.mapM fun t _ => costs_typeMeaning t

theorem costs_typeMeaning? (type : Option TypeNode) :
    Costs k scope (type.mapM (typeMeaning · site)) (k.share (typeContent? type).spots) := by
  refine Spends.optionMapM fun t ht => ?_
  obtain rfl := Option.mem_def.mp ht
  exact costs_typeMeaning t

theorem costs_addMember (object : ObjectTy) (member : Member) :
    Costs k scope (addMember object member site) (k.share (typeContent? member.type).spots) := by
  unfold addMember
  dsimp only
  split
  · rename_i type htype
    rw [htype]
    refine (costs_typeMeaning type).bind_pure fun _ _ => ?_
    split <;> trivial
  · rw [CheckM.pure_bind]
    split <;> trivial

theorem costs_headReport (first : Ident) (rest : List Ident) :
    Costs k scope (report (.unknownName first.name) first.span) (k.share (headSpots (first :: rest))) :=
  (costs_report _ _).mono (Key.cost_le rfl _)

theorem costs_referenceType (name : List Ident) (args : List TypeNode) : Costs k site.scope (referenceType name args site)
    (k.share (TypeKind.reference name args).content.spots) := by
  unfold referenceType
  have hshare : k.share (TypeKind.reference name args).content.spots =
      k.share (headSpots name) + k.share (typesContent args).spots := k.share_append _ _
  refine (costs_typeMeanings args).bind (m := k.share (headSpots name)) (fun types _ => ?_) (by omega)
  split
  · trivial
  · rename_i first rest
    refine (costs_lookupType first.name).bind_free fun found _ => ?_
    split
    · exact (costs_headReport first rest).bind_pure fun _ _ => trivial
    · rename_i symbol
      split
      · exact costs_symbolType symbol types
      · refine (costs_resolveTypeSymbol symbol).bind_free fun target _ => ?_
        split
        · refine costs_bindings.bind_free fun b _ => ?_
          split
          · exact costs_symbolType _ types
          · trivial
        · trivial

theorem costs_typeofType (name : List Ident) :
    Costs k site.scope (typeofType name site) (k.share (headSpots name)) := by
  unfold typeofType
  split
  · trivial
  · rename_i first rest
    refine (spends_lookupValue first.name).bind_free fun found _ => ?_
    split
    · exact (costs_headReport first rest).bind_pure fun _ _ => trivial
    · split
      · exact costs_valueType _
      · trivial

theorem costs_annotatedParam (param : Param) :
    Costs k scope (annotatedParam param site) (k.share (typeContent? param.type).spots) := by
  unfold annotatedParam
  dsimp only
  cases param.type with
  | none => trivial
  | some type => exact (costs_typeMeaning type).bind_pure fun _ _ => trivial

theorem costs_typeRule (node : TypeNode) : Costs k site.scope (typeRule node site) (k.share node.content.spots) := by
  obtain ⟨kind, span⟩ := node
  change Costs k site.scope _ (k.share kind.content.spots)
  unfold typeRule
  cases kind with
  | keyword | literal | error => trivial
  | reference name args => exact costs_referenceType name args
  | union members => exact (costs_typeMeanings members).bind_pure fun _ _ => trivial
  | intersection members => exact (costs_typeMeanings members).bind_pure fun _ _ => trivial
  | array element => exact (costs_typeMeaning element).bind_pure fun _ _ => trivial
  | tuple elements => exact (costs_typeMeanings elements).bind_pure fun _ _ => trivial
  | object members =>
    change Costs k site.scope _ (k.share (membersContent members).spots)
    rw [membersContent_eq, Key.share_foldr]
    refine Spends.bind_pure (Spends.foldlM fun member _ object => ?_) fun _ _ => trivial
    exact costs_addMember object member
  | function params ret =>
    have hshare : k.share (TypeKind.function params ret).content.spots =
        k.share (annotationsContent params).spots + k.share ret.content.spots := k.share_append _ _
    rw [annotationsContent_eq, Key.share_foldr] at hshare
    refine Spends.bind (Spends.mapM fun param _ => costs_annotatedParam param) (fun _ _ => ?_) (Nat.le_of_eq hshare.symm)
    exact (costs_typeMeaning ret).bind_pure fun _ _ => trivial
  | typeof name => exact costs_typeofType name

/-! ## Values that have to fit -/

/-- Of what could not be read nothing is known, so it fits everywhere. -/
theorem assignFault?_of_error {strict : Bool} {value : Expr} (h : value.kind = .error) (target : Ty) (span : Span)
    (relationship : Relationship) : assignFault? strict value .any target span relationship = none := by
  have hfits : Ty.isAssignable strict .any target = true := Ty.assignableWithin_of_lenient _ (.inl (.inl rfl)) target
  simp [assignFault?, h, hfits]

theorem assignFault?_any (strict : Bool) (value : Expr) (source : Ty) (span : Span) (relationship : Relationship) :
    assignFault? strict value source .any span relationship = none := by
  have hfits : Ty.isAssignable strict source .any = true := Ty.assignableWithin_any _ source
  simp [assignFault?, hfits]

/-- What is reported about a value that does not fit, and where: at the given span or at a property. -/
structure Misfit (value : Expr) (span : Span) (fault : Fault) (place : Span) : Prop where
  role : fault.role? = some .value
  code : fault.code ≠ (Fault.argumentCount 0 0 0).code
  place : place = span ∨ ∃ properties, value.kind = .object properties ∧ ∃ p ∈ properties, place = p.name.span

theorem mem_of_excessProperty? {properties : List Property} {target : ObjectTy} {p : Property}
    (h : excessProperty? properties target = some p) : p ∈ properties := by
  unfold excessProperty? at h
  split at h
  · exact List.mem_of_find?_eq_some h
  · cases h

theorem mem_of_unfitProperty? {strict : Bool} {properties : List Property} {source target : ObjectTy}
    {found : Property × Ty × Ty} (h : unfitProperty? strict properties source target = some found) :
    found.1 ∈ properties := by
  obtain ⟨p, hp, hfound⟩ := List.exists_of_findSome?_eq_some h
  split at hfound
  · split at hfound
    · cases hfound
    · obtain rfl := Option.some.inj hfound
      exact hp
  · cases hfound

theorem misfit_of_literalFault? {strict : Bool} {value : Expr} {properties : List Property} {source : Ty} {target : ObjectTy}
    {span : Span} {relationship : Relationship} {found : Fault × Span} (hkind : value.kind = .object properties)
    (h : literalFault? strict properties source target relationship = some found) : Misfit value span found.1 found.2 := by
  unfold literalFault? at h
  split at h
  · rename_i p hexcess
    obtain rfl := Option.some.inj h
    exact ⟨rfl, by simp [Fault.code], .inr ⟨properties, hkind, p, mem_of_excessProperty? hexcess, rfl⟩⟩
  · split at h
    · obtain ⟨⟨p, actual, expected⟩, hunfit, rfl⟩ := Option.map_eq_some_iff.mp h
      exact ⟨rfl, by simp [Fault.code], .inr ⟨properties, hkind, p, mem_of_unfitProperty? hunfit, rfl⟩⟩
    · cases h

theorem misfit_mismatch (value : Expr) (span : Span) (source target : Ty) (relationship : Relationship) :
    Misfit value span (mismatch source target relationship) span := by
  have hrole : (mismatch source target relationship).role? = some .value ∧
      (mismatch source target relationship).code ≠ (Fault.argumentCount 0 0 0).code := by
    unfold mismatch
    dsimp only
    split <;> exact ⟨rfl, by simp [Fault.code]⟩
  exact ⟨hrole.1, hrole.2, .inl rfl⟩

theorem misfit_of_assignFault? {strict : Bool} {value : Expr} {source target : Ty} {span : Span} {relationship : Relationship}
    {found : Fault × Span} (h : assignFault? strict value source target span relationship = some found) :
    Misfit value span found.1 found.2 := by
  unfold assignFault? at h
  dsimp only at h
  split at h
  · rename_i hliteral
    obtain rfl := Option.some.inj h
    split at hliteral
    · rename_i hkind
      exact misfit_of_literalFault? hkind hliteral
    · cases hliteral
  · split at h
    · cases h
    · obtain rfl := Option.some.inj h
      exact misfit_mismatch value span source target relationship

theorem Misfit.cost_le {value : Expr} {span : Span} {fault : Fault} {place : Span} (h : Misfit value span fault place) :
    k.cost fault place ≤ k.listed value + k.misfit span := by
  have hcost : k.cost fault place ≤ k.misfit place := by
    unfold Key.misfit
    split
    · rename_i hcount
      rw [Key.cost, if_neg]
      rintro rfl
      exact h.code hcount
    · exact Key.cost_le h.role place
  rcases h.place with rfl | ⟨properties, hkind, p, hp, rfl⟩
  · omega
  · have hlisted : k.misfit p.name.span ≤ k.listed value := by
      simp only [Key.misfit, Key.listed, hkind]
      split
      · exact Nat.le_refl 0
      · exact k.share_le_names hp
    omega

theorem costs_checkAssignable (value : Expr) (source target : Ty) (span : Span) (relationship : Relationship) :
    Costs k scope (checkAssignable value source target span relationship) (k.listed value + k.misfit span) := by
  unfold checkAssignable
  refine costs_options.bind_free fun opts _ => ?_
  split
  · rename_i found
    exact (costs_report _ _).mono (misfit_of_assignFault? found).cost_le
  · trivial

/-- What is left of the share of a value whose type has been worked out is enough to check that it fits. -/
theorem costs_checkFits {value : Expr} {source : Ty} (h : value.kind = .error → source = .any) (target : Ty)
    (relationship : Relationship) : Costs k scope (checkAssignable value source target value.span relationship)
      (k.share value.content.spots - k.own value) := by
  by_cases herror : value.kind = .error
  · obtain rfl := h herror
    unfold checkAssignable
    refine costs_options.bind_free fun opts _ => ?_
    rw [assignFault?_of_error herror]
    trivial
  · have hshare := k.own_add_misfits_le value herror
    exact (costs_checkAssignable value source target value.span relationship).mono (by omega)

theorem own_le_content (k : Key) (e : Expr) : k.own e ≤ k.share e.content.spots :=
  Nat.le_trans (Nat.le_add_right _ _) (k.own_add_listed_le_content e)

theorem own_le_bareContent (k : Key) (e : Expr) : k.own e ≤ k.share e.bareContent.spots :=
  Nat.le_trans (Nat.le_add_right _ _) (k.own_add_listed_le e)

/-! ## Expressions -/

theorem costs_exprType (e : Expr) (expected : Option Ty) :
    Costs k scope (exprType e site expected) (k.share e.content.spots) :=
  ((spends_exprType e expected).imp fun _ _ => trivial).mono (own_le_content k e)

/-- Where nothing is asked of the value, a smaller share is enough. -/
theorem costs_bareExprType (e : Expr) (expected : Option Ty) :
    Costs k scope (exprType e site expected) (k.share e.bareContent.spots) :=
  ((spends_exprType e expected).imp fun _ _ => trivial).mono (own_le_bareContent k e)

theorem costs_identType (name : String) (span : Span) :
    Costs k site.scope (identType name span site) (k.share (nameSpots name span)) := by
  unfold identType
  refine (spends_lookupValue name).bind_free fun found hfound => ?_
  split
  · exact costs_valueType _
  · have hname : name ≠ "import" := fun h => by simpa using hfound h
    refine costs_bindings.bind_free fun b _ => ?_
    split
    · refine Spends.bind_pure ((costs_report _ _).mono ?_) fun _ _ => trivial
      rw [nameSpots, if_neg hname]
      exact Key.cost_le rfl span
    · trivial

theorem costs_propertyType (object : Ty) (property : Ident) :
    Costs k scope (propertyType object property) (k.share [(.member, property.span)]) := by
  unfold propertyType
  dsimp only
  split
  · split
    · trivial
    · exact ((costs_report _ _).mono (Key.cost_le rfl _)).bind_pure fun _ _ => trivial
  · trivial

theorem costs_memberOfSymbol (symbol : ValueSymbol) (property : Ident) :
    Costs k scope (memberOfSymbol symbol property) (k.share [(.member, property.span)]) := by
  unfold memberOfSymbol
  refine (costs_resolveValue symbol).bind_free fun target _ => ?_
  split
  · refine costs_bindings.bind_free fun b _ => ?_
    split
    · exact costs_valueType _
    · trivial
  · exact (costs_valueType symbol).bind_free fun type _ => costs_propertyType type property

theorem costs_memberExprType (object : Expr) (property : Ident) : Costs k site.scope (memberExprType object property site)
    (k.share (ExprKind.member object property).content.spots) := by
  have hshare : k.share (ExprKind.member object property).content.spots =
      k.share object.content.spots + k.share [(.member, property.span)] := k.share_append _ _
  have hproperty : Costs k site.scope (do propertyType (← exprType object site none) property)
      (k.share (ExprKind.member object property).content.spots) :=
    (costs_exprType object none).bind (fun type _ => costs_propertyType type property) (Nat.le_of_eq hshare.symm)
  unfold memberExprType
  dsimp only
  split
  · refine (spends_lookupValue _).bind_free fun found _ => ?_
    split
    · exact (costs_memberOfSymbol _ property).mono (by omega)
    · exact hproperty
  · rw [CheckM.pure_bind]
    exact hproperty

theorem costs_arrayType (items : List Expr) (expected : Option Ty) :
    Costs k scope (arrayType items site expected) (k.share (exprsContent items).spots) := by
  unfold arrayType
  rw [exprsContent_eq, Key.share_foldr]
  refine Spends.bind_pure (Spends.mapM fun item _ => ?_) fun types _ => ?_
  · exact (costs_exprType item _).bind_pure fun _ _ => trivial
  · split <;> trivial

theorem costs_addProperty (expected : Option Ty) (object : ObjectTy) (p : Property) :
    Costs k scope (addProperty expected site object p) (k.share p.value.bareContent.spots) := by
  unfold addProperty
  split
  · refine (costs_bareExprType p.value none).bind_pure fun _ _ => ?_
    split <;> trivial
  · exact (costs_bareExprType p.value _).bind_pure fun _ _ => trivial

/-! ### Calls -/

/-- Where a call can have too many arguments. -/
def surplusSpots : List Expr → List Spot
  | [] => []
  | e :: rest => (.surplus, coverSpan e rest) :: surplusSpots rest

theorem share_argsContent (k : Key) (args : List Expr) :
    k.share (argsContent args).spots = k.share (surplusSpots args) + (args.map fun e => k.share e.content.spots).sum := by
  induction args with
  | nil => rfl
  | cons e rest ih =>
    have happend : k.share (argsContent (e :: rest)).spots =
        k.share [(.surplus, coverSpan e rest)] + k.share e.content.spots + k.share (argsContent rest).spots := by
      rw [argsContent, Content.spots_append, Key.share_append, Content.spots_append, Key.share_append, Content.spots_ofSpots]
    rw [happend, ih, surplusSpots, k.share_cons _ (surplusSpots rest), List.map_cons, List.sum_cons]
    omega

/-- Any arguments at the end are among the places. -/
theorem mem_surplusSpots {args rest : List Expr} {first : Expr} {n : Nat} (h : args.drop n = first :: rest) :
    (Role.surplus, coverSpan first rest) ∈ surplusSpots args := by
  induction args generalizing n with
  | nil => simp at h
  | cons e args ih =>
    cases n with
    | zero =>
      obtain ⟨rfl, rfl⟩ := List.cons.inj h
      exact List.mem_cons_self
    | succ n => exact List.mem_cons_of_mem _ (ih h)

theorem argumentSpan_cons (call : Span) (first : Expr) (rest : List Expr) :
    argumentSpan call (first :: rest) = coverSpan first rest := by
  unfold argumentSpan coverSpan
  rfl

theorem cost_le_few {least most given : Nat} (hrole : (Fault.argumentCount least most given).role? = some .value) (call : Span) :
    k.cost (.argumentCount least most given) call ≤ k.few call := by
  unfold Key.few
  split
  · exact Key.cost_le hrole call
  · rename_i hcode
    have hkey : (Report.mk (.argumentCount least most given) call).key ≠ k := by
      rintro rfl
      exact hcode rfl
    rw [Key.cost, if_neg hkey]

/-- A wrong number of arguments is reported at those that are too many, or else at the call. -/
theorem cost_arityFault {f : FunctionTy} {args : List Expr} {fault : Fault} (h : arityFault? f args.length = some fault)
    (call : Span) : k.cost fault (argumentSpan call (args.drop (f.maxArgs?.getD args.length))) ≤
      k.few call + k.share (surplusSpots args) := by
  unfold arityFault? at h
  split at h
  · rename_i most hmost
    rw [hmost, Option.getD_some]
    split at h
    · rename_i hcount
      obtain rfl := Option.some.inj h
      by_cases hmany : most < args.length
      · obtain ⟨first, rest, hdrop⟩ := List.exists_cons_of_length_pos (l := args.drop most) (by rw [List.length_drop]; omega)
        have hrole : (Fault.argumentCount f.minArgs most args.length).role? = some .surplus := by simp [Fault.role?, hmany]
        rw [hdrop, argumentSpan_cons]
        have hcost : k.cost _ (coverSpan first rest) ≤ _ := Key.cost_le hrole _
        have hshare := k.share_le_of_mem (mem_surplusSpots hdrop)
        omega
      · have hfew : args.length < f.minArgs := by simpa [hmany] using hcount
        have hrole : (Fault.argumentCount f.minArgs most args.length).role? = some .value := by
          simp [Fault.role?, hmany, hfew]
        rw [List.drop_eq_nil_of_le (Nat.le_of_not_lt hmany)]
        exact Nat.le_trans (cost_le_few hrole call) (Nat.le_add_right _ _)
    · cases h
  · cases h

theorem costs_checkArity (f : FunctionTy) (call : Span) (args : List Expr) :
    Costs k scope (checkArity f call args) (k.few call + k.share (surplusSpots args)) := by
  unfold checkArity
  split
  · rename_i fault hfault
    exact (costs_report _ _).mono (cost_arityFault hfault call)
  · trivial

theorem costs_checkArgument (f : FunctionTy) (arg : Expr) (i : Nat) :
    Costs k scope (checkArgument f site (arg, i)) (k.share arg.content.spots) := by
  unfold checkArgument
  dsimp only
  split
  · have hown := own_le_content k arg
    refine (spends_exprType arg _).bind (fun actual hactual => costs_checkFits hactual _ _) (by omega)
  · exact (costs_exprType arg _).discard

theorem costs_checkArguments (f : FunctionTy) (args : List Expr) :
    Costs k scope (args.zipIdx.forM (checkArgument f site)) (args.map fun e => k.share e.content.spots).sum := by
  have hargs : (args.map fun e => k.share e.content.spots) = args.zipIdx.map fun x => k.share x.1.content.spots := by
    conv_lhs => rw [← List.zipIdx_map_fst 0 args, List.map_map]
    rfl
  rw [hargs]
  exact Spends.forM fun x _ => costs_checkArgument f x.1 x.2

theorem costs_callType (call : Span) (callee : Expr) (args : List Expr) : Costs k scope (callType call callee args site)
    (k.few call + k.share (ExprKind.call callee args).content.spots) := by
  have hshare : k.share (ExprKind.call callee args).content.spots =
      k.share callee.content.spots + k.share (argsContent args).spots := k.share_append _ _
  rw [share_argsContent] at hshare
  unfold callType
  refine (costs_exprType callee none).bind (m := k.few call + k.share (surplusSpots args) +
    (args.map fun e => k.share e.content.spots).sum) (fun type _ => ?_) (by omega)
  split
  · rename_i f _
    refine (costs_checkArity f call args).bind (fun _ _ => ?_) (Nat.le_refl _)
    exact (costs_checkArguments f args).bind_pure fun _ _ => trivial
  · refine Spends.bind_pure (Spends.mono (Spends.forM fun arg _ => (costs_exprType arg _).discard) ?_) fun _ _ => trivial
    omega

/-! ### Functions -/

theorem costs_bodySite (body : Body) : Costs k scope (bodySite body site) 0 := by
  unfold bodySite
  split
  · trivial
  · exact ⟨Nat.le_refl _, fun _ _ => trivial⟩

theorem costs_checkParam (contextual : Bool) (param : Param) :
    Costs k scope (checkParam contextual site param) (k.share param.content.spots) := by
  obtain ⟨name, optional, rest, type, default, span⟩ := param
  have hshare : k.share (Param.content ⟨name, optional, rest, type, default, span⟩).spots =
      k.share [(.param, name.span)] + (k.share (typeContent? type).spots + k.share (exprContent? default).spots) := by
    rw [← k.share_append, ← k.share_append]
    rfl
  have hrest : Costs k scope (do
      if untyped? (← options).noImplicitAny contextual ⟨name, optional, rest, type, default, span⟩ then
        report (.untypedParameter name.name) name.span) (k.share [(.param, name.span)]) := by
    refine costs_options.bind_free fun opts _ => ?_
    split
    · exact (costs_report _ _).mono (Key.cost_le rfl _)
    · trivial
  unfold checkParam
  refine (costs_typeMeaning? type).bind (m := k.share [(.param, name.span)] + k.share (exprContent? default).spots)
    (fun declared _ => ?_) (by omega)
  dsimp only
  cases default with
  | none => exact hrest.mono (Nat.le_add_right _ _)
  | some value =>
    have hown := own_le_content k value
    change Costs k scope _ (k.share [(.param, name.span)] + k.share value.content.spots)
    refine (spends_exprType value declared).bind (m := k.share [(.param, name.span)] +
      (k.share value.content.spots - k.own value)) (fun actual hactual => ?_) (by omega)
    cases declared with
    | none => exact hrest.mono (Nat.le_add_right _ _)
    | some declared =>
      exact (costs_checkFits hactual _ _).bind (fun _ _ => hrest) (Nat.le_of_eq (Nat.add_comm _ _))

theorem costs_checkParams (params : List Param) (contextual : Bool) :
    Costs k scope (checkParams params contextual site) (k.share (paramsContent params).spots) := by
  rw [paramsContent_eq, Key.share_foldr]
  exact Spends.forM fun param _ => costs_checkParam contextual param

theorem costs_checkAgainst (value : Expr) (declared : Option Ty) :
    Costs k scope (checkAgainst value declared site value.span) (k.share value.content.spots) := by
  have hown := own_le_content k value
  unfold checkAgainst
  refine (spends_exprType value declared).bind (m := k.share value.content.spots - k.own value)
    (fun actual hactual => ?_) (by omega)
  split
  · exact costs_checkFits hactual _ _
  · trivial

theorem costs_checkStatements (statements : List Statement) (result : Option Ty) :
    Costs k scope (statements.forM (checkStatement · site result)) (k.share (statementsContent statements).spots) := by
  rw [statementsContent_eq, Key.share_foldr]
  exact Spends.forM fun s _ => costs_checkStatement s result

theorem costs_checkFunctionExpr (params : List Param) (returnType : Option TypeNode) (body : FunctionBody)
    (contextual : Bool) : Costs k scope (checkFunctionExpr params returnType body contextual site)
      (k.share (ExprKind.function params returnType body).content.spots) := by
  have hshare : k.share (ExprKind.function params returnType body).content.spots =
      k.share (paramsContent params).spots + (k.share (typeContent? returnType).spots + k.share body.content.spots) := by
    rw [← k.share_append, ← k.share_append]
    rfl
  unfold checkFunctionExpr
  refine (costs_checkParams params contextual).bind (fun _ _ => ?_) (Nat.le_of_eq hshare.symm)
  refine (costs_typeMeaning? returnType).bind (fun declared _ => ?_) (Nat.le_refl _)
  cases body with
  | block block =>
    rw [FunctionBody.content_block]
    exact costs_checkStatements block.statements declared
  | expr value => exact costs_checkAgainst value declared

theorem costs_functionExprType (start : Nat) (params : List Param) (returnType : Option TypeNode) (body : FunctionBody)
    (expected : Option Ty) : Costs k scope (functionExprType start params returnType body site expected)
      (k.share (ExprKind.function params returnType body).content.spots) := by
  unfold functionExprType
  refine (costs_bodySite _).bind_free fun inner _ => ?_
  refine spends_isQuiet.bind_free fun quiet hquiet => ?_
  subst hquiet
  exact (costs_checkFunctionExpr params returnType body _).bind_pure fun _ _ => costs_declared _

/-! ### All expressions -/

theorem costs_assign (target value : Expr) (plain : Bool) : Costs k scope (do
      let targetType ← exprType target site none
      let valueType ← exprType value site (some targetType)
      if plain then checkAssignable value valueType targetType target.span .assignment
      return valueType) (k.share (ExprKind.assign target value plain).content.spots) := by
  have hshare : k.share (ExprKind.assign target value plain).content.spots =
      k.share target.content.spots + k.share value.content.spots := k.share_append _ _
  have htarget := own_le_content k target
  have hvalue := k.own_add_listed_le_content value
  refine (spends_exprType target none).bind (m := k.share (ExprKind.assign target value plain).content.spots - k.own target)
    (fun targetType htype => ?_) (by omega)
  refine (spends_exprType value _).bind (m := k.share target.content.spots - k.own target + k.listed value)
    (fun valueType _ => ?_) (by omega)
  split
  · refine Spends.bind_pure (P := fun _ => True) ?_ fun _ _ => trivial
    by_cases herror : target.kind = .error
    · obtain rfl := htype herror
      unfold checkAssignable
      refine costs_options.bind_free fun opts _ => ?_
      rw [assignFault?_any]
      trivial
    · have hmisfit := k.own_add_misfits_le target herror
      exact (costs_checkAssignable value valueType targetType target.span .assignment).mono (by omega)
  · trivial

theorem costs_exprRule (e : Expr) (expected : Option Ty) :
    Costs k site.scope (exprRule e site expected) (k.own e) := by
  obtain ⟨kind, span⟩ := e
  unfold exprRule
  cases kind with
  | ident name => exact costs_identType name span
  | string | template | number | bool | null | this | error => trivial
  | object properties =>
    refine Spends.bind_pure (Spends.foldlM fun p _ object => ?_) fun _ _ => trivial
    exact costs_addProperty expected object p
  | array items => exact costs_arrayType items expected
  | member object property => exact costs_memberExprType object property
  | index object index =>
    refine (costs_exprType object none).bind (fun type _ => ?_) (Nat.le_of_eq (k.share_append _ _).symm)
    exact (costs_exprType index none).discard.bind_pure fun _ _ => trivial
  | call callee args => exact costs_callType span callee args
  | new callee args =>
    refine (costs_bareExprType callee none).discard.bind (fun _ _ => ?_) (Nat.le_of_eq (k.share_append _ _).symm)
    rw [exprsContent_eq, Key.share_foldr]
    exact Spends.bind_pure (Spends.forM fun arg _ => (costs_exprType arg _).discard) fun _ _ => trivial
  | assign target value plain => exact costs_assign target value plain
  | binary op left right =>
    refine (costs_exprType left none).bind (fun _ _ => ?_) (Nat.le_of_eq (k.share_append _ _).symm)
    exact (costs_exprType right none).bind_pure fun _ _ => trivial
  | unary op operand => exact (costs_exprType operand none).discard.bind_pure fun _ _ => trivial
  | conditional condition thenValue elseValue =>
    refine (costs_exprType condition none).discard.bind (fun _ _ => ?_) (Nat.le_of_eq (k.share_append _ _).symm)
    refine (costs_exprType thenValue _).bind (fun _ _ => ?_) (Nat.le_of_eq (k.share_append _ _).symm)
    exact (costs_exprType elseValue _).bind_pure fun _ _ => trivial
  | function params returnType body => exact costs_functionExprType span.start params returnType body expected
  | cast value type =>
    refine (costs_exprType value none).discard.bind (fun _ _ => ?_) (Nat.le_of_eq (k.share_append _ _).symm)
    exact costs_typeMeaning type

/-! ## Statements -/

theorem costs_checkSource (file : Path) (source : StringLiteral) :
    Costs k scope (checkSource file source) (k.share [(.source, source.span)]) := by
  unfold checkSource
  refine costs_bindings.bind_free fun b _ => ?_
  dsimp only
  split
  · exact ((costs_report _ _).mono (Key.cost_le rfl _)).bind_pure fun _ _ => trivial
  · trivial

theorem costs_checkExported (ref : ModuleRef) (source : StringLiteral) (name : Ident) :
    Costs k scope (checkExported ref source name) (k.share [(.exported, name.span)]) := by
  unfold checkExported
  refine costs_bindings.bind_free fun b _ => ?_
  split
  · exact (costs_report _ _).mono (Key.cost_le rfl _)
  · trivial

/-- One place for each item of a list. -/
theorem share_map (k : Key) {α : Type} (f : α → Spot) (xs : List α) :
    k.share (xs.map f) = (xs.map fun x => k.share [f x]).sum := by
  induction xs with
  | nil => rfl
  | cons x xs ih => rw [List.map_cons, Key.share_cons, ih, List.map_cons, List.sum_cons]

theorem costs_checkImport (decl : ImportDecl) (file : Path) :
    Costs k scope (checkImport decl file) (k.share decl.spots) := by
  unfold checkImport
  rw [ImportDecl.spots, Key.share_cons, share_map]
  refine (costs_checkSource file decl.source).bind (fun ref _ => ?_) (Nat.le_refl _)
  exact Spends.forM fun s _ => costs_checkExported ref decl.source s.imported

theorem costs_checkLocalExport (name : Ident) :
    Costs k site.scope (checkLocalExport site name) (k.share [(.name, name.span)]) := by
  unfold checkLocalExport
  refine (spends_lookupValue _).bind_free fun value _ => ?_
  refine (costs_lookupType _).bind_free fun type _ => ?_
  split
  · exact (costs_report _ _).mono (Key.cost_le rfl _)
  · trivial

theorem costs_isTypeName (e : Expr) : Costs k site.scope (isTypeName e site) 0 := by
  unfold isTypeName
  split
  · refine (spends_lookupValue _).bind_free fun value _ => ?_
    split
    · exact (costs_lookupType _).bind_free fun _ _ => trivial
    · trivial
  · trivial

theorem costs_checkExportedExpr (e : Expr) :
    Costs k site.scope (checkExportedExpr e site) (k.share e.content.spots) := by
  unfold checkExportedExpr
  refine (costs_isTypeName e).bind_free fun found _ => ?_
  split
  · trivial
  · exact (costs_exprType e none).discard

theorem costs_checkExport (decl : ExportDecl) :
    Costs k site.scope (checkExport decl site) (k.share decl.kind.content.spots) := by
  obtain ⟨kind, span⟩ := decl
  unfold checkExport
  cases kind with
  | named specifiers source =>
    cases source with
    | some source =>
      change Costs k site.scope _ (k.share ((.source, source.span) :: specifiers.map fun s => (.exported, s.localName.span)))
      rw [Key.share_cons, share_map]
      refine (costs_checkSource site.file source).bind (fun ref _ => ?_) (Nat.le_refl _)
      exact Spends.forM fun s _ => costs_checkExported ref source s.localName
    | none =>
      change Costs k site.scope _ (k.share (specifiers.map fun s => (.name, s.localName.span)))
      rw [share_map]
      exact Spends.forM fun s _ => costs_checkLocalExport s.localName
  | star newName source => exact (costs_checkSource site.file source).discard
  | default value => exact costs_checkExportedExpr value
  | assignment value => exact costs_checkExportedExpr value

/-- What is checked of a variable beside whether it clashes with another one. -/
def checkInitialised (ambient : Bool) (site : Site) (decl : Declarator) : CheckM Unit := do
  let declared ← decl.type.mapM (typeMeaning · site)
  match decl.init with
  | some init => checkAgainst init declared site decl.name.span
  | none =>
    if declared.isNone && ambient && (← options).noImplicitAny then
      report (.untypedVariable decl.name.name) decl.name.span

theorem checkDeclarator_eq (ambient : Bool) (site : Site) (decl : Declarator) : checkDeclarator ambient site decl = (do
    if (← bindings).isRedeclared site.scope ⟨.declarator, site.file, decl.span.start⟩ then
      report (.redeclared decl.name.name) decl.name.span
    checkInitialised ambient site decl) := rfl

/-- A variable may clash with another one and be at fault besides. -/
theorem costs_checkInitialised (ambient : Bool) (decl : Declarator) : ∃ n, Costs k scope (checkInitialised ambient site decl) n ∧
    k.cost (.redeclared decl.name.name) decl.name.span + n ≤ k.share decl.content.spots := by
  obtain ⟨name, type, init, span⟩ := decl
  have hshare : k.share (Declarator.content ⟨name, type, init, span⟩).spots =
      k.share (declaratorSpots name init.isSome) + (k.share (typeContent? type).spots + k.share (exprContent? init).spots) := by
    rw [← k.share_append, ← k.share_append]
    rfl
  unfold checkInitialised
  cases init with
  | none =>
    have hboth : k.cost (.redeclared name.name) name.span + k.cost (.untypedVariable name.name) name.span ≤
        k.share (declaratorSpots name false) := Key.cost_add_le (by simp [Fault.code]) rfl rfl name.span
    refine ⟨k.share (typeContent? type).spots + k.cost (.untypedVariable name.name) name.span, ?_, ?_⟩
    · refine (costs_typeMeaning? type).bind (fun declared _ => ?_) (Nat.le_refl _)
      refine costs_options.bind_free fun opts _ => ?_
      split
      · exact costs_report _ _
      · trivial
    · simp only [Option.isSome_none] at hshare
      dsimp only
      omega
  | some init =>
    have hspots : k.share (declaratorSpots name true) = k.share [(.variable, name.span)] + k.share [(.value, name.span)] :=
      k.share_cons _ _
    have hredeclared : k.cost (.redeclared name.name) name.span ≤ k.share [(.variable, name.span)] := Key.cost_le rfl _
    have hmisfit : k.misfit name.span ≤ k.share [(.value, name.span)] := by
      unfold Key.misfit
      split
      · exact Nat.zero_le _
      · exact Nat.le_refl _
    have hinit := k.own_add_listed_le_content init
    refine ⟨k.share (typeContent? type).spots + (k.share init.content.spots + k.misfit name.span), ?_, ?_⟩
    · refine (costs_typeMeaning? type).bind (fun declared _ => ?_) (Nat.le_refl _)
      unfold checkAgainst
      refine (spends_exprType init declared).bind (m := k.listed init + k.misfit name.span) (fun actual _ => ?_) (by omega)
      split
      · exact costs_checkAssignable _ _ _ _ _
      · trivial
    · change _ = k.share (declaratorSpots name true) + (_ + k.share init.content.spots) at hshare
      dsimp only
      omega

theorem costs_checkDeclarator (ambient : Bool) (decl : Declarator) :
    Costs k scope (checkDeclarator ambient site decl) (k.share decl.content.spots) := by
  obtain ⟨n, hrest, hshare⟩ := @costs_checkInitialised k scope site ambient decl
  rw [checkDeclarator_eq]
  refine costs_bindings.bind_free fun b _ => ?_
  dsimp only
  split
  · exact (costs_report _ _).bind (fun _ _ => hrest) hshare
  · exact hrest.mono (by omega)

theorem costs_checkVariables (d : VariableStatement) :
    Costs k scope (checkVariables d site) (k.share (declaratorsContent d.declarators).spots) := by
  rw [declaratorsContent_eq, Key.share_foldr]
  exact Spends.forM fun decl _ => costs_checkDeclarator _ decl

theorem costs_checkFunction (decl : FunctionDecl) :
    Costs k scope (checkFunction decl site) (k.share decl.content.spots) := by
  obtain ⟨modifiers, name, typeParams, params, returnType, body, span⟩ := decl
  have hshare : k.share (FunctionDecl.content ⟨modifiers, name, typeParams, params, returnType, body, span⟩).spots =
      k.share (paramsContent params).spots + (k.share (typeContent? returnType).spots + k.share (blockContent? body).spots) := by
    rw [← k.share_append, ← k.share_append]
    rfl
  unfold checkFunction
  refine (costs_bodySite _).bind_free fun inner _ => ?_
  refine (costs_checkParams params false).bind (fun _ _ => ?_) (Nat.le_of_eq hshare.symm)
  refine (costs_typeMeaning? returnType).bind (fun declared _ => ?_) (Nat.le_refl _)
  cases body with
  | none => trivial
  | some block =>
    rw [blockContent?_some]
    exact costs_checkStatements block.statements declared

theorem costs_checkInterface (decl : InterfaceDecl) : Costs k scope (checkInterface decl site)
    (k.share (typesContent decl.bases).spots + k.share (membersContent decl.members).spots) := by
  unfold checkInterface
  rw [typesContent_eq, membersContent_eq, Key.share_foldr, Key.share_foldr]
  refine Spends.bind (Spends.forM fun base _ => (costs_typeMeaning base).discard) (fun _ _ => ?_) (Nat.le_refl _)
  exact Spends.forM fun member _ => (costs_typeMeaning? member.type).discard

theorem costs_checkModule (decl : ModuleDecl) :
    Costs k scope (checkModule decl site) (k.share (statementsContent? decl.body).spots) := by
  unfold checkModule
  split
  · rename_i body hbody
    refine costs_bindings.bind_free fun b _ => ?_
    rw [hbody]
    exact costs_checkStatements body none
  · trivial

theorem costs_statementRule (s : Statement) (result : Option Ty) :
    Costs k site.scope (statementRule s site result) (k.share s.content.spots) := by
  cases s with
  | importDecl decl => exact costs_checkImport decl site.file
  | importEquals decl => exact (costs_checkSource site.file decl.source).discard
  | exportDecl decl =>
    cases decl
    exact costs_checkExport _
  | variableDecl d =>
    cases d
    exact costs_checkVariables _
  | function decl => exact costs_checkFunction decl
  | interface decl =>
    refine (costs_checkInterface decl).mono (Nat.le_of_eq ?_)
    rw [← k.share_append]
    cases decl
    rfl
  | typeAlias decl =>
    cases decl
    exact (costs_typeMeaning _).discard
  | moduleDecl decl =>
    refine (costs_checkModule decl).mono ?_
    obtain ⟨modifiers, name, body, span⟩ := decl
    exact k.share_sublist (List.sublist_append_right _ _)
  | ifElse branch =>
    obtain ⟨condition, thenBranch, elseBranch, span⟩ := branch
    rw [Key.share_ifElse]
    refine (costs_exprType condition none).discard.bind (fun _ _ => ?_) (Nat.le_refl _)
    refine (costs_checkStatement thenBranch result).bind (fun _ _ => ?_) (Nat.le_refl _)
    cases elseBranch with
    | none => trivial
    | some stmt => exact costs_checkStatement stmt result
  | block block =>
    obtain ⟨statements, span⟩ := block
    exact (costs_bodySite _).bind_free fun inner _ => costs_checkStatements statements result
  | expression e => exact (costs_exprType e none).discard
  | ret r =>
    obtain ⟨value, span⟩ := r
    cases value with
    | none => trivial
    | some value => exact costs_checkAgainst value result
  | empty | error => trivial

theorem costs_returnsRule (s : Statement) : Costs k scope (returnsRule s site) (k.share s.content.spots) := by
  cases s with
  | ret r =>
    obtain ⟨value, span⟩ := r
    cases value with
    | none => trivial
    | some value => exact (costs_exprType value none).bind_pure fun _ _ => trivial
  | block block =>
    obtain ⟨statements, span⟩ := block
    refine (costs_bodySite _).bind_free fun inner _ => ?_
    change Costs k scope _ (k.share (statementsContent statements).spots)
    rw [statementsContent_eq, Key.share_foldr]
    exact Spends.bind_pure (Spends.mapM fun s _ => costs_returnTypes s) fun _ _ => trivial
  | ifElse branch =>
    obtain ⟨condition, thenBranch, elseBranch, span⟩ := branch
    rw [Key.share_ifElse]
    refine (costs_returnTypes thenBranch).bind (m := k.share (statementContent? elseBranch).spots) (fun types _ => ?_) (by omega)
    cases elseBranch with
    | none => trivial
    | some stmt => exact (costs_returnTypes stmt).bind_pure fun _ _ => trivial
  | _ => trivial

/-- The rule for a node spends what there is room for in the node. -/
theorem costs_rule (j : Judgement) : Costs k j.item.site.scope (rule j) (j.cost k) := by
  cases j with
  | expr e site expected => exact costs_exprRule e expected
  | type t site => exact costs_typeRule t
  | statement s site result => exact costs_statementRule s result
  | returns s site => exact costs_returnsRule s

end

end Recheck.Check
