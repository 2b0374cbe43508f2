import Recheck.Check.Checker
import Recheck.Proofs.Check.PairedLookups

/-!
# The rules in step

Each rule of the checker, for nodes at corresponding sites, goes on abreast in two programs, and so does what works out the
types of corresponding declarations (`Pairing.level_declarationRule`). A rule that only reports goes on abreast with itself.
-/

set_option autoImplicit false

/-!
## Checks in step

Parts of a check go on abreast in two programs (`Pairing.Abreast`) when they ask about what corresponds and, whatever they
are answered as long as the answers correspond, go on abreast to results that correspond. Types are the same in both
programs, so what decides how a check goes on is the same as well.
-/

namespace Recheck.Check

open Syntax

namespace Pairing

variable {core : Path → Prop} {w : Pairing core}

/-- Questions that correspond, with how their answers do. -/
inductive Asked (w : Pairing core) : (q q' : Question) → (q.Answer → q'.Answer → Prop) → Prop
  | expr (e : Expr) {site site' : Site} (expected : Option Ty) (h : w.Sites site site') :
    Asked w (.judge (.expr e site expected)) (.judge (.expr e site' expected)) fun type type' => type = type'
  | type (t : TypeNode) {site site' : Site} (h : w.Sites site site') :
    Asked w (.judge (.type t site)) (.judge (.type t site')) fun type type' => type = type'
  | statement (s : Statement) {site site' : Site} (result : Option Ty) (h : w.Sites site site') :
    Asked w (.judge (.statement s site result)) (.judge (.statement s site' result)) fun _ _ => True
  | returns (s : Statement) {site site' : Site} (h : w.Sites site site') :
    Asked w (.judge (.returns s site)) (.judge (.returns s site')) fun types types' => types = types'
  | declared {d d' : Declaration} (h : w.Declarations d d') :
    Asked w (.declared d) (.declared d') fun type type' => type = type'
  | bindings : Asked w .bindings .bindings w.Known
  | isQuiet : Asked w .isQuiet .isQuiet fun quiet quiet' => quiet = quiet'
  | report (fault : Fault) (span : Span) : Asked w (.report fault span) (.report fault span) fun _ _ => True
  | use (binding : ImportBinding) : Asked w (.use binding) (.use binding) fun _ _ => True
  | openBody {body : Body} {parent parent' : ScopeId} (hfile : core body.key.file) (h : w.Scopes parent parent') :
    Asked w (.openBody body parent) (.openBody body parent') fun _ _ => True

/-- Parts of a check that go on in step, to results that are related. -/
inductive Abreast (w : Pairing core) {α α' : Type} (R : α → α' → Prop) : CheckM α → CheckM α' → Prop
  | done {a : α} {a' : α'} (h : R a a') : Abreast w R (.done a) (.done a')
  | ask {q q' : Question} {A : q.Answer → q'.Answer → Prop} {next : q.Answer → CheckM α} {next' : q'.Answer → CheckM α'}
    (hq : w.Asked q q' A) (hnext : ∀ a a', A a a' → Abreast w R (next a) (next' a')) :
    Abreast w R (.ask q next) (.ask q' next')

/-- Parts of a check that go on in step to the same result. -/
abbrev Level (w : Pairing core) {α : Type} (c c' : CheckM α) : Prop := w.Abreast (fun a a' => a = a') c c'

/-! ## One after the other -/

namespace Abreast

variable {α α' β β' : Type} {R : α → α' → Prop} {S : β → β' → Prop}

theorem pure {a : α} {a' : α'} (h : R a a') : w.Abreast R (Pure.pure a) (Pure.pure a') := .done h

theorem bind {c : CheckM α} {c' : CheckM α'} {f : α → CheckM β} {f' : α' → CheckM β'} (hc : w.Abreast R c c')
    (hf : ∀ a a', R a a' → w.Abreast S (f a) (f' a')) : w.Abreast S (c >>= f) (c' >>= f') := by
  induction hc with
  | done h => exact hf _ _ h
  | ask hq _ ih => exact .ask hq ih

end Abreast

namespace Level

variable {α β ι : Type}

theorem bind {β' : Type} {S : β → β' → Prop} {c c' : CheckM α} {f : α → CheckM β} {f' : α → CheckM β'} (hc : w.Level c c')
    (hf : ∀ a, w.Abreast S (f a) (f' a)) : w.Abreast S (c >>= f) (c' >>= f') :=
  Abreast.bind hc fun a _ heq => heq ▸ hf a

theorem discard {c c' : CheckM α} (hc : w.Level c c') : w.Level (Functor.discard c) (Functor.discard c') :=
  hc.bind fun _ => .pure rfl

theorem forM {xs : List ι} {f f' : ι → CheckM Unit} (hf : ∀ x ∈ xs, w.Level (f x) (f' x)) :
    w.Level (xs.forM f) (xs.forM f') := by
  induction xs with
  | nil => exact .pure rfl
  | cons x xs ih => exact (hf x List.mem_cons_self).bind fun _ => ih fun y hy => hf y (List.mem_cons_of_mem _ hy)

theorem mapM {xs : List ι} {f f' : ι → CheckM β} (hf : ∀ x ∈ xs, w.Level (f x) (f' x)) :
    w.Level (xs.mapM f) (xs.mapM f') := by
  unfold List.mapM
  suffices ∀ done, w.Level (List.mapM.loop f xs done) (List.mapM.loop f' xs done) from this []
  induction xs with
  | nil => exact fun _ => .pure rfl
  | cons x xs ih =>
    exact fun done => (hf x List.mem_cons_self).bind fun y => ih (fun z hz => hf z (List.mem_cons_of_mem _ hz)) (y :: done)

theorem foldlM {σ : Type} {xs : List ι} {f f' : σ → ι → CheckM σ} {s : σ} (hf : ∀ x ∈ xs, ∀ s, w.Level (f s x) (f' s x)) :
    w.Level (xs.foldlM f s) (xs.foldlM f' s) := by
  induction xs generalizing s with
  | nil => exact .pure rfl
  | cons x xs ih => exact (hf x List.mem_cons_self s).bind fun _ => ih fun y hy => hf y (List.mem_cons_of_mem _ hy)

theorem optionMapM {o : Option ι} {f f' : ι → CheckM β} (hf : ∀ x ∈ o, w.Level (f x) (f' x)) : w.Level (o.mapM f) (o.mapM f') := by
  cases o with
  | none => exact .pure rfl
  | some x => exact (hf x rfl).bind fun _ => .pure rfl

end Level

/-! ## Simple questions -/

section

variable {site site' : Site}

theorem abreast_bindings : w.Abreast w.Known bindings bindings := .ask .bindings fun _ _ h => .done h

theorem level_options : w.Level options options :=
  abreast_bindings.bind fun _ _ h => .pure h.agree.program.options

theorem level_isQuiet : w.Level isQuiet isQuiet := .ask .isQuiet fun _ _ h => .done h

theorem level_report (fault : Fault) (span : Span) : w.Level (report fault span) (report fault span) :=
  .ask (.report fault span) fun _ _ _ => .done rfl

theorem level_declared {d d' : Declaration} (h : w.Declarations d d') : w.Level (declared d) (declared d') :=
  .ask (.declared h) fun _ _ h => .done h

variable (hsite : w.Sites site site')
include hsite

theorem level_exprType (e : Expr) (expected : Option Ty) : w.Level (exprType e site expected) (exprType e site' expected) :=
  .ask (.expr e expected hsite) fun _ _ h => .done h

theorem level_typeMeaning (t : TypeNode) : w.Level (typeMeaning t site) (typeMeaning t site') :=
  .ask (.type t hsite) fun _ _ h => .done h

theorem level_checkStatement (s : Statement) (result : Option Ty) :
    w.Level (checkStatement s site result) (checkStatement s site' result) :=
  .ask (.statement s result hsite) fun _ _ _ => .done rfl

theorem level_returnTypes (s : Statement) : w.Level (returnTypes s site) (returnTypes s site') :=
  .ask (.returns s hsite) fun _ _ h => .done h

end

/-! ## Names -/

section

variable {scope scope' : ScopeId} {value value' : ValueSymbol} {type type' : TypeSymbol}

theorem abreast_lookupValue (hscope : w.Scopes scope scope') (name : String) :
    w.Abreast (Option.Rel w.Values) (lookupValue scope name) (lookupValue scope' name) := by
  unfold lookupValue
  refine abreast_bindings.bind fun b b' h => ?_
  have hfound := h.lookupValue hscope name
  dsimp only
  revert hfound
  generalize b.lookupValue scope name = found
  generalize b'.lookupValue scope' name = found'
  intro hfound
  cases hfound with
  | none => exact .pure .none
  | some hvalue =>
    cases hvalue with
    | @imported binding himporter => exact .ask (.use binding) fun _ _ _ => .pure (.some (.imported himporter))
    | declarator h => exact .pure (.some (.declarator h))
    | function h => exact .pure (.some (.function h))
    | param h => exact .pure (.some (.param h))
    | ofModule h => exact .pure (.some (.ofModule h))
    | expr h => exact .pure (.some (.expr h))
    | builtin builtin => exact .pure (.some (.builtin builtin))

theorem abreast_lookupType (hscope : w.Scopes scope scope') (name : String) :
    w.Abreast (Option.Rel w.Types) (lookupType scope name) (lookupType scope' name) := by
  unfold lookupType
  refine abreast_bindings.bind fun b b' h => ?_
  have hfound := h.lookupType hscope name
  dsimp only
  revert hfound
  generalize b.lookupType scope name = found
  generalize b'.lookupType scope' name = found'
  intro hfound
  cases hfound with
  | none => exact .pure .none
  | some htype =>
    cases htype with
    | @imported binding himporter => exact .ask (.use binding) fun _ _ _ => .pure (.some (.imported himporter))
    | interface h => exact .pure (.some (.interface h))
    | typeAlias h => exact .pure (.some (.typeAlias h))
    | typeParam => exact .pure (.some .typeParam)
    | ofModule h => exact .pure (.some (.ofModule h))
    | builtin builtin => exact .pure (.some (.builtin builtin))

theorem abreast_resolveValue (h : w.Values value value') :
    w.Abreast (Option.Rel w.Values) (resolveValue value) (resolveValue value') :=
  abreast_bindings.bind fun _ _ hb => .pure (hb.agree.resolveValue _ h)

theorem abreast_resolveTypeSymbol (h : w.Types type type') :
    w.Abreast (Option.Rel w.Types) (resolveTypeSymbol type) (resolveTypeSymbol type') :=
  abreast_bindings.bind fun _ _ hb => .pure (hb.agree.resolveType _ h)

end

/-! ## Sites inside nodes -/

section

variable {site site' : Site} (hsite : w.Sites site site')
include hsite

theorem sites_typeParamSite (kind : NodeKind) (start : Nat) (names : List Ident) :
    w.Sites (typeParamSite kind start site names) (typeParamSite kind start site' names) := by
  unfold typeParamSite
  rw [← hsite.file]
  split
  · exact hsite
  · have hcore : core (Body.mk ⟨kind, site.file, start⟩ names [] []).key.file := hsite.core
    have hinner := hsite.inner hcore 0
    rwa [← hsite.file] at hinner

theorem abreast_bodySite {body : Body} (hfile : core body.key.file) :
    w.Abreast w.Sites (bodySite body site) (bodySite body site') := by
  unfold bodySite
  split
  · exact .pure (hsite.inner hfile 0)
  · exact .ask (.openBody hfile hsite.scope) fun _ _ _ => .pure (hsite.inner hfile 0)

theorem abreast_functionSite (kind : NodeKind) (start : Nat) (names : List Ident) (params : List Param) (body : List Statement) :
    w.Abreast w.Sites (functionSite kind start site names params body) (functionSite kind start site' names params body) := by
  unfold functionSite
  rw [← hsite.file]
  exact abreast_bodySite hsite hsite.core

theorem abreast_blockSite (block : Block) : w.Abreast w.Sites (blockSite block site) (blockSite block site') := by
  unfold blockSite
  rw [← hsite.file]
  exact abreast_bodySite hsite hsite.core

end

end Pairing

end Recheck.Check

namespace Recheck.Check

open Syntax

namespace Pairing

variable {core : Path → Prop} {w : Pairing core} {site site' : Site}

/-! ## What names stand for -/

section

variable {value value' : ValueSymbol} {type type' : TypeSymbol}

theorem level_declaredValueType (h : w.Values value value') : w.Level (declaredValueType value) (declaredValueType value') := by
  cases h with
  | declarator hsite => exact level_declared (.variable hsite)
  | function hsite => exact level_declared (.function hsite)
  | param hsite => exact level_declared (.param hsite)
  | expr hsite => exact level_declared (.exported hsite)
  | builtin builtin => cases builtin <;> exact .pure rfl
  | imported | ofModule => exact .pure rfl

theorem level_valueType (h : w.Values value value') : w.Level (valueType value) (valueType value') := by
  cases h with
  | imported himporter =>
    refine (abreast_resolveValue (.imported himporter)).bind fun found found' hfound => ?_
    cases hfound with
    | none => exact .pure rfl
    | some h => exact level_declaredValueType h
  | declarator hsite => exact level_declaredValueType (.declarator hsite)
  | function hsite => exact level_declaredValueType (.function hsite)
  | param hsite => exact level_declaredValueType (.param hsite)
  | expr hsite => exact level_declaredValueType (.expr hsite)
  | builtin builtin => exact level_declaredValueType (.builtin builtin)
  | ofModule href => exact level_declaredValueType (.ofModule href)

theorem level_declaredType (h : w.Types type type') (args : List Ty) :
    w.Level (declaredType type args) (declaredType type' args) := by
  cases h with
  | @interface name scope scope' hscope =>
    refine abreast_bindings.bind fun b b' hb => ?_
    rw [← (hb.agree.interfaceDecls hscope name).1]
    split
    · exact .pure rfl
    · exact level_declared (.interface hscope)
  | typeAlias hsite => exact level_declared (.typeAlias hsite)
  | builtin builtin => cases builtin <;> exact .pure rfl
  | typeParam | imported | ofModule => exact .pure rfl

theorem level_symbolType (h : w.Types type type') (args : List Ty) : w.Level (symbolType type args) (symbolType type' args) := by
  cases h with
  | imported himporter =>
    refine (abreast_resolveTypeSymbol (.imported himporter)).bind fun found found' hfound => ?_
    cases hfound with
    | none => exact .pure rfl
    | some h => exact level_declaredType h args
  | interface hscope => exact level_declaredType (.interface hscope) args
  | typeAlias hsite => exact level_declaredType (.typeAlias hsite) args
  | typeParam => exact level_declaredType .typeParam args
  | builtin builtin => exact level_declaredType (.builtin builtin) args
  | ofModule href => exact level_declaredType (.ofModule href) args

theorem Agree.memberType {b b' : Bindings} (hb : w.Agree b b') {ref ref' : ModuleRef} (href : w.Refs ref ref') (name : List Ident) :
    Option.Rel w.Types (memberType b ref name) (memberType b' ref' name) := by
  induction name generalizing ref ref' with
  | nil => exact .none
  | cons part rest ih =>
    have hfound := hb.exportedType href part.name
    cases rest with
    | nil =>
      unfold Check.memberType
      revert hfound
      generalize b.exportedType ref part.name = found
      generalize b'.exportedType ref' part.name = found'
      intro hfound
      cases hfound with
      | found h => exact .some h
      | missing | unknown => exact .none
    | cons next rest =>
      unfold Check.memberType
      revert hfound
      generalize b.exportedType ref part.name = found
      generalize b'.exportedType ref' part.name = found'
      intro hfound
      cases hfound with
      | missing | unknown => exact .none
      | found h =>
        cases h with
        | ofModule href => exact ih href
        | _ => exact .none

end

/-! ## Types -/

section

variable (hsite : w.Sites site site')
include hsite

theorem level_addMember (object : ObjectTy) (member : Member) :
    w.Level (addMember object member site) (addMember object member site') := by
  have hrest (type : Ty) : w.Level
      (if member.name.name = indexName then (pure { object with index := some type } : CheckM ObjectTy)
        else pure (object.insert ⟨member.name.name, type, member.optional⟩))
      (if member.name.name = indexName then pure { object with index := some type }
        else pure (object.insert ⟨member.name.name, type, member.optional⟩)) := by
    split <;> exact .pure rfl
  unfold addMember
  dsimp only
  split
  · exact (level_typeMeaning hsite _).bind hrest
  · exact hrest .any

theorem level_referenceType (name : List Ident) (args : List TypeNode) :
    w.Level (referenceType name args site) (referenceType name args site') := by
  unfold referenceType
  refine Level.bind (Level.mapM fun arg _ => level_typeMeaning hsite arg) fun types => ?_
  split
  · exact .pure rfl
  · rename_i first rest
    refine (abreast_lookupType hsite.scope first.name).bind fun found found' hfound => ?_
    cases hfound with
    | none => exact (level_report _ _).bind fun _ => .pure rfl
    | some hsymbol =>
      dsimp only
      split
      · exact level_symbolType hsymbol types
      · refine (abreast_resolveTypeSymbol hsymbol).bind fun target target' htarget => ?_
        cases htarget with
        | none => exact .pure rfl
        | some htarget =>
          cases htarget with
          | @ofModule ref ref' href =>
            refine abreast_bindings.bind fun b b' hb => ?_
            have hmember := hb.agree.memberType href rest
            revert hmember
            generalize Check.memberType b ref rest = inner
            generalize Check.memberType b' ref' rest = inner'
            intro hmember
            cases hmember with
            | none => exact .pure rfl
            | some hmember => exact level_symbolType hmember types
          | _ => exact .pure rfl

theorem level_typeofType (name : List Ident) : w.Level (typeofType name site) (typeofType name site') := by
  unfold typeofType
  split
  · exact .pure rfl
  · rename_i first rest
    refine (abreast_lookupValue hsite.scope first.name).bind fun found found' hfound => ?_
    cases hfound with
    | none => exact (level_report _ _).bind fun _ => .pure rfl
    | some hsymbol =>
      dsimp only
      split
      · exact level_valueType hsymbol
      · exact .pure rfl

theorem level_annotatedParam (param : Param) : w.Level (annotatedParam param site) (annotatedParam param site') := by
  unfold annotatedParam
  dsimp only
  split
  · exact (level_typeMeaning hsite _).bind fun _ => .pure rfl
  · exact .pure rfl

theorem level_typeRule (node : TypeNode) : w.Level (typeRule node site) (typeRule node site') := by
  obtain ⟨kind, span⟩ := node
  have hmembers (members : List TypeNode) : w.Level (members.mapM (typeMeaning · site)) (members.mapM (typeMeaning · site')) :=
    .mapM fun member _ => level_typeMeaning hsite member
  unfold typeRule
  cases kind with
  | keyword | literal | error => exact .pure rfl
  | reference name args => exact level_referenceType hsite name args
  | union members => exact (hmembers members).bind fun _ => .pure rfl
  | intersection members => exact (hmembers members).bind fun _ => .pure rfl
  | array element => exact (level_typeMeaning hsite element).bind fun _ => .pure rfl
  | tuple elements => exact (hmembers elements).bind fun _ => .pure rfl
  | object members =>
    exact Level.bind (Level.foldlM fun member _ object => level_addMember hsite object member) fun _ => .pure rfl
  | function params ret =>
    refine Level.bind (Level.mapM fun param _ => level_annotatedParam hsite param) fun _ => ?_
    exact (level_typeMeaning hsite ret).bind fun _ => .pure rfl
  | typeof name => exact level_typeofType hsite name

/-! ## Declarations -/

theorem level_paramType (param : Param) : w.Level (paramType param site) (paramType param site') := by
  unfold paramType
  split
  · exact level_typeMeaning hsite _
  · exact (level_exprType hsite _ none).bind fun _ => .pure rfl
  · exact .pure rfl

theorem level_variableType (decl : Declarator) (kind : VariableKind) :
    w.Level (variableType decl kind site) (variableType decl kind site') := by
  unfold variableType
  split
  · exact level_typeMeaning hsite _
  · exact .pure rfl
  · refine (level_exprType hsite _ none).bind fun type => ?_
    split
    · exact .pure rfl
    · split <;> exact .pure rfl

theorem level_inferReturn (statements : List Statement) : w.Level (inferReturn statements site) (inferReturn statements site') := by
  unfold inferReturn
  refine Level.bind (Level.mapM fun s _ => level_returnTypes hsite s) fun types => ?_
  dsimp only
  split <;> exact .pure rfl

theorem level_signature (params : List Param) (returnType : Option TypeNode) (body : Option FunctionBody) :
    w.Level (signature params returnType body site) (signature params returnType body site') := by
  unfold signature
  refine Level.bind (Level.mapM fun param _ => (level_paramType hsite param).bind fun _ => .pure rfl) fun types => ?_
  dsimp only
  split
  · exact (level_typeMeaning hsite _).bind fun _ => .pure rfl
  · exact Level.bind ((level_exprType hsite _ none).bind fun _ => .pure rfl) fun _ => .pure rfl
  · exact (level_inferReturn hsite _).bind fun _ => .pure rfl
  · exact .pure rfl

theorem level_functionDeclType (decl : FunctionDecl) : w.Level (functionDeclType decl site) (functionDeclType decl site') := by
  unfold functionDeclType
  refine Abreast.bind (abreast_functionSite hsite ..) fun inner inner' hinner => ?_
  exact level_signature hinner _ _ _

theorem level_aliasType (decl : TypeAlias) : w.Level (aliasType decl site) (aliasType decl site') :=
  level_typeMeaning (sites_typeParamSite hsite ..) decl.type

theorem level_returnsRule (s : Statement) : w.Level (returnsRule s site) (returnsRule s site') := by
  unfold returnsRule
  split
  · split
    · exact (level_exprType hsite _ none).bind fun _ => .pure rfl
    · exact .pure rfl
  · rename_i block
    refine (abreast_blockSite hsite block).bind fun inner inner' hinner => ?_
    exact Level.bind (Level.mapM fun s _ => level_returnTypes hinner s) fun _ => .pure rfl
  · refine (level_returnTypes hsite _).bind fun types => ?_
    split
    · exact (level_returnTypes hsite _).bind fun _ => .pure rfl
    · exact .pure rfl
  · exact .pure rfl

end

section

variable {scope scope' : ScopeId} (hscope : w.Scopes scope scope')
include hscope

theorem level_addDeclaration (object : ObjectTy) {decl : InterfaceDecl × Path} (hfile : core decl.2) :
    w.Level (addDeclaration scope object decl) (addDeclaration scope' object decl) := by
  obtain ⟨decl, file⟩ := decl
  have hsite : w.Sites ⟨file, scope⟩ ⟨file, scope'⟩ := ⟨rfl, hfile, hscope⟩
  have hinner := sites_typeParamSite hsite .interface decl.span.start decl.typeParams
  unfold addDeclaration
  refine Level.bind (Level.foldlM fun base _ object => (level_typeMeaning hinner base).bind fun _ => .pure rfl) fun object' => ?_
  exact Level.foldlM fun member _ object => level_addMember hinner object member

theorem level_interfaceType (name : String) : w.Level (interfaceType name scope) (interfaceType name scope') := by
  unfold interfaceType
  refine abreast_bindings.bind fun b b' hb => ?_
  obtain ⟨hsame, hfiles⟩ := hb.agree.interfaceDecls hscope name
  rw [← hsame]
  exact Level.bind (Level.foldlM fun decl hdecl object => level_addDeclaration hscope object (hfiles decl hdecl)) fun _ => .pure rfl

end

/-- How the types of corresponding declarations are worked out. -/
theorem level_declarationRule {d d' : Declaration} (h : w.Declarations d d') :
    w.Level (declarationRule d) (declarationRule d') := by
  cases h with
  | «variable» hsite => exact level_variableType hsite _ _
  | function hsite => exact level_functionDeclType hsite _
  | param hsite => exact level_paramType hsite _
  | exported hsite => exact level_exprType hsite _ none
  | interface hscope => exact level_interfaceType hscope _
  | typeAlias hsite => exact level_aliasType hsite _
  | functionExpr hsite => exact level_signature hsite _ _ _

/-! ## Expressions -/

theorem level_checkAssignable (value : Expr) (source target : Ty) (span : Span) (relationship : Relationship) :
    w.Level (checkAssignable value source target span relationship) (checkAssignable value source target span relationship) := by
  unfold checkAssignable
  refine level_options.bind fun options => ?_
  split
  · exact level_report _ _
  · exact .pure rfl

theorem level_propertyType (object : Ty) (property : Ident) :
    w.Level (propertyType object property) (propertyType object property) := by
  unfold propertyType
  dsimp only
  split
  · split
    · exact .pure rfl
    · exact (level_report _ _).bind fun _ => .pure rfl
  · exact .pure rfl

theorem level_memberOfSymbol {value value' : ValueSymbol} (h : w.Values value value') (property : Ident) :
    w.Level (memberOfSymbol value property) (memberOfSymbol value' property) := by
  have hproperty : w.Level (do propertyType (← valueType value) property) (do propertyType (← valueType value') property) :=
    (level_valueType h).bind fun _ => level_propertyType _ _
  unfold memberOfSymbol
  refine (abreast_resolveValue h).bind fun found found' hfound => ?_
  cases hfound with
  | none => exact hproperty
  | some hvalue =>
    cases hvalue with
    | @ofModule ref ref' href =>
      refine abreast_bindings.bind fun b b' hb => ?_
      have hexported := hb.agree.exportedValue href property.name
      revert hexported
      generalize b.exportedValue ref property.name = found
      generalize b'.exportedValue ref' property.name = found'
      intro hexported
      cases hexported with
      | found hvalue => exact level_valueType hvalue
      | missing | unknown => exact .pure rfl
    | _ => exact hproperty

section

variable (hsite : w.Sites site site')
include hsite

theorem level_identType (name : String) (span : Span) : w.Level (identType name span site) (identType name span site') := by
  unfold identType
  refine (abreast_lookupValue hsite.scope name).bind fun found found' hfound => ?_
  cases hfound with
  | some hvalue => exact level_valueType hvalue
  | none =>
    refine abreast_bindings.bind fun b b' hb => ?_
    have htype : (b.lookupType site.scope name).isNone = (b'.lookupType site'.scope name).isNone := by
      obtain ⟨hx, hx'⟩ | ⟨x, x', hx, hx', -⟩ := none_or_some_of_rel (hb.lookupType hsite.scope name)
      · rw [hx, hx']
      · rw [hx, hx']
        rfl
    rw [← htype]
    split
    · exact (level_report _ _).bind fun _ => .pure rfl
    · exact .pure rfl

theorem level_memberExprType (object : Expr) (property : Ident) :
    w.Level (memberExprType object property site) (memberExprType object property site') := by
  have hproperty : w.Level (do propertyType (← exprType object site none) property)
      (do propertyType (← exprType object site' none) property) :=
    (level_exprType hsite object none).bind fun _ => level_propertyType _ _
  unfold memberExprType
  dsimp only
  split
  · refine (abreast_lookupValue hsite.scope _).bind fun found found' hfound => ?_
    cases hfound with
    | none => exact hproperty
    | some hvalue => exact level_memberOfSymbol hvalue property
  · exact hproperty

theorem level_arrayType (items : List Expr) (expected : Option Ty) :
    w.Level (arrayType items site expected) (arrayType items site' expected) := by
  unfold arrayType
  refine Level.bind (Level.mapM fun item _ => (level_exprType hsite item _).bind fun _ => .pure rfl) fun types => ?_
  split <;> exact .pure rfl

theorem level_addProperty (expected : Option Ty) (object : ObjectTy) (p : Property) :
    w.Level (addProperty expected site object p) (addProperty expected site' object p) := by
  unfold addProperty
  split
  · refine (level_exprType hsite p.value none).bind fun type => ?_
    split <;> exact .pure rfl
  · exact (level_exprType hsite p.value _).bind fun _ => .pure rfl

theorem level_discardExpr (e : Expr) (expected : Option Ty) :
    w.Level (discard (exprType e site expected)) (discard (exprType e site' expected)) :=
  (level_exprType hsite e expected).discard

theorem level_callType (call : Span) (callee : Expr) (args : List Expr) :
    w.Level (callType call callee args site) (callType call callee args site') := by
  unfold callType
  refine (level_exprType hsite callee none).bind fun type => ?_
  split
  · rename_i f _
    have harity : w.Level (checkArity f call args) (checkArity f call args) := by
      unfold checkArity
      split
      · exact level_report _ _
      · exact .pure rfl
    have harguments : w.Level (args.zipIdx.forM (checkArgument f site)) (args.zipIdx.forM (checkArgument f site')) := by
      refine Level.forM fun arg _ => ?_
      unfold checkArgument
      dsimp only
      split
      · exact (level_exprType hsite _ _).bind fun _ => level_checkAssignable _ _ _ _ _
      · exact level_discardExpr hsite _ _
    exact harity.bind fun _ => harguments.bind fun _ => .pure rfl
  · exact Level.bind (Level.forM fun arg _ => level_discardExpr hsite arg _) fun _ => .pure rfl

/-! ### Functions -/

/-- Whatever follows on the options is the same. -/
theorem level_checkParam (contextual : Bool) (param : Param) :
    w.Level (checkParam contextual site param) (checkParam contextual site' param) := by
  have huntyped : w.Level
      (do if untyped? (← options).noImplicitAny contextual param then
        report (.untypedParameter param.name.name) param.name.span)
      (do if untyped? (← options).noImplicitAny contextual param then
        report (.untypedParameter param.name.name) param.name.span) := by
    refine level_options.bind fun options => ?_
    split
    · exact level_report _ _
    · exact .pure rfl
  unfold checkParam
  refine Level.bind (Level.optionMapM fun type _ => level_typeMeaning hsite type) fun declared => ?_
  dsimp only
  split
  · refine (level_exprType hsite _ declared).bind fun actual => ?_
    split
    · exact (level_checkAssignable _ _ _ _ _).bind fun _ => huntyped
    · exact huntyped
  · exact huntyped

theorem level_checkParams (params : List Param) (contextual : Bool) :
    w.Level (checkParams params contextual site) (checkParams params contextual site') :=
  .forM fun param _ => level_checkParam hsite contextual param

theorem level_checkAgainst (value : Expr) (declared : Option Ty) (span : Span) :
    w.Level (checkAgainst value declared site span) (checkAgainst value declared site' span) := by
  unfold checkAgainst
  refine (level_exprType hsite value declared).bind fun actual => ?_
  split
  · exact level_checkAssignable _ _ _ _ _
  · exact .pure rfl

theorem level_checkStatements (statements : List Statement) (result : Option Ty) :
    w.Level (statements.forM (checkStatement · site result)) (statements.forM (checkStatement · site' result)) :=
  .forM fun s _ => level_checkStatement hsite s result

theorem level_declaredResult (returnType : Option TypeNode) :
    w.Level (returnType.mapM (typeMeaning · site)) (returnType.mapM (typeMeaning · site')) :=
  .optionMapM fun type _ => level_typeMeaning hsite type

theorem level_functionExprType (start : Nat) (params : List Param) (returnType : Option TypeNode) (body : FunctionBody)
    (expected : Option Ty) :
    w.Level (functionExprType start params returnType body site expected)
      (functionExprType start params returnType body site' expected) := by
  unfold functionExprType
  refine Abreast.bind (abreast_functionSite hsite ..) fun inner inner' hinner => ?_
  have hdeclared : w.Level (declared (.functionExpr params returnType body inner))
      (declared (.functionExpr params returnType body inner')) :=
    level_declared (.functionExpr hinner)
  have hchecked : w.Level (checkFunctionExpr params returnType body expected.isSome inner)
      (checkFunctionExpr params returnType body expected.isSome inner') := by
    unfold checkFunctionExpr
    refine (level_checkParams hinner params _).bind fun _ => (level_declaredResult hinner returnType).bind fun declared => ?_
    split
    · exact level_checkStatements hinner _ declared
    · exact level_checkAgainst hinner _ declared _
  refine level_isQuiet.bind fun quiet => ?_
  dsimp only
  split
  · exact hdeclared
  · exact hchecked.bind fun _ => hdeclared

/-- How the type of an expression is worked out. -/
theorem level_exprRule (e : Expr) (expected : Option Ty) : w.Level (exprRule e site expected) (exprRule e site' expected) := by
  obtain ⟨kind, span⟩ := e
  unfold exprRule
  cases kind with
  | ident name => exact level_identType hsite name span
  | string | template | number | bool | null | this | error => exact .pure rfl
  | object properties =>
    exact Level.bind (Level.foldlM fun p _ object => level_addProperty hsite expected object p) fun _ => .pure rfl
  | array items => exact level_arrayType hsite items expected
  | member object property => exact level_memberExprType hsite object property
  | index object index =>
    exact (level_exprType hsite object none).bind fun _ => (level_discardExpr hsite index none).bind fun _ => .pure rfl
  | call callee args => exact level_callType hsite span callee args
  | new callee args =>
    refine (level_discardExpr hsite callee none).bind fun _ => ?_
    exact Level.bind (Level.forM fun arg _ => level_discardExpr hsite arg _) fun _ => .pure rfl
  | assign target value plain =>
    refine (level_exprType hsite target none).bind fun targetType => (level_exprType hsite value _).bind fun valueType => ?_
    split
    · exact (level_checkAssignable _ _ _ _ _).bind fun _ => .pure rfl
    · exact .pure rfl
  | binary op left right =>
    exact (level_exprType hsite left none).bind fun _ => (level_exprType hsite right none).bind fun _ => .pure rfl
  | unary op operand => exact (level_discardExpr hsite operand none).bind fun _ => .pure rfl
  | conditional condition thenValue elseValue =>
    refine (level_discardExpr hsite condition none).bind fun _ => (level_exprType hsite thenValue expected).bind fun _ => ?_
    exact (level_exprType hsite elseValue expected).bind fun _ => .pure rfl
  | function params returnType body => exact level_functionExprType hsite span.start params returnType body expected
  | cast value type => exact (level_discardExpr hsite value none).bind fun _ => level_typeMeaning hsite type

end

/-! ## Statements -/

theorem abreast_checkSource {file : Path} (hfile : core file) (source : StringLiteral) :
    w.Abreast w.Refs (checkSource file source) (checkSource file source) := by
  unfold checkSource
  refine abreast_bindings.bind fun b b' hb => ?_
  have href := hb.agree.moduleRef hfile source.value
  dsimp only
  by_cases hunresolved : b.moduleRef file source.value = .unresolved
  · rw [if_pos hunresolved, if_pos (href.eq_unresolved_iff.mp hunresolved)]
    exact (level_report _ _).bind fun _ => .pure href
  · rw [if_neg hunresolved, if_neg fun h => hunresolved (href.eq_unresolved_iff.mpr h)]
    exact .pure href

theorem level_checkExported {ref ref' : ModuleRef} (href : w.Refs ref ref') (source : StringLiteral) (name : Ident) :
    w.Level (checkExported ref source name) (checkExported ref' source name) := by
  unfold checkExported
  refine abreast_bindings.bind fun b b' hb => ?_
  have hmissing {α α' : Type} {R : α → α' → Prop} {found : Lookup α} {found' : Lookup α'} (h : Lookup.Related R found found') :
      found.isMissing = found'.isMissing := by
    cases h <;> rfl
  rw [← hmissing (hb.agree.exportedValue href name.name), ← hmissing (hb.agree.exportedType href name.name)]
  split
  · exact level_report _ _
  · exact .pure rfl

theorem isNone_congr {α α' : Type} {R : α → α' → Prop} {found : Option α} {found' : Option α'} (h : Option.Rel R found found') :
    found.isNone = found'.isNone := by
  cases h <;> rfl

section

variable (hsite : w.Sites site site')
include hsite

theorem level_checkImport (decl : ImportDecl) : w.Level (checkImport decl site.file) (checkImport decl site'.file) := by
  unfold checkImport
  rw [← hsite.file]
  refine (abreast_checkSource hsite.core decl.source).bind fun ref ref' href => ?_
  exact Level.forM fun s _ => level_checkExported href decl.source s.imported

theorem level_discardSource (source : StringLiteral) :
    w.Level (discard (checkSource site.file source)) (discard (checkSource site'.file source)) := by
  rw [← hsite.file]
  exact (abreast_checkSource hsite.core source).bind fun _ _ _ => .pure rfl

theorem level_checkLocalExport (name : Ident) : w.Level (checkLocalExport site name) (checkLocalExport site' name) := by
  unfold checkLocalExport
  refine (abreast_lookupValue hsite.scope name.name).bind fun value value' hvalue => ?_
  refine (abreast_lookupType hsite.scope name.name).bind fun type type' htype => ?_
  rw [← isNone_congr hvalue, ← isNone_congr htype]
  split
  · exact level_report _ _
  · exact .pure rfl

theorem level_isTypeName (e : Expr) : w.Level (isTypeName e site) (isTypeName e site') := by
  unfold isTypeName
  split
  · rename_i name _
    refine (abreast_lookupValue hsite.scope name).bind fun value value' hvalue => ?_
    rw [← isNone_congr hvalue]
    split
    · refine (abreast_lookupType hsite.scope name).bind fun type type' htype => ?_
      cases htype <;> exact .pure rfl
    · exact .pure rfl
  · exact .pure rfl

theorem level_checkExportedExpr (e : Expr) : w.Level (checkExportedExpr e site) (checkExportedExpr e site') := by
  unfold checkExportedExpr
  refine (level_isTypeName hsite e).bind fun named => ?_
  split
  · exact .pure rfl
  · exact level_discardExpr hsite e none

theorem level_checkExport (decl : ExportDecl) : w.Level (checkExport decl site) (checkExport decl site') := by
  unfold checkExport
  split
  · rename_i specifiers source _
    rw [← hsite.file]
    refine (abreast_checkSource hsite.core source).bind fun ref ref' href => ?_
    exact Level.forM fun s _ => level_checkExported href source s.localName
  · exact Level.forM fun s _ => level_checkLocalExport hsite s.localName
  · exact level_discardSource hsite _
  · exact level_checkExportedExpr hsite _
  · exact level_checkExportedExpr hsite _

theorem level_checkDeclarator (ambient : Bool) (decl : Declarator) :
    w.Level (checkDeclarator ambient site decl) (checkDeclarator ambient site' decl) := by
  have huntyped (declared : Option Ty) : w.Level
      (do if declared.isNone && ambient && (← options).noImplicitAny then report (.untypedVariable decl.name.name) decl.name.span)
      (do
        if declared.isNone && ambient && (← options).noImplicitAny then
          report (.untypedVariable decl.name.name) decl.name.span) := by
    refine level_options.bind fun options => ?_
    split
    · exact level_report _ _
    · exact .pure rfl
  unfold checkDeclarator
  refine abreast_bindings.bind fun b b' hb => ?_
  have hkey : core (NodeKey.mk .declarator site.file decl.span.start).file := hsite.core
  rw [← hsite.file, ← hb.agree.isRedeclared hsite.scope hkey]
  have hdeclared := level_declaredResult hsite decl.type
  cases decl.init with
  | some init =>
    dsimp only
    split
    · exact (level_report _ _).bind fun _ => hdeclared.bind fun declared => level_checkAgainst hsite _ declared _
    · exact hdeclared.bind fun declared => level_checkAgainst hsite _ declared _
  | none =>
    dsimp only
    split
    · exact (level_report _ _).bind fun _ => hdeclared.bind huntyped
    · exact hdeclared.bind huntyped

theorem level_checkVariables (d : VariableStatement) : w.Level (checkVariables d site) (checkVariables d site') := by
  unfold checkVariables
  rw [← hsite.file]
  exact Level.forM fun decl _ => level_checkDeclarator hsite _ decl

theorem level_checkFunction (decl : FunctionDecl) : w.Level (checkFunction decl site) (checkFunction decl site') := by
  unfold checkFunction
  refine Abreast.bind (abreast_functionSite hsite ..) fun inner inner' hinner => ?_
  refine (level_checkParams hinner decl.params false).bind fun _ => ?_
  refine (level_declaredResult hinner decl.returnType).bind fun declared => ?_
  split
  · exact level_checkStatements hinner _ declared
  · exact .pure rfl

theorem level_checkInterface (decl : InterfaceDecl) : w.Level (checkInterface decl site) (checkInterface decl site') := by
  have hinner := sites_typeParamSite hsite .interface decl.span.start decl.typeParams
  unfold checkInterface
  refine Level.bind (Level.forM fun base _ => (level_typeMeaning hinner base).discard) fun _ => ?_
  exact Level.forM fun member _ => (level_declaredResult hinner member.type).discard

theorem level_checkModule (decl : ModuleDecl) : w.Level (checkModule decl site) (checkModule decl site') := by
  unfold checkModule
  split
  · refine abreast_bindings.bind fun b b' hb => ?_
    have hkey : core (NodeKey.mk .moduleDecl site.file decl.span.start).file := hsite.core
    have hscope := Ready.scopes_getD (hb.agree.moduleScope? hsite.scope hkey) hsite.scope
    have hinner : w.Sites { site with scope := (b.moduleScope? site.scope ⟨.moduleDecl, site.file, decl.span.start⟩).getD site.scope }
        { site' with scope := (b'.moduleScope? site'.scope ⟨.moduleDecl, site'.file, decl.span.start⟩).getD site'.scope } :=
      ⟨hsite.file, hsite.core, hsite.file ▸ hscope⟩
    exact level_checkStatements hinner _ none
  · exact .pure rfl

/-- How a statement is checked. -/
theorem level_statementRule (s : Statement) (result : Option Ty) :
    w.Level (statementRule s site result) (statementRule s site' result) := by
  cases s with
  | importDecl decl => exact level_checkImport hsite decl
  | importEquals decl => exact level_discardSource hsite decl.source
  | exportDecl decl => exact level_checkExport hsite decl
  | variableDecl d => exact level_checkVariables hsite d
  | function decl => exact level_checkFunction hsite decl
  | interface decl => exact level_checkInterface hsite decl
  | typeAlias decl => exact (level_aliasType hsite decl).discard
  | moduleDecl decl => exact level_checkModule hsite decl
  | ifElse s =>
    unfold statementRule
    refine (level_discardExpr hsite s.condition none).bind fun _ => ?_
    refine (level_checkStatement hsite s.thenBranch result).bind fun _ => ?_
    split
    · exact level_checkStatement hsite _ result
    · exact .pure rfl
  | block block => exact (abreast_blockSite hsite block).bind fun _ _ hinner => level_checkStatements hinner _ result
  | expression e => exact level_discardExpr hsite e none
  | ret s =>
    unfold statementRule
    dsimp only
    split
    · exact level_checkAgainst hsite _ result _
    · exact .pure rfl
  | empty | error => exact .pure rfl

end

/-- The check of a file of the core. -/
theorem level_checkUnit {unit : SourceUnit} (hunit : core unit.path) : w.Level (checkUnit unit) (checkUnit unit) := by
  unfold checkUnit
  refine abreast_bindings.bind fun b b' hb => ?_
  have hsite : w.Sites ⟨unit.path, (b.fileScopes.get? unit.path).getD globalScope⟩
      ⟨unit.path, (b'.fileScopes.get? unit.path).getD globalScope⟩ :=
    ⟨rfl, hunit, Ready.scopes_getD (hb.agree.fileScopes _ hunit) .global⟩
  exact level_checkStatements hsite _ none

end Pairing

end Recheck.Check
