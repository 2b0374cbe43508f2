import Recheck.Check.Checker

/-!
# Written and annotated signatures

The type of a function comes from its parameters in two ways: through `signature`, where the function is declared, and through
the rule for types, where an annotation says `(params) => ret`. Both ask the same questions in the same order, so they agree
on every parameter but a rest parameter (`functionDeclType_annotated`). A declaration takes the type of its elements, which is
what calls and comparisons expect of a function type; an annotation keeps the type of the array (`annotation_keeps_array`).
-/

set_option autoImplicit false

namespace Recheck

/-- The parameter with the type of one argument. -/
def ParamTy.perArgument (p : ParamTy) : ParamTy := { p with type := Check.argumentType p.rest p.type }

/-- The function type in which rest parameters have the type of one argument. -/
def Ty.perArgument : Ty → Ty
  | .function f => .function { f with params := f.params.map ParamTy.perArgument }
  | t => t

namespace Check

open Syntax

/-! ## Parts of a check as programs -/

/-- A part of a check is a program, and programs are equal when they ask the same and come to the same. -/
instance : LawfulMonad CheckM := LawfulMonad.mk' CheckM
  (by
    intro α c
    change c.bind (fun a => CheckM.done a) = c
    induction c with
    | done => rfl
    | ask q next ih => exact congrArg (CheckM.ask q) (funext ih))
  (by
    intro α β a f
    rfl)
  (by
    intro α β γ c f g
    change (c.bind f).bind g = c.bind fun a => (f a).bind g
    induction c with
    | done => rfl
    | ask q next ih => exact congrArg (CheckM.ask q) (funext ih))

/-- What is done to each result can be done to all of them at the end. -/
theorem mapM_map_results {ι α β : Type} {f : ι → CheckM α} {f' : ι → CheckM β} {g : α → β} {xs : List ι}
    (h : ∀ x ∈ xs, f' x = g <$> f x) : xs.mapM f' = List.map g <$> xs.mapM f := by
  induction xs with
  | nil => simp
  | cons x xs ih =>
    rw [List.mapM_cons, List.mapM_cons, h x List.mem_cons_self, ih fun y hy => h y (List.mem_cons_of_mem _ hy)]
    simp

/-! ## Parameters -/

/-- The parameter has an annotation, and no default. -/
def IsAnnotated (param : Param) : Prop := param.type.isSome ∧ param.default = none

variable {param : Param} {site : Site}

theorem signatureParam_eq (site : Site) (h : IsAnnotated param) :
    signatureParam param site = ParamTy.perArgument <$> annotatedParam param site := by
  obtain ⟨htype, hdefault⟩ := h
  obtain ⟨type, htype⟩ := Option.isSome_iff_exists.mp htype
  simp [signatureParam, paramType, annotatedParam, ParamTy.perArgument, htype, hdefault]

theorem signatureParam_eq_of_single (h : IsAnnotated param) (hrest : param.rest = false) :
    signatureParam param site = annotatedParam param site := by
  obtain ⟨htype, hdefault⟩ := h
  obtain ⟨type, htype⟩ := Option.isSome_iff_exists.mp htype
  simp [signatureParam, paramType, annotatedParam, argumentType, htype, hdefault, hrest]

/-! ## Signatures -/

section

variable {params : List Param} {ret : TypeNode} {body : Option FunctionBody} (span : Span)

theorem signature_eq (h : ∀ param ∈ params, IsAnnotated param) :
    signature params (some ret) body site = Ty.perArgument <$> typeRule ⟨.function params ret, span⟩ site := by
  have hparams := mapM_map_results fun param hparam => signatureParam_eq site (h param hparam)
  simp [signature, typeRule, hparams, Ty.perArgument]

theorem signature_eq_of_single (h : ∀ param ∈ params, IsAnnotated param) (hrest : ∀ param ∈ params, param.rest = false) :
    signature params (some ret) body site = typeRule ⟨.function params ret, span⟩ site := by
  have hparams : params.mapM (signatureParam · site) = params.mapM (annotatedParam · site) := by
    have hsame (param : Param) (hparam : param ∈ params) : signatureParam param site = id <$> annotatedParam param site := by
      rw [id_map]
      exact signatureParam_eq_of_single (h param hparam) (hrest param hparam)
    simpa using mapM_map_results hsame
  simp [signature, typeRule, hparams]

/-- A declaration with all types written out has the type that an annotation with the same parameters and the same result has
inside the declaration, but for its rest parameters. What it takes for the type of such a parameter is the type of one
argument. Without rest parameters the types are the same. -/
theorem functionDeclType_annotated (decl : FunctionDecl) (ret : TypeNode) (span : Span) (site : Site)
    (hret : decl.returnType = some ret) (hparams : ∀ param ∈ decl.params, IsAnnotated param) :
    functionDeclType decl site =
      (do
        let inner ← functionDeclSite decl site
        let type ← typeRule ⟨.function decl.params ret, span⟩ inner
        return type.perArgument) ∧
    ((∀ param ∈ decl.params, param.rest = false) →
      functionDeclType decl site =
        (do
          let inner ← functionDeclSite decl site
          typeRule ⟨.function decl.params ret, span⟩ inner)) := by
  constructor
  · unfold functionDeclType
    rw [hret]
    refine bind_congr fun inner => ?_
    rw [signature_eq span hparams, map_eq_pure_bind]
  · intro hrest
    unfold functionDeclType
    rw [hret]
    exact bind_congr fun inner => signature_eq_of_single span hparams hrest

end

/-- `declare function f(...xs: number[]): void` -/
def restDecl : FunctionDecl where
  modifiers := default
  name := some ⟨"f", Span.empty⟩
  typeParams := []
  params := [⟨⟨"xs", Span.empty⟩, false, true, some ⟨.array ⟨.keyword .number, Span.empty⟩, Span.empty⟩, none, Span.empty⟩]
  returnType := some ⟨.keyword .void, Span.empty⟩
  body := none
  span := Span.empty

theorem functionDeclType_annotated_rest :
    (restDecl.returnType = some ⟨.keyword .void, Span.empty⟩ ∧ ∀ param ∈ restDecl.params, IsAnnotated param) ∧
    ∀ site, functionDeclType restDecl site =
      (do
        let inner ← functionDeclSite restDecl site
        let type ← typeRule ⟨.function restDecl.params ⟨.keyword .void, Span.empty⟩, Span.empty⟩ inner
        return type.perArgument) := by
  have hparams : ∀ param ∈ restDecl.params, IsAnnotated param := by simp [restDecl, IsAnnotated]
  exact ⟨⟨rfl, hparams⟩, fun site => (functionDeclType_annotated restDecl _ Span.empty site rfl hparams).1⟩

/-! ## Rest parameters -/

/-- A function with a rest parameter and a variable with an annotation for it, both called with a number. -/
def restProgram : Program :=
  .ofHost [⟨"/a.ts"⟩] .standard (Files.toHost (.ofList [
    (⟨"/a.ts"⟩, "declare function f(...xs: number[]): void;declare let g: (...xs: number[]) => void;f(1);g(1)")]))

set_option maxRecDepth 100000 in
/-- A rest parameter makes the two differ, and a call finds it out: a number is taken by the function that is declared, and
not by the one that is annotated in the same way. -/
theorem annotation_keeps_array :
    (¬∀ (decl : FunctionDecl) (ret : TypeNode) (span : Span) (site : Site), decl.returnType = some ret →
      (∀ param ∈ decl.params, IsAnnotated param) →
      functionDeclType decl site =
        (do
          let inner ← functionDeclSite decl site
          typeRule ⟨.function decl.params ret, span⟩ inner)) ∧
    ((restProgram.semanticDiagnostics ⟨"/a.ts"⟩).map fun d => (d.code, d.span)) = [(2345, ⟨90, 91⟩)] := by
  constructor
  · intro h
    have hsame := h restDecl ⟨.keyword .void, Span.empty⟩ Span.empty ⟨⟨"/a.ts"⟩, globalScope⟩ rfl (by simp [restDecl, IsAnnotated])
    have htext := congrArg
      (fun c => ((c.run (answer ⟨"/a.ts"⟩ 3)).run (.start (TypeChecker.ofProgram restProgram).known)).1.text) hsame
    revert htext
    decide +kernel
  · decide +kernel

end Check
end Recheck
