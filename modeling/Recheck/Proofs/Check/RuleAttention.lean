import Recheck.Proofs.Check.Attention

/-!
# What the rules look into

The rules for types, expressions and statements, followed from the first question to the last (`attends_rule`). Each goes
through the parts of its node in the order in which `Node.parts` lists them.
-/

set_option autoImplicit false

namespace Recheck.Check

open Syntax

section

variable {o : Lookout} {hit : Prop} {todo : List Node}

/-! ## Types -/

theorem attends_typeMeanings (types : List TypeNode) :
    Attends o False (Node.ofTypes types) (types.mapM (typeMeaning · o.site)) := by
  rw [Node.ofTypes, List.map_eq_flatMap]
  exact Attends.mapM fun t _ => attends_typeMeaning t

theorem attends_typeMeaning? (type : Option TypeNode) :
    Attends o False (Node.ofTypes type.toList) (type.mapM (typeMeaning · o.site)) := by
  rw [Node.ofTypes, List.map_eq_flatMap]
  exact Attends.optionMapM attends_typeMeaning

theorem attends_addMember (object : ObjectTy) (member : Member) :
    Attends o False (Node.ofTypes member.type.toList) (addMember object member o.site) := by
  unfold addMember
  dsimp only
  split
  · rename_i type htype
    rw [htype]
    refine (attends_typeMeaning type).bind_aside fun _ _ => ?_
    split <;> exact .pure _
  · rename_i htype
    rw [htype, CheckM.pure_bind]
    split <;> exact .pure _

theorem attends_referenceType {name : List Ident} (args : List TypeNode) (hnames : headName name ⊆ o.names) :
    Attends o (∃ part ∈ headName name, o.marked part) (Node.ofTypes args) (referenceType name args o.site) := by
  unfold referenceType
  rw [← List.append_nil (Node.ofTypes args)]
  refine (attends_typeMeanings args).bind (fun types _ => ?_) .inr
  cases name with
  | nil => exact ⟨rfl, nofun⟩
  | cons first rest =>
    refine .named ((attends_lookupType (hnames List.mem_cons_self)).bind_aside fun found _ => ?_)
    split
    · exact (aside_report _ _).after fun _ => .pure _
    · rename_i symbol
      split
      · exact aside_symbolType symbol types
      · refine (aside_resolveTypeSymbol symbol).after fun target => ?_
        split
        · refine attends_bindings fun b _ => ?_
          split
          · exact aside_symbolType _ types
          · exact .pure _
        · exact .pure _

theorem attends_typeofType {name : List Ident} (hnames : headName name ⊆ o.names) :
    Attends o (∃ part ∈ headName name, o.marked part) [] (typeofType name o.site) := by
  unfold typeofType
  cases name with
  | nil => exact ⟨rfl, nofun⟩
  | cons first rest =>
    refine .named ((attends_lookupValue (hnames List.mem_cons_self)).bind_aside fun found _ => ?_)
    split
    · exact (aside_report _ _).after fun _ => .pure _
    · split
      · exact aside_valueType _
      · exact .pure _

theorem attends_annotatedParam (param : Param) :
    Attends o False (Node.ofTypes param.type.toList) (annotatedParam param o.site) := by
  unfold annotatedParam
  dsimp only
  cases param.type with
  | none => exact .pure _
  | some type => exact (attends_typeMeaning type).bind_aside fun _ _ => .pure _

theorem attends_typeRule (node : TypeNode) (hnames : (Node.type node).looks ⊆ o.names) :
    Attends o (∃ name ∈ (Node.type node).looks, o.marked name) (Node.type node).visits (typeRule node o.site) := by
  obtain ⟨kind, span⟩ := node
  unfold typeRule
  cases kind with
  | keyword | literal | error => exact Attends.nameless rfl (.pure _)
  | reference name args => exact attends_referenceType args hnames
  | union members => exact Attends.nameless rfl ((attends_typeMeanings members).bind_aside fun _ _ => .pure _)
  | intersection members => exact Attends.nameless rfl ((attends_typeMeanings members).bind_aside fun _ _ => .pure _)
  | array element => exact Attends.nameless rfl ((attends_typeMeaning element).bind_aside fun _ _ => .pure _)
  | tuple elements => exact Attends.nameless rfl ((attends_typeMeanings elements).bind_aside fun _ _ => .pure _)
  | object members =>
    refine Attends.nameless rfl (Attends.bind_aside (Attends.foldlM fun member _ object => ?_) fun _ _ => .pure _)
    exact attends_addMember object member
  | function params ret =>
    refine Attends.nameless rfl (Attends.andThen (Attends.mapM fun param _ => attends_annotatedParam param) fun _ => ?_)
    exact (attends_typeMeaning ret).bind_aside fun _ _ => .pure _
  | typeof name => exact attends_typeofType hnames

/-! ## Expressions -/

theorem aside_checkAssignable (value : Expr) (source target : Ty) (span : Span) (relationship : Relationship) :
    Aside o (checkAssignable value source target span relationship) := by
  unfold checkAssignable
  refine aside_options.after fun opts => ?_
  split
  · exact aside_report _ _
  · exact .pure _

theorem attends_identType {name : String} (hname : name ∈ o.names) (span : Span) :
    Attends o (o.marked name) [] (identType name span o.site) := by
  unfold identType
  refine (attends_lookupValue hname).bind_aside fun found _ => ?_
  split
  · exact aside_valueType _
  · refine attends_bindings fun b _ => ?_
    split
    · exact (aside_report _ _).after fun _ => .pure _
    · exact .pure _

theorem aside_propertyType (object : Ty) (property : Ident) : Aside o (propertyType object property) := by
  unfold propertyType
  dsimp only
  split
  · split
    · exact .pure _
    · exact (aside_report _ _).after fun _ => .pure _
  · exact .pure _

theorem aside_memberOfSymbol (symbol : ValueSymbol) (property : Ident) : Aside o (memberOfSymbol symbol property) := by
  unfold memberOfSymbol
  refine (aside_resolveValue symbol).after fun target => ?_
  split
  · refine attends_bindings fun b _ => ?_
    split
    · exact aside_valueType _
    · exact .pure _
  · exact (aside_valueType symbol).after fun type => aside_propertyType type property

theorem attends_memberExprType {object : Expr} (property : Ident) (hnames : identName object ⊆ o.names) :
    Attends o (∃ name ∈ identName object, o.marked name) (Node.ofComposed object) (memberExprType object property o.site) := by
  have hproperty : Attends o False (Node.ofComposed object) (do propertyType (← exprType object o.site none) property) :=
    (attends_composed object none hnames).bind_aside fun type _ => aside_propertyType type property
  obtain ⟨kind, span⟩ := object
  unfold memberExprType
  cases kind with
  | ident name =>
    refine .named ((attends_lookupValue (hnames List.mem_cons_self)).bind_aside fun found _ => ?_)
    dsimp only
    split
    · exact aside_memberOfSymbol _ property
    · exact hproperty
  | _ => exact .nameless rfl hproperty

theorem attends_arrayType (items : List Expr) (expected : Option Ty) :
    Attends o False (Node.ofExprs items) (arrayType items o.site expected) := by
  unfold arrayType
  rw [Node.ofExprs, List.map_eq_flatMap]
  refine Attends.bind_aside (Attends.mapM fun item _ => ?_) fun types _ => ?_
  · exact (attends_exprType item _).bind_aside fun _ _ => .pure _
  · split <;> exact .pure _

theorem attends_addProperty (expected : Option Ty) (object : ObjectTy) (p : Property) :
    Attends o False [.expr p.value] (addProperty expected o.site object p) := by
  unfold addProperty
  split
  · refine (attends_exprType p.value none).bind_aside fun _ _ => ?_
    split <;> exact .pure _
  · exact (attends_exprType p.value _).bind_aside fun _ _ => .pure _

theorem attends_objectLiteralType (properties : List Property) (expected : Option Ty) :
    Attends o False (Node.ofExprs (properties.map (·.value))) (objectLiteralType properties o.site expected) := by
  unfold objectLiteralType
  rw [Node.ofExprs, List.map_map, List.map_eq_flatMap]
  exact Attends.bind_aside (Attends.foldlM fun p _ object => attends_addProperty expected object p) fun _ _ => .pure _

theorem attends_exprs (args : List Expr) (expected : Option Ty) :
    Attends o False (Node.ofExprs args) (args.forM fun arg => discard (exprType arg o.site expected)) := by
  rw [Node.ofExprs, List.map_eq_flatMap]
  exact Attends.forM fun arg _ => (attends_exprType arg expected).discard

theorem attends_checkArgument (f : FunctionTy) (arg : Expr) (i : Nat) :
    Attends o False [.expr arg] (checkArgument f o.site (arg, i)) := by
  unfold checkArgument
  dsimp only
  split
  · exact (attends_exprType arg _).bind_aside fun _ _ => aside_checkAssignable _ _ _ _ _
  · exact (attends_exprType arg _).discard

theorem attends_checkArguments (f : FunctionTy) (args : List Expr) :
    Attends o False (Node.ofExprs args) (args.zipIdx.forM (checkArgument f o.site)) := by
  have hargs : Node.ofExprs args = args.zipIdx.flatMap fun x => [.expr x.1] := by
    conv_lhs => rw [← List.zipIdx_map_fst 0 args, Node.ofExprs, List.map_map, List.map_eq_flatMap]
    rfl
  rw [hargs]
  exact Attends.forM fun x _ => attends_checkArgument f x.1 x.2

theorem aside_checkArity (f : FunctionTy) (call : Span) (args : List Expr) : Aside o (checkArity f call args) := by
  unfold checkArity
  split
  · exact aside_report _ _
  · exact .pure _

theorem attends_callType (call : Span) (callee : Expr) (args : List Expr) :
    Attends o False (Node.ofExprs (callee :: args)) (callType call callee args o.site) := by
  unfold callType
  refine (attends_exprType callee none).andThen (t := Node.ofExprs args) fun type => ?_
  split
  · rename_i f _
    refine (aside_checkArity f call args).after fun _ => ?_
    exact (attends_checkArguments f args).bind_aside fun _ _ => .pure _
  · exact (attends_exprs args _).bind_aside fun _ _ => .pure _

/-! ### Functions -/

/-- What goes on in a body. -/
theorem attends_inBody {α : Type} {f : Site → CheckM α} {body : Body} {outer : Site}
    (hsite : o.site = { outer with scope := .inner body outer.scope 0 }) (hf : Attends o hit todo (f o.site)) :
    Attends o hit todo (bodySite body outer >>= f) := by
  unfold bodySite
  split
  · exact hsite ▸ hf
  · exact ⟨todo, rfl, .inr fun _ _ => hsite ▸ hf⟩

theorem attends_checkParam (contextual : Bool) (param : Param) :
    Attends o False (Node.ofTypes param.type.toList ++ Node.ofExprs param.default.toList)
      (checkParam contextual o.site param) := by
  have hrest : Aside o (do
      if untyped? (← options).noImplicitAny contextual param then
        report (.untypedParameter param.name.name) param.name.span) := by
    refine aside_options.after fun opts => ?_
    split
    · exact aside_report _ _
    · exact .pure _
  unfold checkParam
  refine (attends_typeMeaning? param.type).andThen fun declared => ?_
  dsimp only
  cases param.default with
  | none => exact hrest
  | some value =>
    refine (attends_exprType value _).bind_aside fun _ _ => ?_
    split
    · exact (aside_checkAssignable _ _ _ _ _).after fun _ => hrest
    · exact hrest

theorem attends_checkParams (params : List Param) (contextual : Bool) :
    Attends o False (Node.ofParams params) (checkParams params contextual o.site) :=
  Attends.forM fun param _ => attends_checkParam contextual param

theorem attends_checkAgainst (value : Expr) (declared : Option Ty) (span : Span) :
    Attends o False [.expr value] (checkAgainst value declared o.site span) := by
  unfold checkAgainst
  refine (attends_exprType value declared).bind_aside fun _ _ => ?_
  split
  · exact aside_checkAssignable _ _ _ _ _
  · exact .pure _

theorem attends_checkStatements (statements : List Statement) (result : Option Ty) :
    Attends o False (Node.ofStatements statements) (statements.forM (checkStatement · o.site result)) := by
  rw [Node.ofStatements, List.map_eq_flatMap]
  exact Attends.forM fun s _ => attends_checkStatement s result

theorem attends_checkFunctionExpr (params : List Param) (returnType : Option TypeNode) (body : FunctionBody)
    (contextual : Bool) : Attends o False (Node.ofParams params ++ (Node.ofTypes returnType.toList ++ Node.ofBody body))
      (checkFunctionExpr params returnType body contextual o.site) := by
  unfold checkFunctionExpr
  refine (attends_checkParams params contextual).andThen fun _ => ?_
  refine (attends_typeMeaning? returnType).andThen fun declared => ?_
  cases body with
  | block block => exact attends_checkStatements block.statements declared
  | expr value => exact attends_checkAgainst value declared _

theorem attends_functionExprType {start : Nat} {params : List Param} {returnType : Option TypeNode} {body : FunctionBody}
    {outer : Site} (hsite : o.site = { outer with
      scope := .inner ⟨⟨.functionExpr, outer.file, start⟩, [], params, bodyStatements body⟩ outer.scope 0 })
    (expected : Option Ty) :
    Attends o False (Node.ofParams params ++ (Node.ofTypes returnType.toList ++ Node.ofBody body))
      (functionExprType start params returnType body outer expected) := by
  unfold functionExprType
  refine attends_inBody hsite (attends_loud ?_)
  exact (attends_checkFunctionExpr params returnType body _).bind_aside fun _ _ => aside_declared _

/-! ### The rule -/

/-- The node is the one that is looked into. -/
structure Lookout.At (o : Lookout) (x : Item) : Prop where
  names : x.node.looks ⊆ o.names
  body : ∀ body, x.node.body? x.site.file = some body → o.site = { x.site with scope := .inner body x.site.scope 0 }
  module : ∀ d, x.node = .statement (.moduleDecl d) → ∀ b, o.known b → x.inside b = some o.site
  plain : x.node.body? x.site.file = none → x.node.module = [] → o.site = x.site

theorem attends_exprRule {e : Expr} {site : Site} (ho : o.At ⟨.expr e, site⟩) (expected : Option Ty) :
    Attends o (∃ name ∈ (Node.expr e).looks, o.marked name) (Node.expr e).visits (exprRule e site expected) := by
  obtain ⟨kind, span⟩ := e
  have hnames := ho.names
  unfold exprRule
  by_cases hfunction : ∃ params returnType body, kind = .function params returnType body
  · obtain ⟨params, returnType, body, rfl⟩ := hfunction
    exact .nameless rfl (attends_functionExprType (ho.body _ rfl) expected)
  obtain rfl : o.site = site := by
    refine ho.plain ?_ rfl
    cases kind with
    | function params returnType body => exact absurd ⟨params, returnType, body, rfl⟩ hfunction
    | _ => rfl
  cases kind with
  | ident name => exact .named (attends_identType (hnames List.mem_cons_self) span)
  | string | template | number | bool | null | this | error => exact .nameless rfl (.pure _)
  | object properties => exact .nameless rfl (attends_objectLiteralType properties expected)
  | array items => exact .nameless rfl (attends_arrayType items expected)
  | member object property => exact attends_memberExprType property hnames
  | index object index =>
    refine .nameless rfl ((attends_exprType object none).andThen (t := [.expr index]) fun _ => ?_)
    exact (attends_exprType index none).discard.bind_aside fun _ _ => .pure _
  | call callee args => exact .nameless rfl (attends_callType span callee args)
  | new callee args =>
    refine .nameless rfl ((attends_exprType callee none).discard.andThen (t := Node.ofExprs args) fun _ => ?_)
    exact (attends_exprs args _).bind_aside fun _ _ => .pure _
  | assign target value plain =>
    refine .nameless rfl ((attends_exprType target none).andThen (t := [.expr value]) fun _ => ?_)
    refine (attends_exprType value _).bind_aside fun _ _ => ?_
    split
    · exact (aside_checkAssignable _ _ _ _ _).after fun _ => .pure _
    · exact .pure _
  | binary op left right =>
    refine .nameless rfl ((attends_exprType left none).andThen (t := [.expr right]) fun _ => ?_)
    exact (attends_exprType right none).bind_aside fun _ _ => .pure _
  | unary op operand => exact .nameless rfl ((attends_exprType operand none).discard.bind_aside fun _ _ => .pure _)
  | conditional condition thenValue elseValue =>
    refine .nameless rfl ((attends_exprType condition none).discard.andThen (t := [.expr thenValue, .expr elseValue])
      fun _ => ?_)
    refine (attends_exprType thenValue expected).andThen (t := [.expr elseValue]) fun _ => ?_
    exact (attends_exprType elseValue expected).bind_aside fun _ _ => .pure _
  | function params returnType body => exact absurd ⟨params, returnType, body, rfl⟩ hfunction
  | cast value type =>
    refine .nameless rfl ((attends_exprType value none).discard.andThen (t := [.type type]) fun _ => ?_)
    exact attends_typeMeaning type

/-! ## Statements -/

theorem aside_checkSource (file : Path) (source : StringLiteral) : Aside o (checkSource file source) := by
  unfold checkSource
  refine attends_bindings fun b _ => ?_
  dsimp only
  split
  · exact (aside_report _ _).after fun _ => .pure _
  · exact .pure _

theorem aside_checkExported (ref : ModuleRef) (source : StringLiteral) (name : Ident) :
    Aside o (checkExported ref source name) := by
  unfold checkExported
  refine attends_bindings fun b _ => ?_
  split
  · exact aside_report _ _
  · exact .pure _

theorem aside_forM {ι : Type} {xs : List ι} {f : ι → CheckM Unit} (hf : ∀ x, Aside o (f x)) : Aside o (xs.forM f) := by
  induction xs with
  | nil => exact .pure ()
  | cons x xs ih => exact (hf x).after fun _ => ih

theorem aside_checkImport (decl : ImportDecl) (file : Path) : Aside o (checkImport decl file) :=
  (aside_checkSource file decl.source).after fun ref => aside_forM fun s => aside_checkExported ref decl.source s.imported

theorem attends_checkLocalExport {name : Ident} (hname : name.name ∈ o.names) :
    Attends o (o.marked name.name) [] (checkLocalExport o.site name) := by
  unfold checkLocalExport
  refine (attends_lookupValue hname).bind_aside fun value _ => ?_
  refine ((attends_lookupType hname).imp False.elim).after fun type => ?_
  split
  · exact aside_report _ _
  · exact .pure _

/-- A name is looked up among the values, and then among the types or as an expression. -/
theorem attends_checkExportedExpr {e : Expr} (hnames : identName e ⊆ o.names) :
    Attends o (∃ name ∈ identName e, o.marked name) (Node.ofComposed e) (checkExportedExpr e o.site) := by
  have hjudge : Attends o False (Node.ofComposed e) (discard (exprType e o.site none)) :=
    (attends_composed e none hnames).discard
  obtain ⟨kind, span⟩ := e
  unfold checkExportedExpr isTypeName
  cases kind with
  | ident name =>
    have hname : name ∈ o.names := hnames List.mem_cons_self
    refine .named (Attends.bind_aside (Attends.bind_aside (attends_lookupValue hname) fun value _ => ?_) fun known _ => ?_)
    · split
      · exact ((attends_lookupType hname).imp False.elim).after fun _ => .pure _
      · exact .pure _
    · split
      · exact .pure _
      · exact hjudge
  | _ => exact .nameless rfl hjudge

theorem attends_localExports {specifiers : List ExportSpecifier} (hnames : (specifiers.map (·.localName.name)) ⊆ o.names) :
    Attends o (∃ name ∈ specifiers.map (·.localName.name), o.marked name) []
      (specifiers.forM fun s => checkLocalExport o.site s.localName) := by
  induction specifiers with
  | nil => exact .nameless rfl (.pure ())
  | cons s rest ih =>
    have hrest := ih fun name hname => hnames (List.mem_cons_of_mem _ hname)
    refine (attends_checkLocalExport (hnames List.mem_cons_self)).bind (t := []) (fun _ _ => hrest) ?_
    rintro ⟨name, hname, hmarked⟩
    rcases List.mem_cons.mp hname with rfl | hname
    · exact .inl hmarked
    · exact .inr ⟨name, hname, hmarked⟩

theorem attends_checkExport {decl : ExportDecl} (hnames : Node.looksExport decl.kind ⊆ o.names) :
    Attends o (∃ name ∈ Node.looksExport decl.kind, o.marked name) (Node.visitsExport decl.kind)
      (checkExport decl o.site) := by
  obtain ⟨kind, span⟩ := decl
  unfold checkExport
  cases kind with
  | named specifiers source =>
    cases source with
    | none => exact attends_localExports hnames
    | some source =>
      refine .nameless rfl ((aside_checkSource _ source).after fun ref => ?_)
      exact aside_forM fun s => aside_checkExported ref source s.localName
  | star newName source => exact .nameless rfl (aside_checkSource _ source).discard
  | default value => exact attends_checkExportedExpr hnames
  | assignment value => exact attends_checkExportedExpr hnames

theorem attends_checkDeclarator (ambient : Bool) (decl : Declarator) :
    Attends o False (Node.ofTypes decl.type.toList ++ Node.ofExprs decl.init.toList)
      (checkDeclarator ambient o.site decl) := by
  have hrest {next : Option Ty → CheckM Unit} {todo : List Node} (hnext : ∀ declared, Attends o False todo (next declared))
      (redeclared : Bool) : Attends o False (Node.ofTypes decl.type.toList ++ todo) (do
        if redeclared then report (.redeclared decl.name.name) decl.name.span
        next (← decl.type.mapM (typeMeaning · o.site))) := by
    have htyped := (attends_typeMeaning? (o := o) decl.type).andThen hnext
    split
    · exact (aside_report _ _).after fun _ => htyped
    · exact htyped
  unfold checkDeclarator
  refine attends_bindings fun b _ => ?_
  cases decl.init with
  | some init => exact hrest (fun declared => attends_checkAgainst init declared _) _
  | none =>
    refine hrest (fun declared => aside_options.after fun opts => ?_) _
    split
    · exact aside_report _ _
    · exact .pure _

theorem attends_checkVariables (d : VariableStatement) :
    Attends o False (Node.ofDeclarators d.declarators) (checkVariables d o.site) :=
  Attends.forM fun decl _ => attends_checkDeclarator _ decl

theorem attends_checkFunction {decl : FunctionDecl} {site : Site} (ho : o.At ⟨.statement (.function decl), site⟩) :
    Attends o False (Node.statement (.function decl)).visits (checkFunction decl site) := by
  unfold checkFunction
  refine attends_inBody (ho.body _ rfl) ((attends_checkParams decl.params false).andThen fun _ => ?_)
  refine (attends_typeMeaning? decl.returnType).andThen fun declared => ?_
  cases decl.body with
  | none => exact .pure _
  | some body => exact attends_checkStatements body.statements declared

theorem Lookout.At.site_typeParams {x : Item} (ho : o.At x) {kind : NodeKind} {start : Nat} {names : List Ident}
    (hbody : x.node.body? x.site.file = typeParamBody? kind x.site.file start names) (hmodule : x.node.module = []) :
    typeParamSite kind start x.site names = o.site := by
  unfold typeParamSite
  unfold typeParamBody? at hbody
  split
  · rename_i hnames
    rw [if_pos hnames] at hbody
    exact (ho.plain hbody hmodule).symm
  · rename_i hnames
    rw [if_neg hnames] at hbody
    exact (ho.body _ hbody).symm

theorem attends_checkInterface {decl : InterfaceDecl} {site : Site} (ho : o.At ⟨.statement (.interface decl), site⟩) :
    Attends o False (Node.statement (.interface decl)).visits (checkInterface decl site) := by
  have hsite : typeParamSite .interface decl.span.start site decl.typeParams = o.site := ho.site_typeParams rfl rfl
  unfold checkInterface
  rw [hsite]
  refine @Attends.andThen _ _ _ (Node.ofTypes decl.bases) (Node.ofMembers decl.members) _ _ ?_ fun _ => ?_
  · rw [Node.ofTypes, List.map_eq_flatMap]
    exact Attends.forM fun base _ => (attends_typeMeaning base).discard
  · exact Attends.forM fun member _ => (attends_typeMeaning? member.type).discard

theorem attends_checkModule {decl : ModuleDecl} {site : Site} (ho : o.At ⟨.statement (.moduleDecl decl), site⟩) :
    Attends o False (Node.statement (.moduleDecl decl)).visits (checkModule decl site) := by
  unfold checkModule
  change Attends o False (Node.ofStatements (decl.body.getD [])) _
  cases decl.body with
  | none => exact .pure _
  | some body =>
    refine attends_bindings fun b hb => ?_
    have hsite := Option.some.inj (ho.module decl rfl b hb)
    dsimp only at hsite ⊢
    rw [hsite]
    exact attends_checkStatements body none

theorem attends_statementRule {s : Statement} {site : Site} (ho : o.At ⟨.statement s, site⟩) (result : Option Ty) :
    Attends o (∃ name ∈ (Node.statement s).looks, o.marked name) (Node.statement s).visits (statementRule s site result) := by
  cases s with
  | function decl => exact .nameless rfl (attends_checkFunction ho)
  | interface decl => exact .nameless rfl (attends_checkInterface ho)
  | typeAlias decl =>
    have hsite : typeParamSite .typeAlias decl.span.start site decl.typeParams = o.site := ho.site_typeParams rfl rfl
    refine .nameless rfl (Attends.discard ?_)
    rw [aliasType, hsite]
    exact attends_typeMeaning decl.type
  | moduleDecl decl => exact .nameless rfl (attends_checkModule ho)
  | block block => exact .nameless rfl (attends_inBody (ho.body _ rfl) (attends_checkStatements block.statements result))
  | importDecl decl => exact .nameless rfl (aside_checkImport decl site.file)
  | importEquals decl => exact .nameless rfl (aside_checkSource site.file decl.source).discard
  | exportDecl decl =>
    obtain rfl := ho.plain rfl rfl
    exact attends_checkExport ho.names
  | variableDecl d =>
    obtain rfl := ho.plain rfl rfl
    exact .nameless rfl (attends_checkVariables d)
  | ifElse branch =>
    obtain rfl := ho.plain rfl rfl
    refine .nameless rfl ((attends_exprType branch.condition none).discard.andThen
      (t := Node.ofStatements (branch.thenBranch :: branch.elseBranch.toList)) fun _ => ?_)
    refine (attends_checkStatement branch.thenBranch result).andThen
      (t := Node.ofStatements branch.elseBranch.toList) fun _ => ?_
    cases branch.elseBranch with
    | none => exact .pure _
    | some other => exact attends_checkStatement other result
  | expression e =>
    obtain rfl := ho.plain rfl rfl
    exact .nameless rfl (attends_exprType e none).discard
  | ret r =>
    obtain rfl := ho.plain rfl rfl
    unfold statementRule
    dsimp only
    refine .nameless rfl ?_
    change Attends o False (Node.ofExprs r.value.toList) _
    cases r.value with
    | none => exact .pure _
    | some value => exact attends_checkAgainst value result _
  | empty | error => exact .nameless rfl (.pure _)

/-! ## All nodes -/

/-- The rule for a node looks up the names of the node and has its parts judged. -/
theorem attends_rule {j : Judgement} (hj : j.looksInto) (ho : o.At j.item) :
    Attends o (∃ name ∈ j.item.node.looks, o.marked name) j.item.node.visits (rule j) := by
  cases j with
  | expr e site expected => exact attends_exprRule ho expected
  | type t site =>
    obtain rfl : o.site = site := ho.plain rfl rfl
    exact attends_typeRule t ho.names
  | statement s site result => exact attends_statementRule ho result
  | returns => exact hj.elim

end

end Recheck.Check
