import Recheck.Proofs.Check.Asking
import Recheck.Proofs.Check.Sizes

/-!
# The questions of the rules

Each rule for a node asks about the parts of the node, which are lower, and about declarations that stand (`fine_rule`). So
does what works out the type of a declaration (`fine_declarationRule`), which starts afresh from the node that is declared.
-/

set_option autoImplicit false

namespace Recheck.Check

open Syntax

/-! ## Parts in lists -/

namespace Node

variable {params : List Param} {param : Param} {decls : List Declarator} {decl : Declarator} {members : List Member}
  {member : Member} {e : Expr} {t : TypeNode}

theorem type_mem_ofParams (hparam : param ∈ params) (ht : param.type = some t) : type t ∈ ofParams params :=
  List.mem_flatMap.mpr ⟨param, hparam, by simp [ht, ofTypes]⟩

theorem default_mem_ofParams (hparam : param ∈ params) (he : param.default = some e) : expr e ∈ ofParams params :=
  List.mem_flatMap.mpr ⟨param, hparam, by simp [he, ofExprs]⟩

theorem type_mem_ofDeclarators (hdecl : decl ∈ decls) (ht : decl.type = some t) : type t ∈ ofDeclarators decls :=
  List.mem_flatMap.mpr ⟨decl, hdecl, by simp [ht, ofTypes]⟩

theorem init_mem_ofDeclarators (hdecl : decl ∈ decls) (he : decl.init = some e) : expr e ∈ ofDeclarators decls :=
  List.mem_flatMap.mpr ⟨decl, hdecl, by simp [he, ofExprs]⟩

theorem type_mem_ofMembers (hmember : member ∈ members) (ht : member.type = some t) : type t ∈ ofMembers members :=
  List.mem_flatMap.mpr ⟨member, hmember, by simp [ht, ofTypes]⟩

theorem type_mem_ofAnnotations (hparam : param ∈ params) (ht : param.type = some t) : type t ∈ ofAnnotations params :=
  List.mem_flatMap.mpr ⟨param, hparam, by simp [ht, ofTypes]⟩

end Node

section

variable {h : Nat} {b : Bindings} {x : Item} {site : Site}

/-! ## Sites inside -/

/-- A body is looked into once it is bound. -/
theorem asks_bodySite (hx : Stands b x) {body : Body} (hbody : x.node.body? x.site.file = some body) :
    Asks h (fun b' inner => x.inside b' = some inner) (bodySite body x.site) b := by
  have hinside {b' : Bindings} (hopen : b'.isOpen body x.site.scope = true) :
      x.inside b' = some { x.site with scope := .inner body x.site.scope 0 } := by
    rw [Item.inside_of_body hbody, if_pos hopen]
  unfold bodySite
  split
  · rename_i hplain
    exact hinside (by simp [Bindings.isOpen, hplain])
  · rename_i hplain
    refine ⟨⟨x, hx, hbody, rfl, by simpa using hplain⟩, fun b' _ _ hopen => ?_⟩
    exact hinside hopen

/-- What goes on in a body. -/
theorem fine_inBody {α : Type} {f : Site → CheckM α} (hb : Valid b) (hx : Stands b x) {body : Body}
    (hbody : x.node.body? x.site.file = some body) (hh : x.node.content.height ≤ h)
    (hf : ∀ b' inner, Working h b' x inner → Later b b' → Fine h (f inner) b') : Fine h (bodySite body x.site >>= f) b :=
  (asks_bodySite hx hbody).bind hb fun b' inner hlater hinner =>
    hf b' inner ⟨hlater.valid, hlater.grows.stands _ hx, hinner, hh⟩ hlater

/-- The scope of type parameters needs no binding. -/
theorem inside_typeParamSite {kind : NodeKind} {start : Nat} {names : List Ident}
    (hbody : x.node.body? x.site.file = typeParamBody? kind x.site.file start names) (hmodule : x.node.module = []) :
    x.inside b = some (typeParamSite kind start x.site names) := by
  unfold typeParamBody? at hbody
  unfold typeParamSite
  split at hbody
  · rename_i hnames
    rw [if_pos hnames]
    exact Item.inside_eq_site hbody hmodule
  · rename_i hnames
    have hopen : b.isOpen ⟨⟨kind, x.site.file, start⟩, names, [], []⟩ x.site.scope = true := rfl
    rw [if_neg hnames, Item.inside_of_body hbody, if_pos hopen]

/-! ## Types -/

section

variable (w : Working h b x site)
include w

theorem fine_typeMeaning? {type : Option TypeNode} (ht : Node.ofTypes type.toList ⊆ x.node.parts) :
    Fine h (type.mapM (typeMeaning · site)) b := by
  refine Asks.optionMapM w.valid fun t hmem => w.typeMeaning (ht ?_)
  rw [Option.mem_def] at hmem
  simp [hmem, Node.ofTypes]

theorem fine_typeMeanings {types : List TypeNode} (ht : Node.ofTypes types ⊆ x.node.parts) :
    Fine h (types.mapM (typeMeaning · site)) b :=
  Asks.mapM w.valid fun _ hmem _ hlater => (w.later hlater).typeMeaning (ht (List.mem_map_of_mem hmem))

theorem fine_addMember {members : List Member} (hm : Node.ofMembers members ⊆ x.node.parts) {member : Member}
    (hmember : member ∈ members) (object : ObjectTy) : Fine h (addMember object member site) b := by
  unfold addMember
  dsimp only
  split
  · rename_i type htype
    refine (w.typeMeaning (hm (Node.type_mem_ofMembers hmember htype))).bind w.valid fun _ _ _ _ => ?_
    split <;> trivial
  · rw [CheckM.pure_bind]
    split <;> trivial

theorem fine_referenceType {name : List Ident} {args : List TypeNode} (ha : Node.ofTypes args ⊆ x.node.parts) :
    Fine h (referenceType name args site) b := by
  unfold referenceType
  refine (fine_typeMeanings w ha).bind w.valid fun b₁ types h₁ _ => ?_
  split
  · trivial
  · rename_i first rest
    refine (asks_lookupType h₁.valid (w.later h₁).standsScope first.name).bind h₁.valid fun b₂ found h₂ hfound => ?_
    split
    · exact (Asks.report _ _).bind h₂.valid fun _ _ _ _ => trivial
    · rename_i symbol
      have hsymbol := hfound symbol rfl
      split
      · exact fine_symbolType h₂.valid hsymbol types
      · refine (asks_resolveTypeSymbol h₂.valid hsymbol).bind h₂.valid fun b₃ target h₃ htarget => ?_
        split
        · rename_i ref
          have href : KnownRef b₃ ref := htarget _ rfl
          refine Asks.bindings.bind h₃.valid ?_
          rintro b₄ _ h₄ rfl
          split
          · rename_i inner hinner
            exact fine_symbolType h₄.valid (h₄.valid.knownType_member (fun c hc => h₄.grows.standsScope (href c hc)) hinner) types
          · trivial
        · trivial

theorem fine_typeofType (name : List Ident) : Fine h (typeofType name site) b := by
  unfold typeofType
  split
  · trivial
  · rename_i first rest
    refine (asks_lookupValue w.valid w.standsScope first.name).bind w.valid fun b' found h' hfound => ?_
    split
    · exact (Asks.report _ _).bind h'.valid fun _ _ _ _ => trivial
    · rename_i symbol
      split
      · exact fine_valueType h'.valid (hfound symbol rfl)
      · trivial

theorem fine_annotatedParam {params : List Param} (hp : Node.ofAnnotations params ⊆ x.node.parts) {param : Param}
    (hparam : param ∈ params) : Fine h (annotatedParam param site) b := by
  unfold annotatedParam
  dsimp only
  split
  · rename_i type htype
    exact (w.typeMeaning (hp (Node.type_mem_ofAnnotations hparam htype))).bind w.valid fun _ _ _ _ => trivial
  · trivial

end

theorem fine_typeRule {node : TypeNode} (hb : Valid b) (hx : Stands b ⟨.type node, site⟩) :
    Fine node.content.height (typeRule node site) b := by
  have w := hb.working hx rfl rfl (Nat.le_refl _)
  change Working node.content.height b _ site at w
  obtain ⟨kind, span⟩ := node
  unfold typeRule
  cases kind with
  | keyword | literal | error => trivial
  | reference name args => exact fine_referenceType w (List.Subset.refl _)
  | union members => exact (fine_typeMeanings w (List.Subset.refl _)).bind hb fun _ _ _ _ => trivial
  | intersection members => exact (fine_typeMeanings w (List.Subset.refl _)).bind hb fun _ _ _ _ => trivial
  | array element => exact (w.typeMeaning List.mem_cons_self).bind hb fun _ _ _ _ => trivial
  | tuple elements => exact (fine_typeMeanings w (List.Subset.refl _)).bind hb fun _ _ _ _ => trivial
  | object members =>
    refine Asks.bind hb (Asks.foldlM hb fun member hmember object b' hlater => ?_) fun _ _ _ _ => trivial
    exact fine_addMember (w.later hlater) (List.Subset.refl _) hmember object
  | function params ret =>
    refine Asks.bind hb (Asks.mapM hb fun param hparam b' hlater => ?_) fun b' _ hlater _ => ?_
    · exact fine_annotatedParam (w.later hlater) (List.subset_append_left _ _) hparam
    · exact ((w.later hlater).typeMeaning (List.mem_append_right _ List.mem_cons_self)).bind hlater.valid fun _ _ _ _ => trivial
  | typeof name => exact fine_typeofType w name

/-! ## Declarations -/

section

variable (w : Working h b x site)
include w

theorem fine_paramType {params : List Param} (hp : Node.ofParams params ⊆ x.node.parts) {param : Param}
    (hparam : param ∈ params) : Fine h (paramType param site) b := by
  unfold paramType
  split
  · rename_i type _ htype
    exact w.typeMeaning (hp (Node.type_mem_ofParams hparam htype))
  · rename_i value _ hvalue
    exact (w.exprType (hp (Node.default_mem_ofParams hparam hvalue)) none).bind w.valid fun _ _ _ _ => trivial
  · trivial

theorem fine_inferReturn {statements : List Statement} (hs : Node.ofStatements statements ⊆ x.node.parts) :
    Fine h (inferReturn statements site) b := by
  unfold inferReturn
  refine Asks.bind w.valid (Asks.mapM w.valid fun s hmem b' hlater => ?_) fun _ _ _ _ => ?_
  · exact (w.later hlater).returnTypes (hs (List.mem_map_of_mem hmem))
  · dsimp only
    split <;> trivial

theorem fine_signature {params : List Param} {returnType : Option TypeNode} {body : Option FunctionBody}
    (hp : Node.ofParams params ⊆ x.node.parts) (ht : Node.ofTypes returnType.toList ⊆ x.node.parts)
    (hs : ∀ body' ∈ body, Node.ofBody body' ⊆ x.node.parts) : Fine h (signature params returnType body site) b := by
  unfold signature
  refine Asks.bind w.valid (Asks.mapM w.valid fun param hparam b' hlater => ?_) fun b' types hlater _ => ?_
  · exact (fine_paramType (w.later hlater) hp hparam).bind hlater.valid fun _ _ _ _ => trivial
  · have w' := w.later hlater
    dsimp only
    split
    · refine (w'.typeMeaning (ht ?_)).bind w'.valid fun _ _ _ _ => trivial
      exact List.mem_cons_self
    · rename_i value
      refine Asks.bind w'.valid ((w'.exprType ?_ none).bind w'.valid fun _ _ _ _ => trivial) fun _ _ _ _ => trivial
      exact hs _ rfl List.mem_cons_self
    · exact (fine_inferReturn w' (hs _ rfl)).bind w'.valid fun _ _ _ _ => trivial
    · trivial

end

theorem fine_returnsRule {s : Statement} (hb : Valid b) (hx : Stands b ⟨.statement s, site⟩) :
    Fine s.content.height (returnsRule s site) b := by
  unfold returnsRule
  split
  · rename_i r
    have w : Working _ b _ site := hb.working hx rfl rfl (Nat.le_refl _)
    split
    · rename_i value hvalue
      refine (w.exprType ?_ none).bind hb fun _ _ _ _ => trivial
      simp [Node.parts, Node.ofStatement, Node.ofExprs, hvalue]
    · trivial
  · rename_i block
    refine fine_inBody hb hx rfl (Nat.le_refl _) fun b' inner w _ => ?_
    refine Asks.bind w.valid (Asks.mapM w.valid fun s hs b'' hlater => ?_) fun _ _ _ _ => trivial
    exact (w.later hlater).returnTypes (List.mem_map_of_mem hs)
  · rename_i branch
    have w : Working _ b _ site := hb.working hx rfl rfl (Nat.le_refl _)
    refine (w.returnTypes (List.mem_cons_of_mem _ List.mem_cons_self)).bind hb fun b' types hlater _ => ?_
    split
    · rename_i other hother
      refine ((w.later hlater).returnTypes ?_).bind hlater.valid fun _ _ _ _ => trivial
      simp [Node.parts, Node.ofStatement, Node.ofStatements, hother]
    · trivial
  · trivial

/-- One declaration of an interface. -/
theorem fine_addDeclaration {scope : ScopeId} {decl : InterfaceDecl × Path} (hb : Valid b)
    (hx : Stands b ⟨.statement (.interface decl.1), ⟨decl.2, scope⟩⟩)
    (hh : (Statement.interface decl.1).content.height ≤ h) (object : ObjectTy) :
    Fine h (addDeclaration scope object decl) b := by
  obtain ⟨decl, file⟩ := decl
  have w : Working h b _ (typeParamSite .interface decl.span.start ⟨file, scope⟩ decl.typeParams) :=
    ⟨hb, hx, inside_typeParamSite rfl rfl, hh⟩
  unfold addDeclaration
  refine Asks.bind hb (Asks.foldlM hb fun base hbase object b' hlater => ?_) fun b' object' hlater _ => ?_
  · exact ((w.later hlater).typeMeaning (List.mem_append_left _ (List.mem_map_of_mem hbase))).bind hlater.valid
      fun _ _ _ _ => trivial
  · refine Asks.foldlM hlater.valid fun member hmember object b'' hlater' => ?_
    exact fine_addMember ((w.later hlater).later hlater') (List.subset_append_right _ _) hmember object

theorem fine_functionDeclType {decl : FunctionDecl} (hb : Valid b) (hx : Stands b ⟨.statement (.function decl), site⟩)
    (hh : (Statement.function decl).content.height ≤ h) : Fine h (functionDeclType decl site) b := by
  unfold functionDeclType
  refine fine_inBody hb hx rfl hh fun b' inner w _ => ?_
  have hstatements : Node.ofStatements ((decl.body.map (·.statements)).getD []) ⊆ Node.ofStatement (.function decl) :=
    fun _ hn => List.mem_append_right _ (List.mem_append_right _ hn)
  refine fine_signature w (List.subset_append_left _ _) ?_ fun body hbody => ?_
  · exact fun _ hn => List.mem_append_right _ (List.mem_append_left _ hn)
  · obtain ⟨block, hblock, rfl⟩ := Option.map_eq_some_iff.mp hbody
    rw [hblock] at hstatements
    exact hstatements

theorem fine_aliasType {decl : TypeAlias} (hb : Valid b) (hx : Stands b ⟨.statement (.typeAlias decl), site⟩)
    (hh : (Statement.typeAlias decl).content.height ≤ h) : Fine h (aliasType decl site) b := by
  have w : Working h b _ (typeParamSite .typeAlias decl.span.start site decl.typeParams) :=
    ⟨hb, hx, inside_typeParamSite rfl rfl, hh⟩
  exact w.typeMeaning List.mem_cons_self

section

variable (hb : Valid b) (hp : b.program.WellRead)
include hb hp

theorem fine_interfaceType {scope : ScopeId} (hscope : StandsScope b scope) (name : String) :
    Fine (nodeBound b.program) (interfaceType name scope) b := by
  unfold interfaceType
  refine Asks.bindings.bind hb ?_
  rintro b' _ hlater rfl
  refine Asks.bind hlater.valid (Asks.foldlM hlater.valid fun decl hdecl object b'' hlater' => ?_) fun _ _ _ _ => trivial
  have hx := hlater.valid.interfaceDecls (hlater.grows.standsScope hscope) hdecl
  have hh := hx.height_lt (hlater.grows.program ▸ hp)
  rw [hlater.grows.program] at hh
  exact fine_addDeclaration hlater'.valid (hlater'.grows.stands _ hx) (Nat.le_of_lt hh) object

theorem fine_variableType {d : VariableStatement} (hx : Stands b ⟨.statement (.variableDecl d), site⟩) {decl : Declarator}
    (hdecl : decl ∈ d.declarators) (kind : VariableKind) : Fine (nodeBound b.program) (variableType decl kind site) b := by
  have w : Working (nodeBound b.program) b _ site := hb.working hx rfl rfl (Nat.le_of_lt (hx.height_lt hp))
  unfold variableType
  split
  · rename_i type _ htype
    exact w.typeMeaning (Node.type_mem_ofDeclarators hdecl htype)
  · trivial
  · rename_i init _ hinit
    refine (w.exprType (Node.init_mem_ofDeclarators hdecl hinit) none).bind hb fun _ _ _ _ => ?_
    split
    · trivial
    · split <;> trivial

/-- How the type of a declaration is worked out. -/
theorem fine_declarationRule {d : Declaration} (hd : Stated b d) : Fine (nodeBound b.program) (declarationRule d) b := by
  obtain ⟨⟨node, outer⟩, hx, hmem⟩ := hd
  have hh := Nat.le_of_lt (hx.height_lt hp)
  cases node with
  | type => exact nomatch hmem
  | expr e =>
    obtain ⟨kind, span⟩ := e
    cases kind with
    | function params returnType body =>
      change d ∈ (Item.inside b _).elim [] _ at hmem
      cases hinside : Item.inside b ⟨.expr ⟨.function params returnType body, span⟩, outer⟩ with
      | none => exact nomatch hinside ▸ hmem
      | some site =>
        have w : Working _ b _ site := ⟨hb, hx, hinside, hh⟩
        rw [hinside] at hmem
        rcases List.mem_cons.mp hmem with rfl | hmem
        · refine fine_signature w (List.subset_append_left _ _) ?_ ?_
          · exact fun _ hn => List.mem_append_right _ (List.mem_append_left _ hn)
          · intro body' hbody
            obtain rfl := Option.mem_some_iff.mp hbody
            exact fun _ hn => List.mem_append_right _ (List.mem_append_right _ hn)
        · obtain ⟨param, hparam, rfl⟩ := List.mem_map.mp hmem
          exact fine_paramType w (List.subset_append_left _ _) hparam
    | _ => exact nomatch hmem
  | statement s =>
    cases s with
    | variableDecl s =>
      obtain ⟨decl, hdecl, rfl⟩ := List.mem_map.mp hmem
      exact fine_variableType hb hp hx hdecl s.kind
    | function decl =>
      rcases List.mem_cons.mp hmem with rfl | hmem
      · exact fine_functionDeclType hb hx hh
      · cases hinside : Item.inside b ⟨.statement (.function decl), outer⟩ with
        | none => exact nomatch hinside ▸ hmem
        | some site =>
          have w : Working _ b _ site := ⟨hb, hx, hinside, hh⟩
          rw [hinside] at hmem
          obtain ⟨param, hparam, rfl⟩ := List.mem_map.mp hmem
          exact fine_paramType w (List.subset_append_left _ _) hparam
    | interface decl =>
      obtain rfl := List.mem_singleton.mp hmem
      exact fine_interfaceType hb hp (hb.standsScope_site hx) _
    | typeAlias decl =>
      obtain rfl := List.mem_singleton.mp hmem
      exact fine_aliasType hb hx hh
    | exportDecl decl =>
      obtain ⟨kind, span⟩ := decl
      have w : Working _ b _ outer := hb.working hx rfl rfl hh
      cases kind with
      | default value | assignment value =>
        obtain rfl := List.mem_singleton.mp hmem
        exact w.exprType List.mem_cons_self none
      | _ => exact nomatch hmem
    | _ => exact nomatch hmem

end

/-! ## Expressions -/

theorem fine_checkAssignable (hb : Valid b) (value : Expr) (source target : Ty) (span : Span) (relationship : Relationship) :
    Fine h (checkAssignable value source target span relationship) b := by
  unfold checkAssignable
  refine Asks.options.bind hb fun _ _ _ _ => ?_
  split
  · exact Asks.report _ _
  · trivial

theorem fine_identType (hb : Valid b) (hscope : StandsScope b site.scope) (name : String) (span : Span) :
    Fine h (identType name span site) b := by
  unfold identType
  refine (asks_lookupValue hb hscope name).bind hb fun b₁ found h₁ hfound => ?_
  split
  · exact fine_valueType h₁.valid (hfound _ rfl)
  · refine Asks.bindings.bind h₁.valid fun b₂ _ h₂ _ => ?_
    split
    · exact (Asks.report _ _).bind h₂.valid fun _ _ _ _ => trivial
    · trivial

theorem fine_propertyType (object : Ty) (property : Ident) (hb : Valid b) : Fine h (propertyType object property) b := by
  unfold propertyType
  dsimp only
  split
  · split
    · trivial
    · exact (Asks.report _ _).bind hb fun _ _ _ _ => trivial
  · trivial

theorem fine_memberOfSymbol (hb : Valid b) {symbol : ValueSymbol} (hsymbol : KnownValue b symbol) (property : Ident) :
    Fine h (memberOfSymbol symbol property) b := by
  unfold memberOfSymbol
  refine (asks_resolveValue hb hsymbol).bind hb fun b₁ found h₁ hfound => ?_
  split
  · refine Asks.bindings.bind h₁.valid ?_
    rintro b₂ _ h₂ rfl
    split
    · rename_i hfound'
      exact fine_valueType h₂.valid (h₂.valid.knownValue_exported (fun c hc => h₂.grows.standsScope (hfound _ rfl c hc)) hfound')
    · trivial
  · refine (fine_valueType h₁.valid (hsymbol.grows h₁.grows)).bind h₁.valid fun _ _ h₂ _ => ?_
    exact fine_propertyType _ _ h₂.valid

section

variable (w : Working h b x site)
include w

theorem fine_memberExprType {object : Expr} (hobject : .expr object ∈ x.node.parts) (property : Ident) :
    Fine h (memberExprType object property site) b := by
  have hproperty {b₁ : Bindings} (h₁ : Later b b₁) : Fine h (do propertyType (← exprType object site none) property) b₁ :=
    ((w.later h₁).exprType hobject none).bind h₁.valid fun _ _ h₂ _ => fine_propertyType _ _ h₂.valid
  unfold memberExprType
  dsimp only
  split
  · refine (asks_lookupValue w.valid w.standsScope _).bind w.valid fun _ found h₁ hfound => ?_
    split
    · exact fine_memberOfSymbol h₁.valid (hfound _ rfl) property
    · exact hproperty h₁
  · rw [CheckM.pure_bind]
    exact hproperty (.refl w.valid)

theorem fine_arrayType {items : List Expr} (hi : Node.ofExprs items ⊆ x.node.parts) (expected : Option Ty) :
    Fine h (arrayType items site expected) b := by
  unfold arrayType
  refine Asks.bind w.valid (Asks.mapM w.valid fun item hitem b' hlater => ?_) fun _ _ _ _ => ?_
  · exact ((w.later hlater).exprType (hi (List.mem_map_of_mem hitem)) _).bind hlater.valid fun _ _ _ _ => trivial
  · split <;> trivial

theorem fine_addProperty (expected : Option Ty) (object : ObjectTy) {p : Property} (hp : .expr p.value ∈ x.node.parts) :
    Fine h (addProperty expected site object p) b := by
  unfold addProperty
  split
  · refine (w.exprType hp none).bind w.valid fun _ _ _ _ => ?_
    split <;> trivial
  · exact (w.exprType hp _).bind w.valid fun _ _ _ _ => trivial

theorem fine_objectLiteralType {properties : List Property} (hp : Node.ofExprs (properties.map (·.value)) ⊆ x.node.parts)
    (expected : Option Ty) : Fine h (objectLiteralType properties site expected) b := by
  unfold objectLiteralType
  refine Asks.bind w.valid (Asks.foldlM w.valid fun p hmem object b' hlater => ?_) fun _ _ _ _ => trivial
  exact fine_addProperty (w.later hlater) expected object (hp (List.mem_map_of_mem (List.mem_map_of_mem hmem)))

theorem fine_discardExpr {e : Expr} (he : .expr e ∈ x.node.parts) (expected : Option Ty) :
    Fine h (discard (exprType e site expected)) b :=
  (w.exprType he expected).discard w.valid

theorem fine_callType (call : Span) {callee : Expr} {args : List Expr} (hp : Node.ofExprs (callee :: args) ⊆ x.node.parts) :
    Fine h (callType call callee args site) b := by
  have harg {arg : Expr} (hmem : arg ∈ args) : .expr arg ∈ x.node.parts :=
    hp (List.mem_map_of_mem (List.mem_cons_of_mem _ hmem))
  unfold callType
  refine (w.exprType (hp List.mem_cons_self) none).bind w.valid fun b₁ type h₁ _ => ?_
  split
  · rename_i f _
    refine Asks.bind (P := fun _ _ => True) h₁.valid ?_ fun b₂ _ h₂ _ => ?_
    · unfold checkArity
      split
      · exact Asks.report _ _
      · trivial
    · refine Asks.bind (P := fun _ _ => True) h₂.valid (Asks.forM h₂.valid fun arg hmem b₃ h₃ => ?_) fun _ _ _ _ => trivial
      have w₃ := ((w.later h₁).later h₂).later h₃
      have he := harg (List.fst_mem_of_mem_zipIdx hmem)
      unfold checkArgument
      dsimp only
      split
      · exact (w₃.exprType he _).bind h₃.valid fun _ _ h₄ _ => fine_checkAssignable h₄.valid _ _ _ _ _
      · exact fine_discardExpr w₃ he _
  · refine Asks.bind (P := fun _ _ => True) h₁.valid (Asks.forM h₁.valid fun arg hmem b₂ h₂ => ?_) fun _ _ _ _ => trivial
    exact fine_discardExpr ((w.later h₁).later h₂) (harg hmem) _

/-! ### Functions -/

theorem fine_checkParam {params : List Param} (hp : Node.ofParams params ⊆ x.node.parts) (contextual : Bool) {param : Param}
    (hparam : param ∈ params) : Fine h (checkParam contextual site param) b := by
  have hrest (b₁ : Bindings) (h₁ : Later b b₁) : Fine h (do
      if untyped? (← options).noImplicitAny contextual param then
        report (.untypedParameter param.name.name) param.name.span) b₁ := by
    refine Asks.options.bind h₁.valid fun _ _ _ _ => ?_
    split
    · exact Asks.report _ _
    · trivial
  unfold checkParam
  refine (Asks.optionMapM w.valid fun type htype => w.typeMeaning ?_).bind w.valid fun b₁ declared h₁ _ => ?_
  · exact hp (Node.type_mem_ofParams hparam (Option.mem_def.mp htype))
  · dsimp only
    split
    · rename_i value hvalue
      refine ((w.later h₁).exprType (hp (Node.default_mem_ofParams hparam hvalue)) _).bind h₁.valid fun b₂ _ h₂ _ => ?_
      split
      · refine (fine_checkAssignable h₂.valid _ _ _ _ _).bind h₂.valid fun b₃ _ h₃ _ => ?_
        exact hrest b₃ ((h₁.trans h₂).trans h₃)
      · exact hrest b₂ (h₁.trans h₂)
    · exact hrest b₁ h₁

theorem fine_checkParams {params : List Param} (hp : Node.ofParams params ⊆ x.node.parts) (contextual : Bool) :
    Fine h (checkParams params contextual site) b :=
  Asks.forM w.valid fun _ hparam _ hlater => fine_checkParam (w.later hlater) hp contextual hparam

theorem fine_checkAgainst {value : Expr} (hvalue : .expr value ∈ x.node.parts) (declared : Option Ty) (span : Span) :
    Fine h (checkAgainst value declared site span) b := by
  unfold checkAgainst
  refine (w.exprType hvalue declared).bind w.valid fun b₁ _ h₁ _ => ?_
  split
  · exact fine_checkAssignable h₁.valid _ _ _ _ _
  · trivial

theorem fine_checkStatements {statements : List Statement} (hs : Node.ofStatements statements ⊆ x.node.parts)
    (result : Option Ty) : Fine h (statements.forM (checkStatement · site result)) b :=
  Asks.forM w.valid fun _ hmem _ hlater => (w.later hlater).checkStatement (hs (List.mem_map_of_mem hmem)) result

theorem fine_checkFunctionExpr {params : List Param} {returnType : Option TypeNode} {body : FunctionBody}
    (hp : Node.ofParams params ++ (Node.ofTypes returnType.toList ++ Node.ofBody body) ⊆ x.node.parts) (contextual : Bool) :
    Fine h (checkFunctionExpr params returnType body contextual site) b := by
  obtain ⟨hparams, htypes, hbody⟩ : _ ∧ _ ∧ _ := by simpa only [List.append_subset] using hp
  unfold checkFunctionExpr
  refine (fine_checkParams w hparams contextual).bind w.valid fun b₁ _ h₁ _ => ?_
  have w₁ := w.later h₁
  refine (fine_typeMeaning? w₁ htypes).bind w₁.valid fun b₂ declared h₂ _ => ?_
  split
  · exact fine_checkStatements (w₁.later h₂) hbody declared
  · exact fine_checkAgainst (w₁.later h₂) (hbody List.mem_cons_self) declared _

end

theorem fine_functionExprType {params : List Param} {returnType : Option TypeNode} {body : FunctionBody} {span : Span}
    (hb : Valid b) (hx : Stands b ⟨.expr ⟨.function params returnType body, span⟩, site⟩)
    (hh : (Node.expr ⟨.function params returnType body, span⟩).content.height ≤ h) (expected : Option Ty) :
    Fine h (functionExprType span.start params returnType body site expected) b := by
  unfold functionExprType
  refine fine_inBody hb hx rfl hh fun b₁ inner w h₁ => ?_
  have hdeclared {b₂ : Bindings} (h₂ : Later b₁ b₂) : Stated b₂ (.functionExpr params returnType body inner) := by
    refine h₂.grows.stated ⟨_, w.stands, ?_⟩
    rw [Item.declarations, w.inside]
    exact List.mem_cons_self
  refine Asks.isQuiet.bind w.valid fun b₂ quiet h₂ _ => ?_
  dsimp only
  split
  · exact Asks.declared (hdeclared h₂)
  · refine (fine_checkFunctionExpr (w.later h₂) (List.Subset.refl _) _).bind h₂.valid fun b₃ _ h₃ _ => ?_
    exact Asks.declared (hdeclared (h₂.trans h₃))

/-- How the type of an expression is worked out. -/
theorem fine_exprRule {e : Expr} (hb : Valid b) (hx : Stands b ⟨.expr e, site⟩) (expected : Option Ty) :
    Fine e.content.height (exprRule e site expected) b := by
  obtain ⟨kind, span⟩ := e
  unfold exprRule
  by_cases hfunction : ∃ params returnType body, kind = .function params returnType body
  · obtain ⟨params, returnType, body, rfl⟩ := hfunction
    exact fine_functionExprType hb hx (Nat.le_refl _) expected
  have hbody : (Node.expr ⟨kind, span⟩).body? site.file = none := by
    cases kind with
    | function params returnType body => exact absurd ⟨params, returnType, body, rfl⟩ hfunction
    | _ => rfl
  have w : Working (Expr.mk kind span).content.height b _ site := hb.working hx hbody rfl (Nat.le_refl _)
  cases kind with
  | ident name => exact fine_identType hb w.standsScope name span
  | string | template | number | bool | null | this | error => trivial
  | object properties => exact fine_objectLiteralType w (List.Subset.refl _) expected
  | array items => exact fine_arrayType w (List.Subset.refl _) expected
  | member object property => exact fine_memberExprType w List.mem_cons_self property
  | index object index =>
    refine (w.exprType List.mem_cons_self none).bind hb fun b₁ _ h₁ _ => ?_
    refine (fine_discardExpr (w.later h₁) ?_ none).bind h₁.valid fun _ _ _ _ => trivial
    exact List.mem_cons_of_mem _ List.mem_cons_self
  | call callee args => exact fine_callType w span (List.Subset.refl _)
  | new callee args =>
    refine (fine_discardExpr w List.mem_cons_self none).bind hb fun b₁ _ h₁ _ => ?_
    refine Asks.bind (P := fun _ _ => True) h₁.valid (Asks.forM h₁.valid fun arg hmem b₂ h₂ => ?_) fun _ _ _ _ => trivial
    exact fine_discardExpr ((w.later h₁).later h₂) (List.mem_cons_of_mem _ (List.mem_map_of_mem hmem)) _
  | assign target value plain =>
    refine (w.exprType List.mem_cons_self none).bind hb fun b₁ _ h₁ _ => ?_
    refine ((w.later h₁).exprType (List.mem_cons_of_mem _ List.mem_cons_self) _).bind h₁.valid fun b₂ _ h₂ _ => ?_
    split
    · exact (fine_checkAssignable h₂.valid _ _ _ _ _).bind h₂.valid fun _ _ _ _ => trivial
    · trivial
  | binary op left right =>
    refine (w.exprType List.mem_cons_self none).bind hb fun b₁ _ h₁ _ => ?_
    refine ((w.later h₁).exprType (List.mem_cons_of_mem _ List.mem_cons_self) _).bind h₁.valid fun _ _ _ _ => trivial
  | unary op operand => exact (fine_discardExpr w List.mem_cons_self none).bind hb fun _ _ _ _ => trivial
  | conditional condition thenValue elseValue =>
    refine (fine_discardExpr w List.mem_cons_self none).bind hb fun b₁ _ h₁ _ => ?_
    have w₁ := w.later h₁
    refine (w₁.exprType (List.mem_cons_of_mem _ List.mem_cons_self) _).bind h₁.valid fun b₂ _ h₂ _ => ?_
    refine ((w₁.later h₂).exprType ?_ _).bind h₂.valid fun _ _ _ _ => trivial
    exact List.mem_cons_of_mem _ (List.mem_cons_of_mem _ List.mem_cons_self)
  | function params returnType body => exact absurd ⟨params, returnType, body, rfl⟩ hfunction
  | cast value type =>
    refine (fine_discardExpr w List.mem_cons_self none).bind hb fun b₁ _ h₁ _ => ?_
    exact (w.later h₁).typeMeaning (List.mem_cons_of_mem _ List.mem_cons_self)

/-! ## Statements -/

theorem fine_checkSource (hb : Valid b) (file : Path) (source : StringLiteral) : Fine h (checkSource file source) b := by
  unfold checkSource
  refine Asks.bindings.bind hb fun b₁ _ h₁ _ => ?_
  dsimp only
  split
  · exact (Asks.report _ _).bind h₁.valid fun _ _ _ _ => trivial
  · trivial

theorem fine_checkExported (hb : Valid b) (ref : ModuleRef) (source : StringLiteral) (name : Ident) :
    Fine h (checkExported ref source name) b := by
  unfold checkExported
  refine Asks.bindings.bind hb fun _ _ _ _ => ?_
  split
  · exact Asks.report _ _
  · trivial

theorem fine_checkImport (hb : Valid b) (decl : ImportDecl) (file : Path) : Fine h (checkImport decl file) b := by
  unfold checkImport
  refine (fine_checkSource hb file decl.source).bind hb fun b₁ ref h₁ _ => ?_
  exact Asks.forM h₁.valid fun _ _ _ h₂ => fine_checkExported h₂.valid ref decl.source _

theorem fine_checkLocalExport (hb : Valid b) (hscope : StandsScope b site.scope) (name : Ident) :
    Fine h (checkLocalExport site name) b := by
  unfold checkLocalExport
  refine (asks_lookupValue hb hscope _).bind hb fun b₁ _ h₁ _ => ?_
  refine (asks_lookupType h₁.valid (h₁.grows.standsScope hscope) _).bind h₁.valid fun _ _ _ _ => ?_
  split
  · exact Asks.report _ _
  · trivial

theorem fine_isTypeName (hb : Valid b) (hscope : StandsScope b site.scope) (e : Expr) : Fine h (isTypeName e site) b := by
  unfold isTypeName
  split
  · refine (asks_lookupValue hb hscope _).bind hb fun b₁ _ h₁ _ => ?_
    split
    · exact (asks_lookupType h₁.valid (h₁.grows.standsScope hscope) _).bind h₁.valid fun _ _ _ _ => trivial
    · trivial
  · trivial

section

variable (w : Working h b x site)
include w

theorem fine_checkExportedExpr {e : Expr} (he : .expr e ∈ x.node.parts) : Fine h (checkExportedExpr e site) b := by
  unfold checkExportedExpr
  refine (fine_isTypeName w.valid w.standsScope e).bind w.valid fun b₁ _ h₁ _ => ?_
  split
  · trivial
  · exact fine_discardExpr (w.later h₁) he none

theorem fine_checkExport {decl : ExportDecl} (hd : Node.ofExport decl.kind ⊆ x.node.parts) : Fine h (checkExport decl site) b := by
  unfold checkExport
  split
  · rename_i specifiers source _
    refine (fine_checkSource w.valid _ source).bind w.valid fun b₁ ref h₁ _ => ?_
    exact Asks.forM h₁.valid fun _ _ _ h₂ => fine_checkExported h₂.valid ref source _
  · exact Asks.forM w.valid fun _ _ _ h₁ => fine_checkLocalExport h₁.valid (w.later h₁).standsScope _
  · exact (fine_checkSource w.valid _ _).discard w.valid
  · rename_i e hkind
    exact fine_checkExportedExpr w (hd (hkind ▸ List.mem_cons_self))
  · rename_i e hkind
    exact fine_checkExportedExpr w (hd (hkind ▸ List.mem_cons_self))

theorem fine_checkDeclarator (ambient : Bool) {decls : List Declarator} (hd : Node.ofDeclarators decls ⊆ x.node.parts)
    {decl : Declarator} (hdecl : decl ∈ decls) : Fine h (checkDeclarator ambient site decl) b := by
  have typed {next : Option Ty → CheckM Unit} (hnext : ∀ b₁, Later b b₁ → ∀ declared, Fine h (next declared) b₁) {b₁ : Bindings}
      (h₁ : Later b b₁) : Fine h (decl.type.mapM (typeMeaning · site) >>= next) b₁ := by
    have w₁ := w.later h₁
    refine (Asks.optionMapM w₁.valid fun type htype => w₁.typeMeaning ?_).bind w₁.valid fun b₂ declared h₂ _ =>
      hnext b₂ (h₁.trans h₂) declared
    exact hd (Node.type_mem_ofDeclarators hdecl (Option.mem_def.mp htype))
  have untyped (b₁ : Bindings) (h₁ : Later b b₁) (declared : Option Ty) : Fine h (do
      if declared.isNone && ambient && (← options).noImplicitAny then
        report (.untypedVariable decl.name.name) decl.name.span) b₁ := by
    refine Asks.options.bind h₁.valid fun _ _ _ _ => ?_
    split
    · exact Asks.report _ _
    · trivial
  have hrest {b₁ : Bindings} (h₁ : Later b b₁) {next : Option Ty → CheckM Unit}
      (hnext : ∀ b₁, Later b b₁ → ∀ declared, Fine h (next declared) b₁) {redeclared : Bool} :
      Fine h (do
        if redeclared then report (.redeclared decl.name.name) decl.name.span
        next (← decl.type.mapM (typeMeaning · site))) b₁ := by
    split
    · exact (Asks.report _ _).bind h₁.valid fun b₂ _ h₂ _ => typed hnext (h₁.trans h₂)
    · exact typed hnext h₁
  unfold checkDeclarator
  refine Asks.bindings.bind w.valid fun b₁ _ h₁ _ => ?_
  cases hinit : decl.init with
  | none => exact hrest h₁ untyped
  | some init =>
    exact hrest h₁ fun b₂ h₂ declared => fine_checkAgainst (w.later h₂) (hd (Node.init_mem_ofDeclarators hdecl hinit)) _ _

theorem fine_checkVariables {d : VariableStatement} (hd : Node.ofDeclarators d.declarators ⊆ x.node.parts) :
    Fine h (checkVariables d site) b :=
  Asks.forM w.valid fun _ hdecl _ hlater => fine_checkDeclarator (w.later hlater) _ hd hdecl

theorem fine_discardType {t : TypeNode} (ht : .type t ∈ x.node.parts) : Fine h (discard (typeMeaning t site)) b :=
  (w.typeMeaning ht).discard w.valid

end

theorem fine_checkFunction {decl : FunctionDecl} (hb : Valid b) (hx : Stands b ⟨.statement (.function decl), site⟩)
    (hh : (Statement.function decl).content.height ≤ h) : Fine h (checkFunction decl site) b := by
  unfold checkFunction
  refine fine_inBody hb hx rfl hh fun b₁ inner w h₁ => ?_
  refine (fine_checkParams w (List.subset_append_left _ _) false).bind w.valid fun b₂ _ h₂ _ => ?_
  have w₂ := w.later h₂
  refine (fine_typeMeaning? w₂ ?_).bind w₂.valid fun b₃ declared h₃ _ => ?_
  · exact fun _ hn => List.mem_append_right _ (List.mem_append_left _ hn)
  · split
    · rename_i body hbody
      refine fine_checkStatements (w₂.later h₃) (fun _ hn => List.mem_append_right _ (List.mem_append_right _ ?_)) declared
      rwa [hbody]
    · trivial

theorem fine_checkInterface {decl : InterfaceDecl} (hb : Valid b) (hx : Stands b ⟨.statement (.interface decl), site⟩)
    (hh : (Statement.interface decl).content.height ≤ h) : Fine h (checkInterface decl site) b := by
  have w : Working h b _ (typeParamSite .interface decl.span.start site decl.typeParams) :=
    ⟨hb, hx, inside_typeParamSite rfl rfl, hh⟩
  unfold checkInterface
  refine Asks.bind hb (P := fun _ _ => True) (Asks.forM hb fun base hbase b' hlater => ?_) fun b₁ _ h₁ _ => ?_
  · exact fine_discardType (w.later hlater) (List.mem_append_left _ (List.mem_map_of_mem hbase))
  · refine Asks.forM h₁.valid fun member hmember b₂ h₂ => Asks.discard h₂.valid ?_
    refine Asks.optionMapM h₂.valid fun type htype => ((w.later h₁).later h₂).typeMeaning ?_
    exact List.mem_append_right _ (Node.type_mem_ofMembers hmember (Option.mem_def.mp htype))

theorem fine_checkModule {decl : ModuleDecl} (hb : Valid b) (hx : Stands b ⟨.statement (.moduleDecl decl), site⟩)
    (hh : (Statement.moduleDecl decl).content.height ≤ h) : Fine h (checkModule decl site) b := by
  unfold checkModule
  split
  · rename_i body hbody
    refine Asks.bindings.bind hb ?_
    rintro b' _ hlater rfl
    refine fine_checkStatements (x := ⟨.statement (.moduleDecl decl), site⟩) ⟨hlater.valid, hlater.grows.stands _ hx, rfl, hh⟩ ?_ _
    change _ ⊆ Node.ofStatements (decl.body.getD [])
    rw [hbody]
    exact List.Subset.refl _
  · trivial

/-- How a statement is checked. -/
theorem fine_statementRule {s : Statement} (hb : Valid b) (hx : Stands b ⟨.statement s, site⟩) (result : Option Ty) :
    Fine s.content.height (statementRule s site result) b := by
  cases s with
  | function decl => exact fine_checkFunction hb hx (Nat.le_refl _)
  | interface decl => exact fine_checkInterface hb hx (Nat.le_refl _)
  | typeAlias decl => exact (fine_aliasType hb hx (Nat.le_refl _)).discard hb
  | moduleDecl decl => exact fine_checkModule hb hx (Nat.le_refl _)
  | block block =>
    exact fine_inBody hb hx rfl (Nat.le_refl _) fun _ _ w _ => fine_checkStatements w (List.Subset.refl _) result
  | importDecl decl => exact fine_checkImport hb decl site.file
  | importEquals decl => exact (fine_checkSource hb _ _).discard hb
  | exportDecl decl => exact fine_checkExport (hb.working hx rfl rfl (Nat.le_refl _)) (List.Subset.refl _)
  | variableDecl d => exact fine_checkVariables (hb.working hx rfl rfl (Nat.le_refl _)) (List.Subset.refl _)
  | ifElse branch =>
    have w : Working _ b _ site := hb.working hx rfl rfl (Nat.le_refl _)
    refine (fine_discardExpr w List.mem_cons_self none).bind hb fun b₁ _ h₁ _ => ?_
    have w₁ := w.later h₁
    refine (w₁.checkStatement (List.mem_cons_of_mem _ List.mem_cons_self) result).bind h₁.valid fun b₂ _ h₂ _ => ?_
    split
    · rename_i other hother
      refine (w₁.later h₂).checkStatement ?_ result
      simp [Node.parts, Node.ofStatement, Node.ofStatements, hother]
    · trivial
  | expression e => exact fine_discardExpr (hb.working hx rfl rfl (Nat.le_refl _)) List.mem_cons_self none
  | ret r =>
    have w : Working _ b _ site := hb.working hx rfl rfl (Nat.le_refl _)
    unfold statementRule
    dsimp only
    split
    · rename_i value hvalue
      refine fine_checkAgainst w ?_ result _
      simp [Node.parts, Node.ofStatement, Node.ofExprs, hvalue]
    · trivial
  | empty | error => trivial

/-- The rule for a node asks about its parts, and about declarations that stand. -/
theorem fine_rule (j : Judgement) (hb : Valid b) (hx : Stands b j.item) : Fine j.item.node.content.height (rule j) b := by
  cases j with
  | expr e site expected => exact fine_exprRule hb hx expected
  | type t site => exact fine_typeRule hb hx
  | statement s site result => exact fine_statementRule hb hx result
  | returns s site => exact fine_returnsRule hb hx

end

end Recheck.Check
