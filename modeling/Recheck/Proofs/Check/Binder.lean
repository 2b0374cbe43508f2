import Recheck.Proofs.Check.Binding

/-!
# Steps of the binder

Each function of the binder keeps bindings within their rights, if what it is given to bind is (`Binds`). What it copies from
one scope to another was granted there.
-/

set_option autoImplicit false

namespace Recheck.Check

open Syntax

variable {R : Rights} {K : NodeKey → Prop} {b b' : Bindings} {id : ScopeId}

namespace Rights

theorem Outer.congr {s s' : Scope} (h : Outer id s) (hparent : s'.parent = s.parent)
    (hvalues : s.values.contains "import" = true → s'.values.contains "import" = true) : Outer id s' := by
  unfold Outer at h ⊢
  split at h
  · exact ⟨hparent.trans h.1, hvalues h.2⟩
  · exact hparent.trans h
  · rw [hparent]
    exact h

theorem Ref.congr {id' : ScopeId} (hid : id.home = id'.home) {ref : ModuleRef} (h : Ref b id ref) : Ref b id' ref :=
  fun c hc => ⟨(h c hc).1.trans hid, (h c hc).2⟩

theorem ref_container {c : ScopeId} (hc : c.home = id.home) (hhas : b.Has c) : Ref b id (.container c) := by
  intro c' heq
  obtain rfl := ModuleRef.container.inj heq
  exact ⟨hc, hhas⟩

theorem GrantsValue.congr {id' : ScopeId} (hid : id.home = id'.home) {symbol : ValueSymbol}
    (h : R.GrantsValue b id symbol) : R.GrantsValue b id' symbol := by
  cases symbol with
  | ofModule ref => exact Ref.congr hid h
  | _ => exact h

theorem GrantsType.congr {id' : ScopeId} (hid : id.home = id'.home) {symbol : TypeSymbol}
    (h : R.GrantsType b id symbol) : R.GrantsType b id' symbol := by
  cases symbol with
  | ofModule ref => exact Ref.congr hid h
  | _ => exact h

/-- A place where statements may be bound. -/
structure Governs (R : Rights) (b : Bindings) (p : Bindings.Place) : Prop where
  scope : R.scope p.scope
  has : b.Has p.scope
  container : ∀ c, p.container = some c → c.home = p.scope.home ∧ b.Has c

theorem Governs.mono {R' : Rights} {p : Bindings.Place} (h : R.Governs b p) (hb : Binds R' K b b') : R.Governs b' p :=
  ⟨h.scope, hb.has _ h.has, fun c hc => ⟨(h.container c hc).1, hb.has c (h.container c hc).2⟩⟩

/-- What the statements of a place export, as far as that is known. -/
theorem Governs.ref {p : Bindings.Place} (h : R.Governs b p) :
    Ref b p.scope ((p.container.map ModuleRef.container).getD .untyped) := by
  intro c hc
  cases hcontainer : p.container with
  | none =>
    rw [hcontainer] at hc
    exact nomatch hc
  | some inner =>
    rw [hcontainer] at hc
    obtain rfl := ModuleRef.container.inj hc
    exact h.container inner hcontainer

end Rights

/-! ## Changes of a table -/

namespace Bound

theorem modifyScope (h : Bound R b) (hid : R.scope id) {f : Scope → Scope}
    (hf : ∀ s, b.scopeIn? id = some s → R.Holds b id s → R.Holds b id (f s)) :
    Binds R K b (b.modifyScope id f) := by
  have has (c : ScopeId) (hc : b.Has c) : (b.modifyScope id f).Has c := by
    rw [Bindings.Has, Bindings.scopeIn?_modifyScope]
    split
    · rw [Option.isSome_map]
      exact hc
    · exact hc
  have mono {c : ScopeId} {s : Scope} (hs : R.Holds b c s) : R.Holds (b.modifyScope id f) c s :=
    hs.mono has (fun _ h => h) fun _ _ h => h
  refine ⟨⟨fun c s hc hs => ?_, fun c key inner hc hinner => ?_⟩, ?_, fun c hc => ?_, fun _ _ _ => ?_, has, fun x hx => ?_⟩
  · rw [Bindings.scopeIn?_modifyScope] at hs
    split at hs
    · rename_i heq
      obtain ⟨s, hscope, rfl⟩ := Option.map_eq_some_iff.mp hs
      rw [heq] at hscope ⊢
      exact mono (hf s hscope (h.scope id s hid hscope))
    · exact mono (h.scope c s hc hs)
  · rw [Bindings.moduleIn?_modifyScope] at hinner
    have := h.module c key inner hc hinner
    exact ⟨this.1, has _ this.2⟩
  · cases id <;> rfl
  · rw [Bindings.tableOf_modifyScope, if_neg]
    exact fun hhome => hc (R.home _ _ hhome.symm hid)
  · exact Bindings.moduleIn?_modifyScope
  · cases id <;> exact .inl hx

/-- A note about the variables of a table. -/
theorem redeclare (h : Bound R b) (hid : R.scope id) (hhas : b.Has id) (f : List NodeKey → List NodeKey) :
    Binds R K b (b.modifyTable id fun t => { t with redeclared := f t.redeclared }) := by
  have htable (c : ScopeId) := @Bindings.tableOf_modifyTable b id c
    (f := fun t => { t with redeclared := f t.redeclared }) (.inl hhas)
  have hscope (c : ScopeId) : (b.modifyTable id fun t => { t with redeclared := f t.redeclared }).scopeIn? c =
      b.scopeIn? c := by
    unfold Bindings.scopeIn?
    rw [htable]
    split <;> rfl
  have hmodule (c : ScopeId) (key : NodeKey) :
      (b.modifyTable id fun t => { t with redeclared := f t.redeclared }).moduleIn? c key = b.moduleIn? c key := by
    unfold Bindings.moduleIn?
    rw [htable]
    split <;> rfl
  have has (c : ScopeId) (hc : b.Has c) : (b.modifyTable id fun t => { t with redeclared := f t.redeclared }).Has c := by
    rw [Bindings.Has, hscope]
    exact hc
  refine ⟨⟨fun c s hc hs => ?_, fun c key inner hc hinner => ?_⟩, ?_, fun c hc => ?_, fun c key _ => hmodule c key, has,
    fun x hx => ?_⟩
  · rw [hscope] at hs
    exact (h.scope c s hc hs).mono has (fun _ h => h) fun _ _ h => h
  · rw [hmodule] at hinner
    have := h.module c key inner hc hinner
    exact ⟨this.1, has _ this.2⟩
  · cases id <;> rfl
  · rw [htable, if_neg]
    exact fun hhome => hc (R.home _ _ hhome.symm hid)
  · cases id <;> exact .inl hx

theorem newScope (h : Bound R b) (hid : R.scope id) (hhas : b.Has id) :
    Binds R K b (b.newScope id).2 ∧ (b.newScope id).1.home = id.home ∧ (b.newScope id).2.Has (b.newScope id).1 := by
  have hnew : (b.newScope id).1.home = id.home := id.home_beside _
  have has (c : ScopeId) (hc : b.Has c) : (b.newScope id).2.Has c := by
    rw [Bindings.Has, Bindings.scopeIn?_newScope hhas]
    split
    · rfl
    · exact hc
  refine ⟨⟨⟨fun c s hc hs => ?_, fun c key inner hc hinner => ?_⟩, ?_, fun c hc => ?_, fun c key _ => ?_, has,
    fun x hx => ?_⟩, hnew, ?_⟩
  · rw [Bindings.scopeIn?_newScope hhas] at hs
    split at hs
    · rename_i heq
      obtain rfl := Option.some.inj hs
      have hindex : id.index < c.index := by
        rw [heq, show (b.newScope id).1.index = (b.tableOf id).scopes.size from id.index_beside _]
        exact (Array.getElem?_eq_some_iff.mp (Option.isSome_iff_exists.mp hhas).choose_spec).1
      refine .inside ?_
      have hbeside : id = c.beside id.index := ScopeId.eq_beside_of_home (hnew.symm.trans (congrArg ScopeId.home heq.symm))
      unfold Rights.Outer
      split
      · exact absurd hindex (Nat.not_lt_zero _)
      · exact absurd hindex (Nat.not_lt_zero _)
      · exact ⟨id.index, hindex, congrArg some hbeside⟩
    · exact (h.scope c s hc hs).mono has (fun _ h => h) fun _ _ h => h
  · rw [Bindings.moduleIn?_newScope hhas] at hinner
    have := h.module c key inner hc hinner
    exact ⟨this.1, has _ this.2⟩
  · cases id <;> rfl
  · rw [Bindings.tableOf_newScope hhas, if_neg]
    exact fun hhome => hc (R.home _ _ hhome.symm hid)
  · exact Bindings.moduleIn?_newScope hhas
  · cases id <;> exact .inl hx
  · rw [Bindings.Has, Bindings.scopeIn?_newScope hhas, if_pos rfl]
    rfl

theorem setModuleScope (h : Bound R b) (hid : R.scope id) (hhas : b.Has id) {key : NodeKey} (hkey : K key)
    {inner : ScopeId} (hinner : (inner.home = id.home ∨ inner = globalScope) ∧ b.Has inner) :
    Binds R K b (b.setModuleScope id key inner) := by
  have has (c : ScopeId) (hc : b.Has c) : (b.setModuleScope id key inner).Has c := by
    rw [Bindings.Has, Bindings.scopeIn?_setModuleScope hhas]
    exact hc
  refine ⟨⟨fun c s hc hs => ?_, fun c key' inner' hc hinner' => ?_⟩, ?_, fun c hc => ?_, fun c key' hkey' => ?_, has,
    fun x hx => ?_⟩
  · rw [Bindings.scopeIn?_setModuleScope hhas] at hs
    exact (h.scope c s hc hs).mono has (fun _ h => h) fun _ _ h => h
  · rw [Bindings.moduleIn?_setModuleScope hhas] at hinner'
    split at hinner'
    · rename_i heq
      obtain rfl := Option.some.inj hinner'
      exact ⟨hinner.1.imp_left fun h => h.trans heq.1.symm, has _ hinner.2⟩
    · have := h.module c key' inner' hc hinner'
      exact ⟨this.1, has _ this.2⟩
  · cases id <;> rfl
  · rw [Bindings.tableOf_setModuleScope hhas, if_neg]
    exact fun hhome => hc (R.home _ _ hhome.symm hid)
  · rw [Bindings.moduleIn?_setModuleScope hhas, if_neg]
    exact fun heq => hkey' (heq.2 ▸ hkey)
  · cases id <;> exact .inl hx

theorem addAmbient (h : Bound R b) {ref : ModuleRef} (hid : R.scope id) (href : Rights.Ref b id ref) (name : ModuleName) :
    Binds R K b (Bindings.addAmbient name ref b) := by
  unfold Bindings.addAmbient
  split
  · rename_i specifier
    have hbound : Bound R { b with ambientModules := b.ambientModules ++ [(specifier.value, ref)] } :=
      h.of_tables fun id => by cases id <;> rfl
    refine ⟨hbound, rfl, fun _ _ => rfl, fun _ _ _ => rfl, fun _ h => h, fun x hx => ?_⟩
    rcases List.mem_append.mp hx with hx | hx
    · exact .inl hx
    · obtain rfl := List.mem_singleton.mp hx
      exact .inr ⟨id, hid, href⟩
  · exact h.refl

/-! ## Entries of a scope -/

section

variable {name : String} {value : ValueSymbol} {type : TypeSymbol}

theorem contains_insert {values : Dict String ValueSymbol} {key : String} (h : values.contains key = true) :
    (values.insert name value).contains key = true := by
  rw [Dict.contains, Dict.get?_insert]
  split
  · rfl
  · exact h

theorem putValue (h : Bound R b) (hid : R.scope id) (hs : R.GrantsValue b id value) :
    Binds R K b (b.putValue id name value) := by
  refine h.modifyScope hid fun s _ hold => { hold with outer := hold.outer.congr rfl contains_insert, values := ?_ }
  intro other symbol hsymbol
  rw [Dict.get?_insert] at hsymbol
  split at hsymbol
  · exact Option.some.inj hsymbol ▸ hs
  · exact hold.values other symbol hsymbol

theorem putType (h : Bound R b) (hid : R.scope id) (hs : R.GrantsType b id type) :
    Binds R K b (b.putType id name type) := by
  refine h.modifyScope hid fun s _ hold => { hold with outer := hold.outer.congr rfl fun h => h, types := ?_ }
  intro other symbol hsymbol
  rw [Dict.get?_insert] at hsymbol
  split at hsymbol
  · exact Option.some.inj hsymbol ▸ hs
  · exact hold.types other symbol hsymbol

theorem modifyExports (h : Bound R b) (hid : R.scope id) {f : Exports → Exports}
    (hf : ∀ e, R.Offers b id e → R.Offers b id (f e)) : Binds R K b (b.modifyExports id f) :=
  h.modifyScope hid fun s _ hold => { hold with outer := hold.outer.congr rfl fun h => h, exports := hf s.exports hold.exports }

theorem valueIn? (h : Bound R b) (hid : R.scope id) (hs : b.valueIn? id name = some value) : R.GrantsValue b id value := by
  obtain ⟨s, hscope, hvalue⟩ := Option.bind_eq_some_iff.mp hs
  exact (h.scope id s hid hscope).values name value hvalue

theorem typeIn? (h : Bound R b) (hid : R.scope id) (hs : b.typeIn? id name = some type) : R.GrantsType b id type := by
  obtain ⟨s, hscope, htype⟩ := Option.bind_eq_some_iff.mp hs
  exact (h.scope id s hid hscope).types name type htype

theorem declareValue (h : Bound R b) (hid : R.scope id) (hs : R.GrantsValue b id value) :
    Binds R K b (b.declareValue id name value) := by
  unfold Bindings.declareValue
  split
  · exact h.putValue hid hs
  · rename_i existing hexisting
    have hhas : b.Has id := by
      obtain ⟨s, hscope, -⟩ := Option.bind_eq_some_iff.mp hexisting
      exact Option.isSome_iff_exists.mpr ⟨s, hscope⟩
    split
    · split
      · exact h.redeclare hid hhas (_ :: _ :: ·)
      · exact h.refl
    · exact h.refl

theorem declareImport (h : Bound R b) (hid : R.scope id) (binding : ImportBinding) :
    Binds R K b (b.declareImport id binding) := by
  unfold Bindings.declareImport
  split
  · rename_i name _
    have first : Binds R K b (b.putValue id name.name (.imported binding)) := h.putValue hid trivial
    exact first.trans (first.bound.putType hid trivial)
  · exact h.refl

theorem declareInterface (h : Bound R b) {site : Site} (hid : R.scope site.scope) {decl : InterfaceDecl}
    (hd : R.declaration (.interface decl.name.name site.scope)) (hi : R.interface decl site) :
    Binds R K b (b.declareInterface site decl) := by
  refine h.modifyScope hid fun s _ hold => { hold with outer := hold.outer.congr rfl fun h => h, types := ?_, interfaces := ?_ }
  · intro other symbol hsymbol
    rw [Dict.get?_insertNew] at hsymbol
    split at hsymbol
    · obtain rfl := Option.some.inj hsymbol
      cases hold' : s.types.get? other with
      | none => exact hd
      | some symbol => exact hold.types other symbol hold'
    · exact hold.types other symbol hsymbol
  · intro other decls hdecls d hmem
    rw [Dict.get?_insert] at hdecls
    split at hdecls
    · obtain rfl := Option.some.inj hdecls
      rcases List.mem_append.mp hmem with hmem | hmem
      · cases hold' : s.interfaces.get? decl.name.name with
        | none => rw [hold'] at hmem; exact nomatch hmem
        | some decls =>
          rw [hold'] at hmem
          exact hold.interfaces _ decls hold' d hmem
      · obtain rfl := List.mem_singleton.mp hmem
        exact hi
    · exact hold.interfaces other decls hdecls d hmem

end

end Bound

/-! ## Declarations -/

/-- Several steps, each of which may rely on those before it. -/
theorem Binds.foldl {α : Type} {f : Bindings → α → Bindings} (xs : List α) (h : Binds R K b b')
    (hf : ∀ b'', Binds R K b b'' → ∀ x ∈ xs, Binds R K b'' (f b'' x)) : Binds R K b (xs.foldl f b') := by
  induction xs generalizing b' with
  | nil => exact h
  | cons x xs ih =>
    exact ih (h.trans (hf b' h x List.mem_cons_self)) fun b'' h x hx => hf b'' h x (List.mem_cons_of_mem _ hx)

namespace Bound

variable {p : Bindings.Place} {name : String} {value : ValueSymbol} {type : TypeSymbol}

theorem exportValue (h : Bound R b) (hp : R.Governs b p) (hs : R.GrantsValue b p.scope value) :
    Binds R K b (b.exportValue p.container name value) := by
  unfold Bindings.exportValue
  split
  · rename_i c hc
    have hhome := (hp.container c hc).1
    refine h.modifyExports (R.home _ _ hhome.symm hp.scope) fun e hold => { hold with values := ?_ }
    intro other symbol hsymbol
    rw [Dict.get?_insertNew] at hsymbol
    split at hsymbol
    · obtain rfl := Option.some.inj hsymbol
      cases hold' : e.values.get? other with
      | none => exact hs.congr hhome.symm
      | some symbol => exact hold.values other symbol hold'
    · exact hold.values other symbol hsymbol
  · exact h.refl

theorem exportType (h : Bound R b) (hp : R.Governs b p) (hs : R.GrantsType b p.scope type) :
    Binds R K b (b.exportType p.container name type) := by
  unfold Bindings.exportType
  split
  · rename_i c hc
    have hhome := (hp.container c hc).1
    refine h.modifyExports (R.home _ _ hhome.symm hp.scope) fun e hold => { hold with types := ?_ }
    intro other symbol hsymbol
    rw [Dict.get?_insertNew] at hsymbol
    split at hsymbol
    · obtain rfl := Option.some.inj hsymbol
      cases hold' : e.types.get? other with
      | none => exact hs.congr hhome.symm
      | some symbol => exact hold.types other symbol hold'
    · exact hold.types other symbol hsymbol
  · exact h.refl

/-- What is both a value and a type. -/
theorem exportBoth (h : Bound R b) (hp : R.Governs b p) (hs : R.GrantsValue b p.scope value)
    (ht : ∀ b', (∀ c, b.Has c → b'.Has c) → R.GrantsType b' p.scope type) :
    Binds R K b ((b.exportValue p.container name value).exportType p.container name type) := by
  have first : Binds R K b (b.exportValue p.container name value) := h.exportValue hp hs
  exact first.trans (first.bound.exportType (hp.mono first) (ht _ first.has))

theorem exportImport (h : Bound R b) (hp : R.Governs b p) (binding : ImportBinding) :
    Binds R K b (b.exportImport p.container name binding) :=
  h.exportBoth hp trivial fun _ _ => trivial

theorem bindDeclarators (h : Bound R b) (hp : R.Governs b p) {kind : VariableKind} (exported : Bool)
    {decls : List Declarator} (hd : ∀ decl ∈ decls, R.declaration (.variable decl kind p.site)) :
    Binds R K b (Bindings.bindDeclarators p kind exported decls b) := by
  refine Binds.foldl decls h.refl fun b' hb decl hmem => ?_
  have first : Binds R K b' (b'.declareValue p.scope decl.name.name (.declarator decl kind p.site)) :=
    hb.bound.declareValue hp.scope (hd decl hmem)
  split
  · exact first.trans (first.bound.exportValue ((hp.mono hb).mono first) (hd decl hmem))
  · exact first

theorem bindFunction (h : Bound R b) (hp : R.Governs b p) (exported : Bool) {decl : FunctionDecl}
    (hd : R.declaration (.function decl p.site)) : Binds R K b (Bindings.bindFunction p exported decl b) := by
  have named (name : Ident) : Binds R K b
      (let b := b.declareValue p.scope name.name (.function decl p.site)
       if exported && !decl.modifiers.isDefault then b.exportValue p.container name.name (.function decl p.site) else b) := by
    have first : Binds R K b (b.declareValue p.scope name.name (.function decl p.site)) := h.declareValue hp.scope hd
    split
    · exact first.trans (first.bound.exportValue (hp.mono first) hd)
    · exact first
  have default {b' : Bindings} (hb : Binds R K b b') : Binds R K b
      (if decl.modifiers.isDefault then b'.exportValue p.container "default" (.function decl p.site) else b') := by
    split
    · exact hb.trans (hb.bound.exportValue (hp.mono hb) hd)
    · exact hb
  unfold Bindings.bindFunction
  cases decl.name with
  | none => exact default h.refl
  | some name => exact default (named name)

theorem bindInterface (h : Bound R b) (hp : R.Governs b p) (exported : Bool) {decl : InterfaceDecl}
    (hd : R.declaration (.interface decl.name.name p.scope)) (hi : R.interface decl p.site) :
    Binds R K b (Bindings.bindInterface p exported decl b) := by
  have first : Binds R K b (b.declareInterface p.site decl) := h.declareInterface hp.scope hd hi
  unfold Bindings.bindInterface
  split
  · exact first.trans (first.bound.exportType (hp.mono first) hd)
  · split
    · exact first.trans (first.bound.exportType (hp.mono first) hd)
    · exact first

theorem bindAlias (h : Bound R b) (hp : R.Governs b p) (exported : Bool) {decl : TypeAlias}
    (hd : R.declaration (.typeAlias decl p.site)) : Binds R K b (Bindings.bindAlias p exported decl b) := by
  have first : Binds R K b (b.putType p.scope decl.name.name (.typeAlias decl p.site)) := h.putType hp.scope hd
  unfold Bindings.bindAlias
  split
  · exact first.trans (first.bound.exportType (hp.mono first) hd)
  · exact first

/-! ## Imports and exports -/

theorem bindImport (h : Bound R b) (hp : R.Governs b p) (decl : ImportDecl) :
    Binds R K b (Bindings.bindImport p decl b) :=
  Binds.foldl _ h.refl fun _ hb binding _ => hb.bound.declareImport hp.scope binding

theorem bindImportEquals (h : Bound R b) (hp : R.Governs b p) (decl : ImportEquals) :
    Binds R K b (Bindings.bindImportEquals p decl b) := by
  have first : Binds R K b (b.declareImport p.scope (p.binding decl.source.value .equals (some decl.name))) :=
    h.declareImport hp.scope _
  unfold Bindings.bindImportEquals
  split
  · exact first.trans (first.bound.exportImport (hp.mono first) _)
  · exact first

theorem bindExport (h : Bound R b) (hp : R.Governs b p) {decl : ExportDecl}
    (hd : ∀ expr, decl.kind = .default expr ∨ decl.kind = .assignment expr → R.declaration (.exported expr p.site)) :
    Binds R K b (Bindings.bindExport p decl b) := by
  unfold Bindings.bindExport
  split
  · exact h.refl
  · exact Binds.foldl _ h.refl fun _ hb s _ => hb.bound.exportImport (hp.mono hb) _
  · split
    · rename_i c hc
      refine h.modifyExports (R.home _ _ (hp.container c hc).1.symm hp.scope) fun e hold => ?_
      exact ⟨hold.values, hold.types, hold.assigned⟩
    · exact h.refl
  · exact h.exportImport hp _
  · rename_i expr hkind
    exact h.exportValue hp (hd expr (.inl hkind))
  · rename_i expr hkind
    split
    · rename_i c hc
      refine h.modifyExports (R.home _ _ (hp.container c hc).1.symm hp.scope) fun e hold => { hold with assigned := ?_ }
      intro e site heq
      obtain ⟨rfl, rfl⟩ := Prod.mk.inj (Option.some.inj heq)
      exact hd _ (.inr hkind)
    · exact h.refl

/-- A local export copies what its scope binds. -/
theorem exportLocal (h : Bound R b) (hp : R.Governs b p) (name exportedName : String) :
    Binds R K b (Bindings.exportLocal p name exportedName b) := by
  have types {b' : Bindings} (values : Binds R K b b') {symbol : TypeSymbol} (hsymbol : b'.typeIn? p.scope name = some symbol) :
      Binds R K b (b'.exportType p.container exportedName symbol) :=
    values.trans (values.bound.exportType (hp.mono values) (values.bound.typeIn? hp.scope hsymbol))
  unfold Bindings.exportLocal
  cases hvalue : b.valueIn? p.scope name with
  | none =>
    dsimp only
    split
    · exact types h.refl ‹_›
    · exact h.refl
  | some symbol =>
    have values : Binds R K b (b.exportValue p.container exportedName symbol) := h.exportValue hp (h.valueIn? hp.scope hvalue)
    dsimp only
    split
    · exact types values ‹_›
    · exact values

theorem bindLocalExports (h : Bound R b) (hp : R.Governs b p) (statements : List Statement) :
    Binds R K b (Bindings.bindLocalExports p statements b) := by
  have named := Binds.foldl (K := K) (Bindings.localExports statements) h.refl
    fun b' hb s _ => hb.bound.exportLocal (hp.mono hb) s.localName.name s.exportedName.name
  unfold Bindings.bindLocalExports
  simp only
  split
  · exact named
  · split
    · rename_i symbol hsymbol
      exact named.trans (named.bound.exportType (hp.mono named) (named.bound.typeIn? hp.scope hsymbol))
    · exact named

/-! ## Namespaces and modules -/

theorem namespaceScope (h : Bound R b) (hp : R.Governs b p) (name : String) :
    Binds R K b (b.namespaceScope p.scope name).2 ∧ (b.namespaceScope p.scope name).1.home = p.scope.home ∧
      (b.namespaceScope p.scope name).2.Has (b.namespaceScope p.scope name).1 := by
  unfold Bindings.namespaceScope
  split
  · rename_i inner hvalue
    exact ⟨h.refl, h.valueIn? hp.scope hvalue inner rfl⟩
  · obtain ⟨hnew, hhome, hhas⟩ := h.newScope (K := K) hp.scope hp.has
    generalize b.newScope p.scope = opened at hnew hhome hhas
    obtain ⟨inner, b₁⟩ := opened
    have hvalue : Binds R K b₁ (b₁.putValue p.scope name (.ofModule (.container inner))) :=
      hnew.bound.putValue hp.scope (Rights.ref_container hhome hhas)
    have htype : Binds R K _ ((b₁.putValue p.scope name (.ofModule (.container inner))).putType p.scope name
        (.ofModule (.container inner))) :=
      hvalue.bound.putType hp.scope (Rights.ref_container hhome (hvalue.has _ hhas))
    exact ⟨hnew.trans (hvalue.trans htype), hhome, htype.has _ (hvalue.has _ hhas)⟩

theorem openNamespaces (h : Bound R b) (hp : R.Governs b p) (exported : Bool) (names : List String) :
    Binds R K b (Bindings.openNamespaces p exported names b).2 ∧
      R.Governs (Bindings.openNamespaces p exported names b).2 (Bindings.openNamespaces p exported names b).1 ∧
      (Bindings.openNamespaces p exported names b).1.home = p.home ∧
      (Bindings.openNamespaces p exported names b).1.scope.home = p.scope.home := by
  induction names generalizing p exported b with
  | nil => exact ⟨h.refl, hp, rfl, rfl⟩
  | cons name names ih =>
    obtain ⟨hspace, hhome, hhas⟩ := h.namespaceScope (K := K) hp name
    unfold Bindings.openNamespaces
    generalize b.namespaceScope p.scope name = opened at hspace hhome hhas
    obtain ⟨inner, b₁⟩ := opened
    have hexport : Binds R K b₁ (if exported then
        (b₁.exportValue p.container name (.ofModule (.container inner))).exportType p.container name
          (.ofModule (.container inner))
        else b₁) := by
      split
      · exact hspace.bound.exportBoth (hp.mono hspace) (Rights.ref_container hhome hhas) fun b' hb =>
          Rights.ref_container hhome (hb _ hhas)
      · exact hspace.bound.refl
    have hplace : R.Governs _ { p with scope := inner, container := some inner } :=
      ⟨R.home _ _ hhome.symm hp.scope, hexport.has _ hhas, fun c hc => Option.some.inj hc ▸ ⟨rfl, hexport.has _ hhas⟩⟩
    obtain ⟨hrest, hgoverns, hfile, hscope⟩ := ih hexport.bound hplace true
    exact ⟨(hspace.trans hexport).trans hrest, hgoverns, hfile, hscope.trans hhome⟩

/-- A module's body gets a place of its own, which is kept under the key of the module. -/
theorem openModule (h : Bound R b) (hp : R.Governs b p) {key : NodeKey} (hkey : K key) (exported ambient : Bool)
    {name : ModuleName} (hglobal : ∀ span, name = .global span → R.scope globalScope ∧ b.Has globalScope) :
    let opened := Bindings.openModule p key exported ambient name b
    Binds R K b opened.2 ∧ R.Governs opened.2 opened.1 ∧ opened.1.home = p.home ∧
      opened.2.moduleIn? p.scope key = some opened.1.scope := by
  -- The scope is noted last, in bindings that have it.
  have note {b' : Bindings} (hb : Binds R K b b') {inner : ScopeId} (hR : R.scope inner)
      (hreach : inner.home = p.scope.home ∨ inner = globalScope) (hhas : b'.Has inner) :
      Binds R K b' (b'.setModuleScope p.scope key inner) ∧
        (b'.setModuleScope p.scope key inner).moduleIn? p.scope key = some inner := by
    have hscope := hb.has _ hp.has
    refine ⟨hb.bound.setModuleScope hp.scope hscope hkey ⟨hreach, hhas⟩, ?_⟩
    rw [Bindings.moduleIn?_setModuleScope hscope, if_pos ⟨rfl, rfl⟩]
  unfold Bindings.openModule
  cases name with
  | global span =>
    obtain ⟨hR, hhas⟩ := hglobal span rfl
    obtain ⟨hset, hmodule⟩ := note h.refl hR (.inr rfl) hhas
    exact ⟨hset, ⟨hR, hset.has _ hhas, nofun⟩, rfl, hmodule⟩
  | ambient specifier =>
    obtain ⟨hnew, hhome, hhas⟩ := h.newScope (K := K) hp.scope hp.has
    generalize b.newScope p.scope = opened at hnew hhome hhas
    obtain ⟨inner, b₁⟩ := opened
    have hR := R.home _ _ hhome.symm hp.scope
    obtain ⟨hset, hmodule⟩ := note hnew hR (.inl hhome) hhas
    have hinner := hset.has _ hhas
    exact ⟨hnew.trans hset, ⟨hR, hinner, fun c hc => Option.some.inj hc ▸ ⟨rfl, hinner⟩⟩, rfl, hmodule⟩
  | named name =>
    obtain ⟨hspaces, hgoverns, hfile, hscope⟩ :=
      h.openNamespaces (K := K) hp exported (Bindings.nameParts name.name)
    simp only
    generalize Bindings.openNamespaces p exported (Bindings.nameParts name.name) b = opened at hspaces hgoverns hfile hscope
    obtain ⟨place, b₁⟩ := opened
    obtain ⟨hset, hmodule⟩ := note hspaces hgoverns.scope (.inl hscope) hgoverns.has
    have hplace := hgoverns.mono hset
    exact ⟨hspaces.trans hset, ⟨hplace.scope, hplace.has, hplace.container⟩, hfile, hmodule⟩

theorem bindBodiless (h : Bound R b) (hp : R.Governs b p) (exported : Bool) (name : ModuleName) :
    Binds R K b (Bindings.bindBodiless p exported name b) := by
  cases name with
  | global => exact h.refl
  | ambient specifier =>
    have href : Rights.Ref b p.scope .untyped := fun _ hc => nomatch hc
    exact h.addAmbient hp.scope href (.ambient specifier)
  | named name => exact (h.openNamespaces hp exported _).1

end Bound

end Recheck.Check
