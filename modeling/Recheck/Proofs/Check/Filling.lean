import Recheck.Proofs.Check.Scopes

/-!
# What binding puts into scopes

A step of the binder takes nothing out of a scope (`Fills`). Each of its functions puts in what it is given to declare, and
nothing else: an export is kept apart from the names of a scope.
-/

set_option autoImplicit false

namespace Recheck.Check

open Syntax

/-- What may come to stand in the scopes of some bindings, and what may be noted as the scope of a module. -/
structure Entries where
  value : ScopeId → String → ValueSymbol → Prop
  type : ScopeId → String → TypeSymbol → Prop
  note : NodeKey → ScopeId → Prop

/-- Whatever is bound. -/
def Entries.any : Entries := ⟨fun _ _ _ => True, fun _ _ _ => True, fun _ _ => True⟩

/-- A scope stays where it is, and keeps its names. -/
structure Scope.Keeps (s s' : Scope) : Prop where
  parent : s'.parent = s.parent
  values : ∀ name, (s.values.get? name).isSome → (s'.values.get? name).isSome
  types : ∀ name, (s.types.get? name).isSome → (s'.types.get? name).isSome

/-- A step that keeps all scopes, and puts in nothing but what may be put there. -/
structure Fills (E : Entries) (b b' : Bindings) : Prop where
  files : b'.fileScopes = b.fileScopes
  scopes : ∀ id s, b.scopeIn? id = some s → ∃ s', b'.scopeIn? id = some s' ∧ s.Keeps s'
  values : ∀ id name symbol, b'.valueIn? id name = some symbol → b.valueIn? id name = some symbol ∨ E.value id name symbol
  types : ∀ id name symbol, b'.typeIn? id name = some symbol → b.typeIn? id name = some symbol ∨ E.type id name symbol
  notes : ∀ id key inner, b'.moduleIn? id key = some inner → b.moduleIn? id key = some inner ∨ E.note key inner

variable {E : Entries} {b b' b'' : Bindings} {id id' : ScopeId}

theorem Bindings.valueIn?_eq {name : String} : b.valueIn? id name = (b.scopeIn? id).bind fun s => s.values.get? name := rfl

theorem Bindings.typeIn?_eq {name : String} : b.typeIn? id name = (b.scopeIn? id).bind fun s => s.types.get? name := rfl

namespace Scope.Keeps

theorem refl (s : Scope) : s.Keeps s := ⟨rfl, fun _ h => h, fun _ h => h⟩

theorem trans {s s' s'' : Scope} (h : s.Keeps s') (h' : s'.Keeps s'') : s.Keeps s'' :=
  ⟨h'.parent.trans h.parent, fun name hs => h'.values name (h.values name hs), fun name hs => h'.types name (h.types name hs)⟩

end Scope.Keeps

namespace Fills

/-- Where the scopes are the same as before. -/
theorem of_scopes (hfiles : b'.fileScopes = b.fileScopes) (hscopes : ∀ id, b'.scopeIn? id = b.scopeIn? id)
    (hnotes : ∀ id key inner, b'.moduleIn? id key = some inner → b.moduleIn? id key = some inner ∨ E.note key inner) :
    Fills E b b' where
  files := hfiles
  scopes id s hs := ⟨s, (hscopes id).trans hs, .refl s⟩
  values id name symbol hsymbol := by
    rw [Bindings.valueIn?_eq, hscopes] at hsymbol
    exact .inl hsymbol
  types id name symbol hsymbol := by
    rw [Bindings.typeIn?_eq, hscopes] at hsymbol
    exact .inl hsymbol
  notes := hnotes

theorem refl (b : Bindings) : Fills E b b := of_scopes rfl (fun _ => rfl) fun _ _ _ => .inl

theorem trans (h : Fills E b b') (h' : Fills E b' b'') : Fills E b b'' where
  files := h'.files.trans h.files
  scopes id s hs := by
    obtain ⟨s', hs', hkeeps⟩ := h.scopes id s hs
    obtain ⟨s'', hs'', hkeeps'⟩ := h'.scopes id s' hs'
    exact ⟨s'', hs'', hkeeps.trans hkeeps'⟩
  values id name symbol hsymbol := (h'.values id name symbol hsymbol).elim (h.values id name symbol) .inr
  types id name symbol hsymbol := (h'.types id name symbol hsymbol).elim (h.types id name symbol) .inr
  notes id key inner hinner := (h'.notes id key inner hinner).elim (h.notes id key inner) .inr

theorem has (h : Fills E b b') (hid : b.Has id) : b'.Has id := by
  obtain ⟨s, hs⟩ := Option.isSome_iff_exists.mp hid
  obtain ⟨s', hs', -⟩ := h.scopes id s hs
  exact Option.isSome_iff_exists.mpr ⟨s', hs'⟩

theorem isSome_value (h : Fills E b b') {name : String} (hname : (b.valueIn? id name).isSome) : (b'.valueIn? id name).isSome := by
  obtain ⟨symbol, hsymbol⟩ := Option.isSome_iff_exists.mp hname
  obtain ⟨s, hs, hvalue⟩ := Option.bind_eq_some_iff.mp hsymbol
  obtain ⟨s', hs', hkeeps⟩ := h.scopes id s hs
  have hkept : (s'.values.get? name).isSome := hkeeps.values name (Option.isSome_iff_exists.mpr ⟨symbol, hvalue⟩)
  rwa [Bindings.valueIn?_eq, hs', Option.bind_some]

theorem isSome_type (h : Fills E b b') {name : String} (hname : (b.typeIn? id name).isSome) : (b'.typeIn? id name).isSome := by
  obtain ⟨symbol, hsymbol⟩ := Option.isSome_iff_exists.mp hname
  obtain ⟨s, hs, htype⟩ := Option.bind_eq_some_iff.mp hsymbol
  obtain ⟨s', hs', hkeeps⟩ := h.scopes id s hs
  have hkept : (s'.types.get? name).isSome := hkeeps.types name (Option.isSome_iff_exists.mpr ⟨symbol, htype⟩)
  rwa [Bindings.typeIn?_eq, hs', Option.bind_some]

theorem foldl {α : Type} {f : Bindings → α → Bindings} (xs : List α) (h : Fills E b b')
    (hf : ∀ b, ∀ x ∈ xs, Fills E b (f b x)) : Fills E b (xs.foldl f b') := by
  induction xs generalizing b' with
  | nil => exact h
  | cons x xs ih => exact ih (h.trans (hf b' x List.mem_cons_self)) fun b y hy => hf b y (List.mem_cons_of_mem _ hy)

end Fills

/-- All that stands in some bindings may come to stand there. -/
structure Entries.Allow (E : Entries) (b : Bindings) : Prop where
  values : ∀ id name symbol, b.valueIn? id name = some symbol → E.value id name symbol
  types : ∀ id name symbol, b.typeIn? id name = some symbol → E.type id name symbol
  notes : ∀ id key inner, b.moduleIn? id key = some inner → E.note key inner

theorem Fills.allow (h : Fills E b b') (hb : E.Allow b) : E.Allow b' where
  values id name symbol hsymbol := (h.values id name symbol hsymbol).elim (hb.values id name symbol)  fun h => h
  types id name symbol hsymbol := (h.types id name symbol hsymbol).elim (hb.types id name symbol)  fun h => h
  notes id key inner hinner := (h.notes id key inner hinner).elim (hb.notes id key inner)  fun h => h

/-! ## Changes of a table -/

theorem Bindings.fileScopes_modifyTable {f : Table → Table} : (b.modifyTable id f).fileScopes = b.fileScopes := by
  cases id <;> rfl

/-- A table that does not exist cannot be changed. -/
theorem Bindings.tableOf_modifyTable_cases (f : Table → Table) : (b.modifyTable id f).tableOf id' = b.tableOf id' ∨
    id'.home = id.home ∧ (b.modifyTable id f).tableOf id' = f (b.tableOf id') := by
  cases id with
  | main => cases id' with
    | main => exact .inr ⟨rfl, rfl⟩
    | inner => exact .inl rfl
  | inner body parent n => cases id' with
    | main => exact .inl rfl
    | inner body' parent' n' =>
      have hget := b.bodies.get?_update (.inner body parent 0) (.inner body' parent' 0) f
      simp only [modifyTable, tableOf, hget, beq_iff_eq]
      by_cases heq : ScopeId.inner body parent 0 = .inner body' parent' 0
      · rw [if_pos heq]
        cases b.bodies.get? (.inner body' parent' 0) with
        | none => exact .inl rfl
        | some t => exact .inr ⟨heq.symm, rfl⟩
      · rw [if_neg heq]
        exact .inl rfl

/-- What is noted beside the scopes of a table leaves them alone. -/
theorem Bindings.scopeIn?_modifyTable {f : Table → Table} (hf : ∀ t, (f t).scopes = t.scopes) :
    (b.modifyTable id f).scopeIn? id' = b.scopeIn? id' := by
  unfold scopeIn?
  rcases @tableOf_modifyTable_cases b id id' f with h | ⟨-, h⟩
  · rw [h]
  · rw [h, hf]

theorem Bindings.moduleIn?_modifyTable {f : Table → Table} {key : NodeKey} (hf : ∀ t, (f t).moduleScopes = t.moduleScopes) :
    (b.modifyTable id f).moduleIn? id' key = b.moduleIn? id' key := by
  unfold moduleIn?
  rcases @tableOf_modifyTable_cases b id id' f with h | ⟨-, h⟩
  · rw [h]
  · rw [h, hf]

/-- No scope that is there is changed when another one is opened. -/
theorem Bindings.scopeIn?_newScope_of_has (h : b.Has id') : (b.newScope id).2.scopeIn? id' = b.scopeIn? id' := by
  obtain ⟨s, hs⟩ := Option.isSome_iff_exists.mp h
  have hlt : id'.index < (b.tableOf id').scopes.size := (Array.getElem?_eq_some_iff.mp hs).1
  unfold scopeIn? newScope
  rcases @tableOf_modifyTable_cases b id id'
    (fun t => { t with scopes := t.scopes.push (Scope.inside (some id)) }) with h | ⟨-, h⟩
  · rw [h]
  · rw [h, Array.getElem?_push, if_neg (Nat.ne_of_lt hlt)]

namespace Fills

theorem modifyScope {f : Scope → Scope} (hkeeps : ∀ s : Scope, s.Keeps (f s))
    (hvalues : ∀ s name symbol, (f s).values.get? name = some symbol → s.values.get? name = some symbol ∨ E.value id name symbol)
    (htypes : ∀ s name symbol, (f s).types.get? name = some symbol → s.types.get? name = some symbol ∨ E.type id name symbol) :
    Fills E b (b.modifyScope id f) where
  files := Bindings.fileScopes_modifyTable
  scopes id' s hs := by
    rw [Bindings.scopeIn?_modifyScope]
    split
    · exact ⟨f s, by rw [hs]; rfl, hkeeps s⟩
    · exact ⟨s, hs, .refl s⟩
  values id' name symbol hsymbol := by
    obtain ⟨s', hs', hvalue⟩ := Option.bind_eq_some_iff.mp hsymbol
    change (b.modifyScope id f).scopeIn? id' = some s' at hs'
    rw [Bindings.scopeIn?_modifyScope] at hs'
    split at hs'
    · rename_i heq
      obtain ⟨s, hs, rfl⟩ := Option.map_eq_some_iff.mp hs'
      exact (hvalues s name symbol hvalue).imp (fun h => Option.bind_eq_some_iff.mpr ⟨s, hs, h⟩) fun h => heq ▸ h
    · exact .inl (Option.bind_eq_some_iff.mpr ⟨s', hs', hvalue⟩)
  types id' name symbol hsymbol := by
    obtain ⟨s', hs', htype⟩ := Option.bind_eq_some_iff.mp hsymbol
    change (b.modifyScope id f).scopeIn? id' = some s' at hs'
    rw [Bindings.scopeIn?_modifyScope] at hs'
    split at hs'
    · rename_i heq
      obtain ⟨s, hs, rfl⟩ := Option.map_eq_some_iff.mp hs'
      exact (htypes s name symbol htype).imp (fun h => Option.bind_eq_some_iff.mpr ⟨s, hs, h⟩) fun h => heq ▸ h
    · exact .inl (Option.bind_eq_some_iff.mpr ⟨s', hs', htype⟩)
  notes id' key inner hinner := .inl (Bindings.moduleIn?_modifyScope ▸ hinner)

/-- A note about the variables of a table. -/
theorem redeclare (f : List NodeKey → List NodeKey) :
    Fills E b (b.modifyTable id fun t => { t with redeclared := f t.redeclared }) := by
  refine of_scopes Bindings.fileScopes_modifyTable (fun id' => Bindings.scopeIn?_modifyTable fun _ => rfl)
    fun id' key inner hinner => .inl ?_
  rw [Bindings.moduleIn?_modifyTable] at hinner
  · exact hinner
  · exact fun _ => rfl

theorem newScope : Fills E b (b.newScope id).2 := by
  have hscope {id' : ScopeId} {s' : Scope} (hs' : (b.newScope id).2.scopeIn? id' = some s') :
      b.scopeIn? id' = some s' ∨ s' = Scope.inside (some id) := by
    unfold Bindings.scopeIn? Bindings.newScope at hs'
    rcases @Bindings.tableOf_modifyTable_cases b id id'
      (fun t => { t with scopes := t.scopes.push (Scope.inside (some id)) }) with h | ⟨-, h⟩
    · rw [h] at hs'
      exact .inl hs'
    · rw [h, Array.getElem?_push] at hs'
      split at hs'
      · exact .inr (Option.some.inj hs').symm
      · exact .inl hs'
  refine ⟨Bindings.fileScopes_modifyTable, fun id' s hs => ⟨s, ?_, .refl s⟩, fun id' name symbol hsymbol => ?_,
    fun id' name symbol hsymbol => ?_, fun id' key inner hinner => .inl ?_⟩
  · exact (Bindings.scopeIn?_newScope_of_has (Option.isSome_iff_exists.mpr ⟨s, hs⟩)).trans hs
  · obtain ⟨s', hs', hvalue⟩ := Option.bind_eq_some_iff.mp hsymbol
    rcases hscope hs' with hs | rfl
    · exact .inl (Option.bind_eq_some_iff.mpr ⟨s', hs, hvalue⟩)
    · exact nomatch hvalue
  · obtain ⟨s', hs', htype⟩ := Option.bind_eq_some_iff.mp hsymbol
    rcases hscope hs' with hs | rfl
    · exact .inl (Option.bind_eq_some_iff.mpr ⟨s', hs, htype⟩)
    · exact nomatch htype
  · dsimp only [Bindings.newScope] at hinner
    rw [Bindings.moduleIn?_modifyTable] at hinner
    · exact hinner
    · exact fun _ => rfl

theorem setModuleScope {key : NodeKey} {inner : ScopeId} (hnote : E.note key inner) :
    Fills E b (b.setModuleScope id key inner) := by
  refine of_scopes Bindings.fileScopes_modifyTable (fun id' => Bindings.scopeIn?_modifyTable fun _ => rfl)
    fun id' key' inner' hinner => ?_
  unfold Bindings.moduleIn? Bindings.setModuleScope at hinner
  rcases @Bindings.tableOf_modifyTable_cases b id id'
    (fun t => { t with moduleScopes := t.moduleScopes.insert key inner }) with h | ⟨-, h⟩
  · rw [h] at hinner
    exact .inl hinner
  · rw [h, Dict.get?_insert] at hinner
    split at hinner
    · rename_i heq
      obtain rfl := Option.some.inj hinner
      exact .inr (eq_of_beq heq ▸ hnote)
    · exact .inl hinner

theorem addAmbient (name : ModuleName) (ref : ModuleRef) : Fills E b (Bindings.addAmbient name ref b) := by
  unfold Bindings.addAmbient
  split
  · exact of_scopes rfl (fun id => by cases id <;> rfl) fun id key inner hinner => .inl (by cases id <;> exact hinner)
  · exact refl b

/-! ## Entries of a scope -/

variable {name : String} {value : ValueSymbol} {type : TypeSymbol}

theorem isSome_insert {α : Type} {d : Dict String α} {key other : String} {a : α} (h : (d.get? other).isSome) :
    ((d.insert key a).get? other).isSome := by
  rw [Dict.get?_insert]
  split
  · rfl
  · exact h

theorem putValue (hvalue : E.value id name value) : Fills E b (b.putValue id name value) := by
  refine modifyScope (fun s => ⟨rfl, fun _ => isSome_insert, fun _ h => h⟩) (fun s other symbol hsymbol => ?_)
    fun s _ _ => .inl
  rw [Dict.get?_insert] at hsymbol
  split at hsymbol
  · rename_i heq
    exact .inr (eq_of_beq heq ▸ Option.some.inj hsymbol ▸ hvalue)
  · exact .inl hsymbol

theorem putType (htype : E.type id name type) : Fills E b (b.putType id name type) := by
  refine modifyScope (fun s => ⟨rfl, fun _ h => h, fun _ => isSome_insert⟩) (fun s _ _ => .inl) fun s other symbol hsymbol => ?_
  rw [Dict.get?_insert] at hsymbol
  split at hsymbol
  · rename_i heq
    exact .inr (eq_of_beq heq ▸ Option.some.inj hsymbol ▸ htype)
  · exact .inl hsymbol

theorem modifyExports {f : Exports → Exports} : Fills E b (b.modifyExports id f) :=
  modifyScope (fun _ => ⟨rfl, fun _ h => h, fun _ h => h⟩) (fun _ _ _ => .inl) fun _ _ _ => .inl

theorem declareValue (hvalue : E.value id name value) : Fills E b (b.declareValue id name value) := by
  unfold Bindings.declareValue
  split
  · exact putValue hvalue
  · split
    · split
      · exact redeclare (_ :: _ :: ·)
      · exact refl b
    · exact refl b

theorem declareImport {binding : ImportBinding} (hbinding : ∀ name, binding.localName = some name →
    E.value id name.name (.imported binding) ∧ E.type id name.name (.imported binding)) : Fills E b (b.declareImport id binding) := by
  unfold Bindings.declareImport
  split
  · rename_i name hname
    exact (putValue (hbinding name hname).1).trans (putType (hbinding name hname).2)
  · exact refl b

theorem declareInterface {site : Site} {decl : InterfaceDecl}
    (htype : E.type site.scope decl.name.name (.interface decl.name.name site.scope)) :
    Fills E b (b.declareInterface site decl) := by
  refine modifyScope (fun s => ⟨rfl, fun _ h => h, fun other h => ?_⟩) (fun s _ _ => .inl) fun s other symbol hsymbol => ?_
  · change ((s.types.insertNew _ _).get? other).isSome
    rw [Dict.get?_insertNew]
    split
    · rfl
    · exact h
  · change (s.types.insertNew _ _).get? other = some symbol at hsymbol
    rw [Dict.get?_insertNew] at hsymbol
    split at hsymbol
    · rename_i heq
      obtain rfl := eq_of_beq heq
      cases hold : s.types.get? decl.name.name with
      | none =>
        rw [hold] at hsymbol
        exact .inr (Option.some.inj hsymbol ▸ htype)
      | some symbol' =>
        rw [hold] at hsymbol
        exact .inl hsymbol
    · exact .inl hsymbol

theorem exportValue {container : Option ScopeId} : Fills E b (b.exportValue container name value) := by
  unfold Bindings.exportValue
  split
  · exact modifyExports
  · exact refl b

theorem exportType {container : Option ScopeId} : Fills E b (b.exportType container name type) := by
  unfold Bindings.exportType
  split
  · exact modifyExports
  · exact refl b

theorem exportImport {container : Option ScopeId} {binding : ImportBinding} : Fills E b (b.exportImport container name binding) :=
  exportValue.trans exportType

/-! ## Declarations -/

variable {p : Bindings.Place} {exported : Bool}

theorem bindDeclarators {kind : VariableKind} {decls : List Declarator}
    (hvalues : ∀ decl ∈ decls, E.value p.scope decl.name.name (.declarator decl kind p.site)) :
    Fills E b (Bindings.bindDeclarators p kind exported decls b) := by
  refine foldl decls (refl b) fun b' decl hdecl => ?_
  have first : Fills E b' (b'.declareValue p.scope decl.name.name (.declarator decl kind p.site)) :=
    declareValue (hvalues decl hdecl)
  split
  · exact first.trans exportValue
  · exact first

theorem bindFunction {decl : FunctionDecl} (hvalue : ∀ name, decl.name = some name → E.value p.scope name.name (.function decl p.site)) :
    Fills E b (Bindings.bindFunction p exported decl b) := by
  have default {b' : Bindings} (hb : Fills E b b') : Fills E b
      (if decl.modifiers.isDefault then b'.exportValue p.container "default" (.function decl p.site) else b') := by
    split
    · exact hb.trans exportValue
    · exact hb
  unfold Bindings.bindFunction
  cases hname : decl.name with
  | none => exact default (refl b)
  | some name =>
    have first : Fills E b (b.declareValue p.scope name.name (.function decl p.site)) := declareValue (hvalue name hname)
    refine default ?_
    dsimp only
    split
    · exact first.trans exportValue
    · exact first

theorem bindInterface {decl : InterfaceDecl} (htype : E.type p.scope decl.name.name (.interface decl.name.name p.scope)) :
    Fills E b (Bindings.bindInterface p exported decl b) := by
  have first : Fills E b (b.declareInterface p.site decl) := declareInterface htype
  unfold Bindings.bindInterface
  split
  · exact first.trans exportType
  · split
    · exact first.trans exportType
    · exact first

theorem bindAlias {decl : TypeAlias} (htype : E.type p.scope decl.name.name (.typeAlias decl p.site)) :
    Fills E b (Bindings.bindAlias p exported decl b) := by
  have first : Fills E b (b.putType p.scope decl.name.name (.typeAlias decl p.site)) := putType htype
  unfold Bindings.bindAlias
  split
  · exact first.trans exportType
  · exact first

/-! ## Imports and exports -/

/-- A name may be bound at a place as an import. -/
def Imports (E : Entries) (p : Bindings.Place) (name : Ident) : Prop :=
  ∀ specifier imported, E.value p.scope name.name (.imported (p.binding specifier imported (some name))) ∧
    E.type p.scope name.name (.imported (p.binding specifier imported (some name)))

theorem declarePlaced {specifier : String} {imported : ImportName} {local_ : Ident} (h : Imports E p local_) :
    Fills E b (b.declareImport p.scope (p.binding specifier imported (some local_))) :=
  declareImport fun _ hname => Option.some.inj hname ▸ h specifier imported

theorem bindImport {decl : ImportDecl} (hnames : ∀ name ∈ decl.localNames, Imports E p name) :
    Fills E b (Bindings.bindImport p decl b) := by
  refine foldl _ (refl b) fun b' binding hbinding => ?_
  simp only [List.mem_append, List.mem_map, Option.mem_toList] at hbinding
  rcases hbinding with (⟨name, hname, rfl⟩ | ⟨name, hname, rfl⟩) | ⟨s, hs, rfl⟩
  · exact declarePlaced (hnames name (by simp [ImportDecl.localNames, hname]))
  · exact declarePlaced (hnames name (by simp [ImportDecl.localNames, hname]))
  · exact declarePlaced (hnames s.localName (by simpa [ImportDecl.localNames] using .inr (.inr ⟨s, hs, rfl⟩)))

theorem bindImportEquals {decl : ImportEquals} (hname : Imports E p decl.name) :
    Fills E b (Bindings.bindImportEquals p decl b) := by
  have first : Fills E b (b.declareImport p.scope (p.binding decl.source.value .equals (some decl.name))) := declarePlaced hname
  unfold Bindings.bindImportEquals
  split
  · exact first.trans exportImport
  · exact first

theorem bindExport {decl : ExportDecl} : Fills E b (Bindings.bindExport p decl b) := by
  unfold Bindings.bindExport
  split
  · exact refl b
  · exact foldl _ (refl b) fun _ _ _ => exportImport
  · split
    · exact modifyExports
    · exact refl b
  · exact exportImport
  · exact exportValue
  · split
    · exact modifyExports
    · exact refl b

theorem exportLocal {name exportedName : String} : Fills E b (Bindings.exportLocal p name exportedName b) := by
  unfold Bindings.exportLocal
  cases b.valueIn? p.scope name with
  | some symbol =>
    dsimp only
    split
    · exact exportValue.trans exportType
    · exact exportValue
  | none =>
    dsimp only
    split
    · exact exportType
    · exact refl b

theorem bindLocalExports {statements : List Statement} : Fills E b (Bindings.bindLocalExports p statements b) := by
  have named : Fills E b ((Bindings.localExports statements).foldl (fun b s =>
      Bindings.exportLocal p s.localName.name s.exportedName.name b) b) := foldl _ (refl b) fun _ _ _ => exportLocal
  unfold Bindings.bindLocalExports
  dsimp only
  split
  · exact named
  · split
    · exact named.trans exportType
    · exact named

/-! ## Modules and bodies -/

theorem namespaceScope (hnew : E.value id name (.ofModule (.container (b.newScope id).1)) ∧
    E.type id name (.ofModule (.container (b.newScope id).1))) : Fills E b (b.namespaceScope id name).2 := by
  unfold Bindings.namespaceScope
  split
  · exact refl b
  · exact newScope.trans ((putValue hnew.1).trans (putType hnew.2))

theorem exportNamespace {container : Option ScopeId} {ref : ModuleRef} : Fills E b (if exported then
    (b.exportValue container name (.ofModule ref)).exportType container name (.ofModule ref) else b) := by
  split
  · exact exportValue.trans exportType
  · exact refl b

/-- The names that a body has before its statements. -/
theorem bindNames {file : Path} {names : List Ident} {params : List Param}
    (htypes : ∀ name ∈ names, E.type id name.name .typeParam)
    (hvalues : ∀ param ∈ params, E.value id param.name.name (.param param ⟨file, id⟩)) :
    Fills E b (Bindings.bindParams ⟨file, id⟩ params (Bindings.bindTypeParams id names b)) := by
  have first : Fills E b (Bindings.bindTypeParams id names b) := foldl names (refl b) fun _ name hname => putType (htypes name hname)
  exact first.trans (foldl params (refl _) fun _ param hparam => putValue (hvalues param hparam))

end Fills

/-! ## Whatever is bound -/

namespace Fills

variable {p : Bindings.Place}

theorem any_openNamespaces (exported : Bool) (names : List String) :
    Fills .any b (Bindings.openNamespaces p exported names b).2 := by
  induction names generalizing p exported b with
  | nil => exact refl b
  | cons name names ih =>
    unfold Bindings.openNamespaces
    exact (namespaceScope ⟨trivial, trivial⟩).trans (exportNamespace.trans (ih true))

theorem any_openModule (key : NodeKey) (exported ambient : Bool) (name : ModuleName) :
    Fills .any b (Bindings.openModule p key exported ambient name b).2 := by
  unfold Bindings.openModule
  split
  · exact setModuleScope trivial
  · exact newScope.trans (setModuleScope trivial)
  · exact (any_openNamespaces exported _).trans (setModuleScope trivial)

mutual

theorem any_bindStatement (p : Bindings.Place) (b : Bindings) : ∀ s : Statement, Fills .any b (Bindings.bindStatement p s b)
  | .moduleDecl ⟨modifiers, name, some body, span⟩ => by
    rw [Bindings.bindStatement]
    have hopen := any_openModule (b := b) (p := p) ⟨.moduleDecl, p.home, span.start⟩ (modifiers.exported || p.implicitExport)
      (p.implicitExport || modifiers.declared) name
    exact hopen.trans ((any_bindEach _ _ body).trans (bindLocalExports.trans (addAmbient _ _)))
  | .moduleDecl ⟨modifiers, name, none, span⟩ => by
    rw [Bindings.bindStatement]
    cases name with
    | global => exact refl b
    | ambient specifier => exact addAmbient (.ambient specifier) _
    | named name => exact any_openNamespaces _ _
  | .variableDecl d => by
    rw [Bindings.bindStatement]
    exact bindDeclarators fun _ _ => trivial
  | .function d => by
    rw [Bindings.bindStatement]
    exact bindFunction fun _ _ => trivial
  | .interface d => by
    rw [Bindings.bindStatement]
    exact bindInterface trivial
  | .typeAlias d => by
    rw [Bindings.bindStatement]
    exact bindAlias trivial
  | .importDecl d => by
    rw [Bindings.bindStatement]
    exact bindImport fun _ _ _ _ => ⟨trivial, trivial⟩
  | .importEquals d => by
    rw [Bindings.bindStatement]
    exact bindImportEquals fun _ _ => ⟨trivial, trivial⟩
  | .exportDecl d => by
    rw [Bindings.bindStatement]
    exact bindExport
  | .ifElse _ | .block _ | .expression _ | .ret _ | .empty _ | .error _ => refl b

theorem any_bindEach (p : Bindings.Place) (b : Bindings) : ∀ statements : List Statement,
    Fills .any b (Bindings.bindEach p statements b)
  | [] => refl b
  | s :: rest => (any_bindStatement p b s).trans (any_bindEach p _ rest)

end

theorem any_bindBody (p : Bindings.Place) (statements : List Statement) (b : Bindings) :
    Fills .any b (Bindings.bindBody p statements b) :=
  (any_bindEach p b statements).trans bindLocalExports

theorem any_bindFiles (units : List SourceUnit) (b : Bindings) : Fills .any b (units.foldl Bindings.bindFile b) :=
  foldl units (refl b) fun b _ _ => any_bindBody _ _ b

/-- A body is bound behind the names that it has before its statements. -/
theorem any_bindInner (body : Body) (parent : ScopeId) (importer : Path) :
    Fills .any (b.withBody body parent) (Bindings.bindInner body parent importer b) :=
  (bindNames (fun _ _ => trivial) fun _ _ => trivial).trans (any_bindBody _ _ _)

end Fills

/-! ## Scopes around scopes -/

/-- The scope around a scope; around all scopes of a body it is the one that the body stands in. -/
def Bindings.outer? (b : Bindings) : ScopeId → Option ScopeId
  | .main n => b.main.scopes[n]?.bind (·.parent)
  | .inner _ parent _ => some parent

/-- Scopes that are around others in some bindings are so in others. -/
def Bindings.Nested (b b' : Bindings) : Prop := ∀ id parent, b.outer? id = some parent → b'.outer? id = some parent

theorem Bindings.Nested.refl (b : Bindings) : b.Nested b := fun _ _ h => h

theorem Bindings.Nested.trans (h : b.Nested b') (h' : b'.Nested b'') : b.Nested b'' :=
  fun id parent hparent => h' id parent (h id parent hparent)

theorem Fills.nested {E : Entries} (h : Fills E b b') : b.Nested b' := by
  intro id parent hparent
  cases id with
  | inner => exact hparent
  | main n =>
    obtain ⟨s, hs, hs'⟩ := Option.bind_eq_some_iff.mp hparent
    obtain ⟨s', hfound, hkeeps⟩ := h.scopes (.main n) s hs
    exact Option.bind_eq_some_iff.mpr ⟨s', hfound, hkeeps.parent.trans hs'⟩

/-- A new scope is inside of the one that it is opened in. -/
theorem Bindings.outer?_newScope {n : Nat} : (b.newScope (.main n)).2.outer? (b.newScope (.main n)).1 = some (.main n) := by
  simp [newScope, modifyTable, tableOf, ScopeId.beside, outer?, Scope.inside]

/-- A new scope was not there before. -/
theorem Bindings.ne_newScope (hid : b.Has id) (hhome : id.home = id'.home) : id ≠ (b.newScope id').1 := by
  intro heq
  obtain ⟨s, hs⟩ := Option.isSome_iff_exists.mp hid
  have hlt : id.index < (b.tableOf id).scopes.size := (Array.getElem?_eq_some_iff.mp hs).1
  rw [tableOf_congr hhome, heq] at hlt
  exact absurd (id'.index_beside _ ▸ hlt) (Nat.lt_irrefl _)

/-- No scope that is there is moved when a body is opened. -/
theorem Bindings.nested_openBody (b : Bindings) (body : Body) (parent : ScopeId) (importer : Path) :
    b.Nested (b.openBody body parent importer) := by
  have hwith : b.Nested (b.withBody body parent) := fun id _ hparent => by cases id <;> exact hparent
  unfold Bindings.openBody
  dsimp only
  split
  · exact .refl b
  · intro id outer houter
    have hbound := (hwith.trans (Fills.any_bindInner body parent importer).nested) id outer houter
    cases id <;> exact hbound

end Recheck.Check
