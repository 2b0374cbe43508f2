import Recheck.Proofs.Check.Binding
import Mathlib.Data.List.Forall2
import Mathlib.Data.Option.Basic
import Recheck.Proofs.Check.Filling

/-!
# Programs with a common core

Two programs can have some files in common, the core. Where these bind their names is not the same in both: the scopes
that the files of a program share are numbered, and the other files take numbers too. A `Pairing` says which scopes
correspond. With it correspond the scopes in bodies, the sites, the symbols and the declarations, and finally bindings
(`Pairing.Agree`): what core files have bound in one program they have bound in the other.
-/

set_option autoImplicit false

namespace Recheck

/-- Two programs whose core files refer to the same files, which belong to the core as well. -/
structure Program.ShareCore (core : Path → Prop) (p q : Program) : Prop where
  options : p.options = q.options
  target : ∀ path specifier, core path → p.target? path specifier = q.target? path specifier
  closed : ∀ path specifier target, core path → p.target? path specifier = some target → core target

/-! ## Dictionaries -/

theorem none_or_some_of_rel {α β : Type} {R : α → β → Prop} {o : Option α} {o' : Option β} (h : Option.Rel R o o') :
    (o = none ∧ o' = none) ∨ ∃ x x', o = some x ∧ o' = some x' ∧ R x x' := by
  cases h with
  | some h => exact .inr ⟨_, _, rfl, rfl, h⟩
  | none => exact .inl ⟨rfl, rfl⟩

/-- Two dictionaries with the same keys and related values. -/
def Dict.Related {α β β' : Type} [BEq α] (R : β → β' → Prop) (d : Dict α β) (d' : Dict α β') : Prop :=
  ∀ key, Option.Rel R (d.get? key) (d'.get? key)

namespace Dict.Related

variable {α β β' : Type} [BEq α] [EquivBEq α] {R : β → β' → Prop} {d : Dict α β} {d' : Dict α β'} {key : α} {x : β} {x' : β'}

theorem insert (h : Related R d d') (hx : R x x') : Related R (d.insert key x) (d'.insert key x') := by
  intro other
  rw [Dict.get?_insert, Dict.get?_insert]
  split
  · exact .some hx
  · exact h other

theorem insertNew (h : Related R d d') (hx : R x x') : Related R (d.insertNew key x) (d'.insertNew key x') := by
  intro other
  rw [Dict.get?_insertNew, Dict.get?_insertNew]
  split
  · obtain ⟨hd, hd'⟩ | ⟨y, y', hd, hd', hy⟩ := none_or_some_of_rel (h other)
    · rw [hd, hd']
      exact .some hx
    · rw [hd, hd']
      exact .some hy
  · exact h other

end Dict.Related

namespace Check

open Syntax

/-- Which of the scopes that the files of two programs share correspond. The scope of the names that need no declaration
and the one of all scripts correspond to themselves. -/
structure Pairing (core : Path → Prop) where
  main : Nat → Nat → Prop
  unique : ∀ {m n m' n'}, main m n → main m' n' → (m = m' ↔ n = n')
  lib : main 0 0
  global : main 1 1

namespace Pairing

variable {core : Path → Prop} (w : Pairing core)

/-! ## What corresponds -/

inductive Scopes : ScopeId → ScopeId → Prop
  | main {m n : Nat} (h : w.main m n) : Scopes (.main m) (.main n)
  | inner {body : Body} {parent parent' : ScopeId} {index : Nat} (hfile : core body.key.file)
    (h : Scopes parent parent') : Scopes (.inner body parent index) (.inner body parent' index)

structure Sites (s s' : Site) : Prop where
  file : s.file = s'.file
  core : core s.file
  scope : w.Scopes s.scope s'.scope

inductive Refs : ModuleRef → ModuleRef → Prop
  | container {c c' : ScopeId} (h : w.Scopes c c') : Refs (.container c) (.container c')
  | untyped : Refs .untyped .untyped
  | unresolved : Refs .unresolved .unresolved

inductive Values : ValueSymbol → ValueSymbol → Prop
  | declarator {decl : Declarator} {kind : VariableKind} {site site' : Site} (h : w.Sites site site') :
    Values (.declarator decl kind site) (.declarator decl kind site')
  | function {decl : FunctionDecl} {site site' : Site} (h : w.Sites site site') :
    Values (.function decl site) (.function decl site')
  | param {param : Param} {site site' : Site} (h : w.Sites site site') : Values (.param param site) (.param param site')
  | imported {binding : ImportBinding} (h : core binding.importer) : Values (.imported binding) (.imported binding)
  | ofModule {ref ref' : ModuleRef} (h : w.Refs ref ref') : Values (.ofModule ref) (.ofModule ref')
  | expr {expr : Expr} {site site' : Site} (h : w.Sites site site') : Values (.expr expr site) (.expr expr site')
  | builtin (builtin : Builtin) : Values (.builtin builtin) (.builtin builtin)

inductive Types : TypeSymbol → TypeSymbol → Prop
  | interface {name : String} {scope scope' : ScopeId} (h : w.Scopes scope scope') :
    Types (.interface name scope) (.interface name scope')
  | typeAlias {decl : TypeAlias} {site site' : Site} (h : w.Sites site site') :
    Types (.typeAlias decl site) (.typeAlias decl site')
  | typeParam : Types .typeParam .typeParam
  | imported {binding : ImportBinding} (h : core binding.importer) : Types (.imported binding) (.imported binding)
  | ofModule {ref ref' : ModuleRef} (h : w.Refs ref ref') : Types (.ofModule ref) (.ofModule ref')
  | builtin (builtin : Builtin) : Types (.builtin builtin) (.builtin builtin)

inductive Declarations : Declaration → Declaration → Prop
  | variable {decl : Declarator} {kind : VariableKind} {site site' : Site} (h : w.Sites site site') :
    Declarations (.variable decl kind site) (.variable decl kind site')
  | function {decl : FunctionDecl} {site site' : Site} (h : w.Sites site site') :
    Declarations (.function decl site) (.function decl site')
  | param {param : Param} {site site' : Site} (h : w.Sites site site') :
    Declarations (.param param site) (.param param site')
  | exported {expr : Expr} {site site' : Site} (h : w.Sites site site') :
    Declarations (.exported expr site) (.exported expr site')
  | interface {name : String} {scope scope' : ScopeId} (h : w.Scopes scope scope') :
    Declarations (.interface name scope) (.interface name scope')
  | typeAlias {decl : TypeAlias} {site site' : Site} (h : w.Sites site site') :
    Declarations (.typeAlias decl site) (.typeAlias decl site')
  | functionExpr {params : List Param} {returnType : Option TypeNode} {body : FunctionBody} {site site' : Site}
    (h : w.Sites site site') :
    Declarations (.functionExpr params returnType body site) (.functionExpr params returnType body site')

/-- Expressions that modules assign to their exports. -/
structure Assigned (x x' : Expr × Site) : Prop where
  expr : x.1 = x'.1
  site : w.Sites x.2 x'.2

structure Offers (e e' : Exports) : Prop where
  values : Dict.Related w.Values e.values e'.values
  types : Dict.Related w.Types e.types e'.types
  stars : e.stars = e'.stars
  importers : ∀ star ∈ e.stars, core star.1
  assigned : Option.Rel w.Assigned e.assigned e'.assigned

structure Contents (s s' : Scope) : Prop where
  parent : Option.Rel w.Scopes s.parent s'.parent
  values : Dict.Related w.Values s.values s'.values
  types : Dict.Related w.Types s.types s'.types
  interfaces : ∀ name, s.interfaces.get? name = s'.interfaces.get? name
  files : ∀ name decls, s.interfaces.get? name = some decls → ∀ d ∈ decls, core d.2
  exports : w.Offers s.exports s'.exports

/-- Modules that are known under the same name. -/
structure Ambient (x x' : String × ModuleRef) : Prop where
  name : x.1 = x'.1
  ref : w.Refs x.2 x'.2

end Pairing

/-- Whether there is a table that holds a scope, or could. -/
def Bindings.HasTable (b : Bindings) : ScopeId → Prop
  | .main _ => True
  | .inner body parent _ => b.bodies.contains (.inner body parent 0) = true

namespace Pairing

variable {core : Path → Prop}

/-- Bindings in which the core files have bound the same. -/
structure Agree (w : Pairing core) (b b' : Bindings) : Prop where
  program : b.program.ShareCore core b'.program
  table : ∀ {id id'}, w.Scopes id id' → (b.HasTable id ↔ b'.HasTable id')
  scope : ∀ {id id'}, w.Scopes id id' → Option.Rel w.Contents (b.scopeIn? id) (b'.scopeIn? id')
  module : ∀ {id id'}, w.Scopes id id' → ∀ key : NodeKey, core key.file →
    Option.Rel w.Scopes (b.moduleIn? id key) (b'.moduleIn? id' key)
  redeclared : ∀ {id id'}, w.Scopes id id' → ∀ key : NodeKey, core key.file →
    (key ∈ (b.tableOf id).redeclared ↔ key ∈ (b'.tableOf id').redeclared)
  opened : ∀ {id id'}, w.Scopes id id' → (id ∈ b.opened ↔ id' ∈ b'.opened)
  fileScopes : ∀ path, core path → Option.Rel w.Scopes (b.fileScopes.get? path) (b'.fileScopes.get? path)
  modules : ∀ path, core path → Option.Rel w.Scopes (b.modules.get? path) (b'.modules.get? path)
  ambient : List.Forall₂ w.Ambient b.ambientModules b'.ambientModules

variable {w : Pairing core}

/-! ## Correspondence is one to one -/

theorem Scopes.eq_iff {a a' b b' : ScopeId} (ha : w.Scopes a a') (hb : w.Scopes b b') : a = b ↔ a' = b' := by
  induction ha generalizing b b' with
  | main h =>
    cases hb with
    | main h' => simpa using w.unique h h'
    | inner => exact ⟨nofun, nofun⟩
  | inner _ _ ih =>
    cases hb with
    | main => exact ⟨nofun, nofun⟩
    | inner _ h' => simp [ih h']

theorem Scopes.lib : w.Scopes libScope libScope := .main w.lib

theorem Scopes.global : w.Scopes globalScope globalScope := .main w.global

theorem Scopes.index_inner {body : Body} {parent id' : ScopeId} {index : Nat} (h : w.Scopes (.inner body parent index) id') :
    ∃ parent', id' = .inner body parent' index ∧ core body.key.file ∧ w.Scopes parent parent' := by
  cases h with
  | inner hfile h => exact ⟨_, rfl, hfile, h⟩

/-- Scopes of the same table lie beside each other in both programs. -/
theorem Scopes.home_eq_iff {a a' b b' : ScopeId} (ha : w.Scopes a a') (hb : w.Scopes b b') :
    a.home = b.home ↔ a'.home = b'.home := by
  cases ha with
  | main h =>
    cases hb with
    | main h' => exact ⟨fun _ => rfl, fun _ => rfl⟩
    | inner => exact ⟨nofun, nofun⟩
  | inner hfile h =>
    cases hb with
    | main => exact ⟨nofun, nofun⟩
    | inner _ h' => simp [ScopeId.home, ScopeId.beside, h.eq_iff h']

theorem Sites.eq_iff {s s' t t' : Site} (hs : w.Sites s s') (ht : w.Sites t t') : s = t ↔ s' = t' := by
  obtain ⟨file, scope⟩ := s
  obtain ⟨file', scope'⟩ := t
  have hscope := hs.scope.eq_iff ht.scope
  have hfile := hs.file
  have hfile' := ht.file
  cases s'
  cases t'
  simp_all

theorem Sites.inner {s s' : Site} (h : w.Sites s s') {body : Body} (hfile : core body.key.file) (index : Nat) :
    w.Sites { s with scope := .inner body s.scope index } { s' with scope := .inner body s'.scope index } :=
  ⟨h.file, h.core, .inner hfile h.scope⟩

theorem Declarations.eq_iff {d d' e e' : Declaration} (hd : w.Declarations d d') (he : w.Declarations e e') :
    d = e ↔ d' = e' := by
  cases hd with
  | «variable» h =>
    cases he with
    | «variable» h' => simp [h.eq_iff h']
    | _ => simp
  | function h =>
    cases he with
    | function h' => simp [h.eq_iff h']
    | _ => simp
  | param h =>
    cases he with
    | param h' => simp [h.eq_iff h']
    | _ => simp
  | exported h =>
    cases he with
    | exported h' => simp [h.eq_iff h']
    | _ => simp
  | interface h =>
    cases he with
    | interface h' => simp [h.eq_iff h']
    | _ => simp
  | typeAlias h =>
    cases he with
    | typeAlias h' => simp [h.eq_iff h']
    | _ => simp
  | functionExpr h =>
    cases he with
    | functionExpr h' => simp [h.eq_iff h']
    | _ => simp

end Pairing

end Check

end Recheck

/-!
## Binding the same in two programs

What the binder does with a statement of a core file it does in both programs alike, as long as the scopes that it opens
on the way correspond (`Pairing.Ready`).
-/

namespace Recheck.Check

open Syntax

/-! ## Tables -/

namespace Bindings

variable {b : Bindings} {id id' : ScopeId} {f : Table → Table}

theorem modifyTable_of_not_has (h : ¬b.HasTable id) : b.modifyTable id f = b := by
  cases id with
  | main => exact absurd trivial h
  | inner body parent n =>
    have hsame : b.bodies.update (.inner body parent 0) f = b.bodies := by
      unfold Dict.update
      congr 1
      refine (List.map_congr_left fun e he => ?_).trans (List.map_id _)
      exact if_neg fun hkey => h (Dict.contains_of_mem he hkey)
    change { b with bodies := b.bodies.update (.inner body parent 0) f } = b
    rw [hsame]

theorem tableOf_modifyTable_of_has (h : b.HasTable id) :
    (b.modifyTable id f).tableOf id' = if id'.home = id.home then f (b.tableOf id') else b.tableOf id' := by
  cases id with
  | main n => cases id' <;> rfl
  | inner body parent n =>
    cases id' with
    | main => rfl
    | inner body' parent' n' =>
      have hget := b.bodies.get?_update (.inner body parent 0) (.inner body' parent' 0) f
      simp only [modifyTable, tableOf, hget, beq_iff_eq]
      by_cases heq : ScopeId.inner body parent 0 = .inner body' parent' 0
      · rw [if_pos heq, if_pos (show (ScopeId.inner body' parent' n').home = (ScopeId.inner body parent n).home from heq.symm)]
        obtain ⟨t, ht⟩ := Option.isSome_iff_exists.mp h
        rw [← heq, ht]
        rfl
      · rw [if_neg heq, if_neg (show (ScopeId.inner body' parent' n').home ≠ (ScopeId.inner body parent n).home from fun h => heq h.symm)]

theorem hasTable_congr (h : id.home = id'.home) : b.HasTable id ↔ b.HasTable id' := by
  cases id <;> cases id' <;> simp_all [ScopeId.home, ScopeId.beside, HasTable]

theorem hasTable_modifyTable : (b.modifyTable id f).HasTable id' ↔ b.HasTable id' := by
  cases id with
  | main => cases id' <;> rfl
  | inner body parent n =>
    cases id' with
    | main => rfl
    | inner body' parent' n' =>
      change ((b.bodies.update _ f).get? _).isSome = true ↔ (b.bodies.get? _).isSome = true
      rw [Dict.get?_update]
      split
      · rw [Option.isSome_map]
      · rfl

/-- Nothing but tables changes. -/
theorem modifyTable_rest : b.modifyTable id f =
    { b with main := (b.modifyTable id f).main, bodies := (b.modifyTable id f).bodies } := by
  cases id <;> rfl

theorem snd_newScope : (b.newScope id).2 =
    b.modifyTable id fun t => { t with scopes := t.scopes.push (Scope.inside (some id)) } := rfl

theorem main_newScope (m : Nat) : (b.newScope (.main m)).2.main.scopes.size = b.main.scopes.size + 1 :=
  Array.size_push _

theorem main_modifyTable (h : ∀ t, (f t).scopes.size = t.scopes.size) :
    (b.modifyTable id f).main.scopes.size = b.main.scopes.size := by
  cases id with
  | main => exact h _
  | inner => rfl

theorem main_setModuleScope (key : NodeKey) (inner : ScopeId) :
    (b.setModuleScope id key inner).main.scopes.size = b.main.scopes.size :=
  main_modifyTable fun _ => rfl

theorem main_putBoth (name : String) (value : ValueSymbol) (type : TypeSymbol) :
    ((b.putValue id name value).putType id name type).main.scopes.size = b.main.scopes.size :=
  (main_modifyTable fun _ => Array.size_modify).trans (main_modifyTable fun _ => Array.size_modify)

end Bindings

namespace Pairing

variable {core : Path → Prop} {w : Pairing core} {b b' : Bindings} {id id' : ScopeId} {n : Nat}

/-- Tables that stand under corresponding scopes and hold the same. -/
structure Tables (w : Pairing core) (id id' : ScopeId) (t t' : Table) : Prop where
  scope : ∀ {i i'}, w.Scopes (id.beside i) (id'.beside i') → Option.Rel w.Contents t.scopes[i]? t'.scopes[i']?
  module : ∀ key : NodeKey, core key.file → Option.Rel w.Scopes (t.moduleScopes.get? key) (t'.moduleScopes.get? key)
  redeclared : ∀ key : NodeKey, core key.file → (key ∈ t.redeclared ↔ key ∈ t'.redeclared)

theorem Agree.tables (h : w.Agree b b') (hid : w.Scopes id id') : w.Tables id id' (b.tableOf id) (b'.tableOf id') where
  scope {i i'} hi := by
    have hrel := h.scope hi
    unfold Bindings.scopeIn? at hrel
    rwa [ScopeId.index_beside, ScopeId.index_beside, Bindings.tableOf_congr (id.home_beside i),
      Bindings.tableOf_congr (id'.home_beside i')] at hrel
  module := h.module hid
  redeclared := h.redeclared hid

/-- Bindings agree when their tables do. -/
theorem Agree.of_tables {c c' : Bindings} (h : w.Agree b b') (hrest : c = { b with main := c.main, bodies := c.bodies })
    (hrest' : c' = { b' with main := c'.main, bodies := c'.bodies })
    (htable : ∀ {x x'}, w.Scopes x x' → (c.HasTable x ↔ c'.HasTable x'))
    (htables : ∀ {x x'}, w.Scopes x x' → w.Tables x x' (c.tableOf x) (c'.tableOf x')) : w.Agree c c' where
  program := by
    rw [hrest, hrest']
    exact h.program
  table := htable
  scope {x x'} hx := by
    have hrel := @(htables hx).scope x.index x'.index
    rw [ScopeId.beside_index, ScopeId.beside_index] at hrel
    exact hrel hx
  module hx := (htables hx).module
  redeclared hx := (htables hx).redeclared
  opened hx := by
    rw [hrest, hrest']
    exact h.opened hx
  fileScopes path hpath := by
    rw [hrest, hrest']
    exact h.fileScopes path hpath
  modules path hpath := by
    rw [hrest, hrest']
    exact h.modules path hpath
  ambient := by
    rw [hrest, hrest']
    exact h.ambient

theorem Agree.modifyTable (h : w.Agree b b') (hid : w.Scopes id id') {f f' : Table → Table}
    (hf : ∀ {x x'}, w.Scopes x x' → x.home = id.home → w.Tables x x' (f (b.tableOf x)) (f' (b'.tableOf x'))) :
    w.Agree (b.modifyTable id f) (b'.modifyTable id' f') := by
  refine h.of_tables Bindings.modifyTable_rest Bindings.modifyTable_rest (fun hx => ?_) fun {x x'} hx => ?_
  · rw [Bindings.hasTable_modifyTable, Bindings.hasTable_modifyTable]
    exact h.table hx
  · by_cases hhas : b.HasTable id
    · rw [Bindings.tableOf_modifyTable_of_has hhas, Bindings.tableOf_modifyTable_of_has ((h.table hid).mp hhas)]
      by_cases hhome : x.home = id.home
      · rw [if_pos hhome, if_pos ((hx.home_eq_iff hid).mp hhome)]
        exact hf hx hhome
      · rw [if_neg hhome, if_neg fun hhome' => hhome ((hx.home_eq_iff hid).mpr hhome')]
        exact h.tables hx
    · rw [Bindings.modifyTable_of_not_has hhas, Bindings.modifyTable_of_not_has fun hhas' => hhas ((h.table hid).mpr hhas')]
      exact h.tables hx

/-! ## Steps of the binder -/

/-- Bindings that agree, and in which the next scopes that the files share will correspond, up to a number. -/
structure Ready (w : Pairing core) (n : Nat) (b b' : Bindings) : Prop extends w.Agree b b' where
  aligned : ∀ j, b.main.scopes.size + j < n → w.main (b.main.scopes.size + j) (b'.main.scopes.size + j)

namespace Ready

theorem mono {m : Nat} (h : w.Ready n b b') (hm : m ≤ n) : w.Ready m b b' :=
  ⟨h.toAgree, fun j hj => h.aligned j (by omega)⟩

theorem modifyTable (h : w.Ready n b b') (hid : w.Scopes id id') {f f' : Table → Table}
    (hf : ∀ {x x'}, w.Scopes x x' → x.home = id.home → w.Tables x x' (f (b.tableOf x)) (f' (b'.tableOf x')))
    (hsize : ∀ t, (f t).scopes.size = t.scopes.size) (hsize' : ∀ t, (f' t).scopes.size = t.scopes.size) :
    w.Ready n (b.modifyTable id f) (b'.modifyTable id' f') := by
  refine ⟨h.toAgree.modifyTable hid hf, ?_⟩
  rw [Bindings.main_modifyTable hsize, Bindings.main_modifyTable hsize']
  exact h.aligned

theorem modifyScope (h : w.Ready n b b') (hid : w.Scopes id id') {f f' : Scope → Scope}
    (hf : ∀ s s', w.Contents s s' → w.Contents (f s) (f' s')) :
    w.Ready n (b.modifyScope id f) (b'.modifyScope id' f') := by
  refine h.modifyTable hid (fun {x x'} hx hhome => ?_) (fun t => Array.size_modify) fun t => Array.size_modify
  have htables := h.tables hx
  refine ⟨fun {i i'} hi => ?_, htables.module, htables.redeclared⟩
  have hhome' : x'.home = id'.home := (hx.home_eq_iff hid).mp hhome
  have hindex : id.index = i ↔ id'.index = i' := by
    have heq := hid.eq_iff hi
    rw [id.eq_iff_home, id'.eq_iff_home, ScopeId.home_beside, ScopeId.home_beside, ScopeId.index_beside,
      ScopeId.index_beside] at heq
    simpa [hhome, hhome'] using heq
  dsimp only
  rw [Array.getElem?_modify, Array.getElem?_modify]
  by_cases hi' : id.index = i
  · rw [if_pos hi', if_pos (hindex.mp hi')]
    obtain ⟨hs, hs'⟩ | ⟨s, s', hs, hs', hrel⟩ := none_or_some_of_rel (htables.scope hi)
    · rw [hs, hs']
      exact .none
    · rw [hs, hs']
      exact .some (hf s s' hrel)
  · rw [if_neg hi', if_neg fun hi'' => hi' (hindex.mpr hi'')]
    exact htables.scope hi


theorem redeclare (h : w.Ready n b b') (hid : w.Scopes id id') (keys : List NodeKey) :
    w.Ready n (b.modifyTable id fun t => { t with redeclared := keys ++ t.redeclared })
      (b'.modifyTable id' fun t => { t with redeclared := keys ++ t.redeclared }) := by
  refine h.modifyTable hid (fun hx _ => ?_) (fun _ => rfl) fun _ => rfl
  have htables := h.tables hx
  refine ⟨htables.scope, htables.module, fun key hkey => ?_⟩
  rw [List.mem_append, List.mem_append, htables.redeclared key hkey]

theorem setModuleScope (h : w.Ready n b b') (hid : w.Scopes id id') (key : NodeKey) {inner inner' : ScopeId}
    (hinner : w.Scopes inner inner') : w.Ready n (b.setModuleScope id key inner) (b'.setModuleScope id' key inner') := by
  refine h.modifyTable hid (fun hx _ => ?_) (fun _ => rfl) fun _ => rfl
  have htables := h.tables hx
  refine ⟨htables.scope, fun other hother => ?_, htables.redeclared⟩
  dsimp only
  rw [Dict.get?_insert, Dict.get?_insert]
  split
  · exact .some hinner
  · exact htables.module other hother

/-- A new scope, which holds nothing. -/
theorem contents_inside {parent parent' : Option ScopeId} (h : Option.Rel w.Scopes parent parent') :
    w.Contents (.inside parent) (.inside parent') :=
  ⟨h, fun _ => .none, fun _ => .none, fun _ => rfl, nofun, ⟨fun _ => .none, fun _ => .none, rfl, nofun, .none⟩⟩

/-- Tables of corresponding bodies have scopes of the same numbers. -/
theorem size_inner (h : w.Agree b b') {body : Body} {parent parent' : ScopeId} {i : Nat}
    (hid : w.Scopes (.inner body parent i) (.inner body parent' i)) :
    (b.tableOf (.inner body parent i)).scopes.size = (b'.tableOf (.inner body parent' i)).scopes.size := by
  have hlt (j : Nat) : j < (b.tableOf (.inner body parent i)).scopes.size ↔
      j < (b'.tableOf (.inner body parent' i)).scopes.size := by
    have hj : w.Scopes (.inner body parent j) (.inner body parent' j) := by
      obtain ⟨_, heq, hfile, hparent⟩ := hid.index_inner
      cases heq
      exact .inner hfile hparent
    have hrel := @(h.tables hid).scope j j hj
    obtain ⟨hs, hs'⟩ | ⟨s, s', hs, hs', -⟩ := none_or_some_of_rel hrel
    · rw [Array.getElem?_eq_none_iff] at hs hs'
      omega
    · exact ⟨fun _ => (Array.getElem?_eq_some_iff.mp hs').1, fun _ => (Array.getElem?_eq_some_iff.mp hs).1⟩
  exact Nat.le_antisymm (Nat.le_of_not_lt fun h => absurd ((hlt _).mp h) (Nat.lt_irrefl _))
    (Nat.le_of_not_lt fun h => absurd ((hlt _).mpr h) (Nat.lt_irrefl _))

theorem scopes_newScope (h : w.Ready n b b') (hid : w.Scopes id id') (hn : (b.newScope id).2.main.scopes.size ≤ n) :
    w.Scopes (b.newScope id).1 (b'.newScope id').1 := by
  cases hid with
  | main hmain =>
    rw [Bindings.main_newScope] at hn
    exact .main (h.aligned 0 (by omega))
  | inner hfile hparent =>
    unfold Bindings.newScope
    rw [size_inner h.toAgree (.inner hfile hparent)]
    exact .inner hfile hparent

theorem newScope (h : w.Ready n b b') (hid : w.Scopes id id') (hn : (b.newScope id).2.main.scopes.size ≤ n) :
    w.Ready n (b.newScope id).2 (b'.newScope id').2 := by
  have hnew := h.scopes_newScope hid hn
  refine ⟨?_, fun j hj => ?_⟩
  · rw [Bindings.snd_newScope, Bindings.snd_newScope]
    refine h.toAgree.modifyTable hid fun {x x'} hx hhome => ?_
    have htables := h.tables hx
    refine ⟨fun {i i'} hi => ?_, htables.module, htables.redeclared⟩
    have hhome' : x'.home = id'.home := (hx.home_eq_iff hid).mp hhome
    have hlast : i = (b.tableOf x).scopes.size ↔ i' = (b'.tableOf x').scopes.size := by
      have heq := hi.eq_iff hnew
      rw [ScopeId.eq_iff_home, ScopeId.eq_iff_home (x'.beside i')] at heq
      simp only [Bindings.newScope, ScopeId.home_beside, ScopeId.index_beside, hhome, hhome', true_and] at heq
      rwa [Bindings.tableOf_congr hhome, Bindings.tableOf_congr hhome']
    dsimp only
    rw [Array.getElem?_push, Array.getElem?_push]
    by_cases hi' : i = (b.tableOf x).scopes.size
    · rw [if_pos hi', if_pos (hlast.mp hi')]
      exact .some (contents_inside (.some hid))
    · rw [if_neg hi', if_neg fun hi'' => hi' (hlast.mpr hi'')]
      exact htables.scope hi
  · cases hid with
    | main hmain =>
      rw [Bindings.main_newScope] at hj
      rw [Bindings.main_newScope, Bindings.main_newScope, Nat.add_assoc, Nat.add_assoc]
      exact h.aligned (1 + j) (by omega)
    | inner => exact h.aligned j hj

/-! ### Names and exports -/

theorem valueIn? (h : w.Agree b b') (hid : w.Scopes id id') (name : String) :
    Option.Rel w.Values (b.valueIn? id name) (b'.valueIn? id' name) := by
  rw [Bindings.valueIn?_eq, Bindings.valueIn?_eq]
  obtain ⟨hs, hs'⟩ | ⟨s, s', hs, hs', hrel⟩ := none_or_some_of_rel (h.scope hid)
  · rw [hs, hs']
    exact .none
  · rw [hs, hs']
    exact hrel.values name

theorem typeIn? (h : w.Agree b b') (hid : w.Scopes id id') (name : String) :
    Option.Rel w.Types (b.typeIn? id name) (b'.typeIn? id' name) := by
  rw [Bindings.typeIn?_eq, Bindings.typeIn?_eq]
  obtain ⟨hs, hs'⟩ | ⟨s, s', hs, hs', hrel⟩ := none_or_some_of_rel (h.scope hid)
  · rw [hs, hs']
    exact .none
  · rw [hs, hs']
    exact hrel.types name

theorem modifyExports (h : w.Ready n b b') (hid : w.Scopes id id') {f f' : Exports → Exports}
    (hf : ∀ e e', w.Offers e e' → w.Offers (f e) (f' e')) :
    w.Ready n (b.modifyExports id f) (b'.modifyExports id' f') :=
  h.modifyScope hid fun _ _ hs => { hs with exports := hf _ _ hs.exports }

section

variable {name : String} {value value' : ValueSymbol} {type type' : TypeSymbol} {container container' : Option ScopeId}

theorem putValue (h : w.Ready n b b') (hid : w.Scopes id id') (hvalue : w.Values value value') :
    w.Ready n (b.putValue id name value) (b'.putValue id' name value') :=
  h.modifyScope hid fun _ _ hs => { hs with values := hs.values.insert hvalue }

theorem putType (h : w.Ready n b b') (hid : w.Scopes id id') (htype : w.Types type type') :
    w.Ready n (b.putType id name type) (b'.putType id' name type') :=
  h.modifyScope hid fun _ _ hs => { hs with types := hs.types.insert htype }

theorem blockScoped? (hvalue : w.Values value value') : Bindings.blockScoped? value = Bindings.blockScoped? value' := by
  cases hvalue with
  | declarator h => simp only [Bindings.blockScoped?, h.file]
  | _ => rfl

theorem declareValue (h : w.Ready n b b') (hid : w.Scopes id id') (hvalue : w.Values value value') :
    w.Ready n (b.declareValue id name value) (b'.declareValue id' name value') := by
  unfold Bindings.declareValue
  obtain ⟨hs, hs'⟩ | ⟨s, s', hs, hs', hrel⟩ := none_or_some_of_rel (valueIn? h.toAgree hid name)
  · rw [hs, hs']
    exact h.putValue hid hvalue
  · rw [hs, hs']
    dsimp only
    rw [blockScoped? hrel, blockScoped? hvalue]
    split
    · rename_i k kBlock l lBlock _ _
      split
      · exact h.redeclare hid [l, k]
      · exact h
    · exact h

theorem declareImport (h : w.Ready n b b') (hid : w.Scopes id id') {binding : ImportBinding} (hbinding : core binding.importer) :
    w.Ready n (b.declareImport id binding) (b'.declareImport id' binding) := by
  unfold Bindings.declareImport
  split
  · exact (h.putValue hid (.imported hbinding)).putType hid (.imported hbinding)
  · exact h

theorem declareInterface (h : w.Ready n b b') {site site' : Site} (hsite : w.Sites site site') (decl : InterfaceDecl) :
    w.Ready n (b.declareInterface site decl) (b'.declareInterface site' decl) := by
  refine h.modifyScope hsite.scope fun s s' hs => ?_
  refine { hs with
    types := hs.types.insertNew (.interface hsite.scope)
    interfaces := fun name => ?_
    files := fun name decls hdecls d hd => ?_ }
  · dsimp only
    rw [Dict.get?_insert, Dict.get?_insert, hs.interfaces, hs.interfaces, hsite.file]
  · dsimp only at hdecls
    rw [Dict.get?_insert] at hdecls
    split at hdecls
    · cases hdecls
      rcases List.mem_append.mp hd with hd | hd
      · cases hget : s.interfaces.get? decl.name.name with
        | none =>
          rw [hget] at hd
          exact nomatch hd
        | some before =>
          rw [hget] at hd
          exact hs.files _ _ hget d hd
      · rw [List.mem_singleton.mp hd]
        exact hsite.core
    · exact hs.files name decls hdecls d hd

theorem exportValue (h : w.Ready n b b') (hcontainer : Option.Rel w.Scopes container container') (hvalue : w.Values value value') :
    w.Ready n (b.exportValue container name value) (b'.exportValue container' name value') := by
  cases hcontainer with
  | some hid =>
    change w.Ready n (b.modifyExports _ fun e => { e with values := e.values.insertNew name value })
      (b'.modifyExports _ fun e => { e with values := e.values.insertNew name value' })
    exact h.modifyExports hid fun _ _ he => { he with values := he.values.insertNew hvalue }
  | none => exact h

theorem exportType (h : w.Ready n b b') (hcontainer : Option.Rel w.Scopes container container') (htype : w.Types type type') :
    w.Ready n (b.exportType container name type) (b'.exportType container' name type') := by
  cases hcontainer with
  | some hid =>
    change w.Ready n (b.modifyExports _ fun e => { e with types := e.types.insertNew name type })
      (b'.modifyExports _ fun e => { e with types := e.types.insertNew name type' })
    exact h.modifyExports hid fun _ _ he => { he with types := he.types.insertNew htype }
  | none => exact h

theorem exportImport (h : w.Ready n b b') (hcontainer : Option.Rel w.Scopes container container') {binding : ImportBinding}
    (hbinding : core binding.importer) :
    w.Ready n (b.exportImport container name binding) (b'.exportImport container' name binding) :=
  (h.exportValue hcontainer (.imported hbinding)).exportType hcontainer (.imported hbinding)

end

theorem foldl {α : Type} {f f' : Bindings → α → Bindings} (xs : List α) (h : w.Ready n b b')
    (hf : ∀ c c', w.Ready n c c' → ∀ x ∈ xs, w.Ready n (f c x) (f' c' x)) : w.Ready n (xs.foldl f b) (xs.foldl f' b') := by
  induction xs generalizing b b' with
  | nil => exact h
  | cons x xs ih =>
    exact ih (hf b b' h x List.mem_cons_self) fun c c' hc y hy => hf c c' hc y (List.mem_cons_of_mem _ hy)

end Ready

/-! ## Statements -/

/-- Places where a core file binds its statements. -/
structure Places (w : Pairing core) (p p' : Bindings.Place) : Prop where
  scope : w.Scopes p.scope p'.scope
  container : Option.Rel w.Scopes p.container p'.container
  home : p.home = p'.home
  importer : p.importer = p'.importer
  imports : core p.importer
  core : core p.home
  implicitExport : p.implicitExport = p'.implicitExport

theorem Places.site {p p' : Bindings.Place} (hp : w.Places p p') : w.Sites p.site p'.site := ⟨hp.home, hp.core, hp.scope⟩

theorem Places.binding {p p' : Bindings.Place} (hp : w.Places p p') (specifier : String) (name : ImportName)
    (localName : Option Ident) : p.binding specifier name localName = p'.binding specifier name localName := by
  unfold Bindings.Place.binding
  rw [hp.importer, hp.home]

namespace Ready

variable {p p' : Bindings.Place} (h : w.Ready n b b') (hp : w.Places p p')

include h hp

theorem exportIf (exported : Bool) {name : String} {value value' : ValueSymbol} (hvalue : w.Values value value') :
    w.Ready n (if exported then b.exportValue p.container name value else b)
      (if exported then b'.exportValue p'.container name value' else b') := by
  split
  · exact h.exportValue hp.container hvalue
  · exact h

theorem exportTypeIf (exported : Bool) {name : String} {type type' : TypeSymbol} (htype : w.Types type type') :
    w.Ready n (if exported then b.exportType p.container name type else b)
      (if exported then b'.exportType p'.container name type' else b') := by
  split
  · exact h.exportType hp.container htype
  · exact h

theorem bindDeclarators (kind : VariableKind) (exported : Bool) (decls : List Declarator) :
    w.Ready n (Bindings.bindDeclarators p kind exported decls b) (Bindings.bindDeclarators p' kind exported decls b') := by
  refine foldl decls h fun c c' hc decl _ => ?_
  exact (hc.declareValue hp.scope (.declarator hp.site)).exportIf hp exported (.declarator hp.site)

theorem bindFunction (exported : Bool) (decl : FunctionDecl) :
    w.Ready n (Bindings.bindFunction p exported decl b) (Bindings.bindFunction p' exported decl b') := by
  unfold Bindings.bindFunction
  have hvalue : w.Values (.function decl p.site) (.function decl p'.site) := .function hp.site
  refine exportIf ?_ hp _ hvalue
  split
  · exact (h.declareValue hp.scope hvalue).exportIf hp _ hvalue
  · exact h

theorem bindInterface (exported : Bool) (decl : InterfaceDecl) :
    w.Ready n (Bindings.bindInterface p exported decl b) (Bindings.bindInterface p' exported decl b') := by
  unfold Bindings.bindInterface
  have htype : w.Types (.interface decl.name.name p.scope) (.interface decl.name.name p'.scope) := .interface hp.scope
  have hdeclared := h.declareInterface hp.site decl
  dsimp only
  split
  · exact hdeclared.exportType hp.container htype
  · exact hdeclared.exportTypeIf hp _ htype

theorem bindAlias (exported : Bool) (decl : TypeAlias) :
    w.Ready n (Bindings.bindAlias p exported decl b) (Bindings.bindAlias p' exported decl b') :=
  (h.putType hp.scope (.typeAlias hp.site)).exportTypeIf hp _ (.typeAlias hp.site)

theorem bindImport (decl : ImportDecl) : w.Ready n (Bindings.bindImport p decl b) (Bindings.bindImport p' decl b') := by
  unfold Bindings.bindImport
  simp only [← hp.binding]
  refine foldl _ h fun c c' hc binding hbinding => hc.declareImport hp.scope ?_
  have himporter : binding.importer = p.importer := by
    simp only [List.mem_append, List.mem_map] at hbinding
    rcases hbinding with (⟨_, _, rfl⟩ | ⟨_, _, rfl⟩) | ⟨_, _, rfl⟩ <;> rfl
  exact himporter ▸ hp.imports

theorem bindImportEquals (decl : ImportEquals) :
    w.Ready n (Bindings.bindImportEquals p decl b) (Bindings.bindImportEquals p' decl b') := by
  unfold Bindings.bindImportEquals
  simp only [← hp.binding]
  have hdeclared : w.Ready n (b.declareImport p.scope (p.binding decl.source.value .equals (some decl.name)))
      (b'.declareImport p'.scope (p.binding decl.source.value .equals (some decl.name))) := h.declareImport hp.scope hp.imports
  split
  · exact hdeclared.exportImport hp.container hp.imports
  · exact hdeclared

theorem bindExport (decl : ExportDecl) : w.Ready n (Bindings.bindExport p decl b) (Bindings.bindExport p' decl b') := by
  unfold Bindings.bindExport
  simp only [← hp.binding]
  split
  · exact h
  · exact foldl _ h fun c c' hc s _ => hc.exportImport hp.container hp.imports
  · rename_i source _
    obtain ⟨hc, hc'⟩ | ⟨c, c', hc, hc', hrel⟩ := none_or_some_of_rel hp.container
    · rw [hc, hc']
      exact h
    · rw [hc, hc']
      refine h.modifyExports hrel fun e e' he => { he with
        stars := by rw [he.stars, hp.importer]
        importers := fun star hstar => ?_ }
      rcases List.mem_append.mp hstar with hstar | hstar
      · exact he.importers star hstar
      · exact List.mem_singleton.mp hstar ▸ hp.imports
  · exact h.exportImport hp.container hp.imports
  · exact h.exportValue hp.container (.expr hp.site)
  · rename_i expr _
    obtain ⟨hc, hc'⟩ | ⟨c, c', hc, hc', hrel⟩ := none_or_some_of_rel hp.container
    · rw [hc, hc']
      exact h
    · rw [hc, hc']
      exact h.modifyExports hrel fun e e' he => { he with assigned := .some ⟨rfl, hp.site⟩ }

/-- What a scope binds as a type is exported as one. -/
theorem exportBoundType (name exportedName : String) :
    w.Ready n
      (match b.typeIn? p.scope name with
        | some symbol => b.exportType p.container exportedName symbol
        | none => b)
      (match b'.typeIn? p'.scope name with
        | some symbol => b'.exportType p'.container exportedName symbol
        | none => b') := by
  obtain ⟨hs, hs'⟩ | ⟨s, s', hs, hs', hrel⟩ := none_or_some_of_rel (typeIn? h.toAgree hp.scope name)
  · rw [hs, hs']
    exact h
  · rw [hs, hs']
    exact h.exportType hp.container hrel

theorem exportLocal (name exportedName : String) :
    w.Ready n (Bindings.exportLocal p name exportedName b) (Bindings.exportLocal p' name exportedName b') := by
  refine exportBoundType ?_ hp name exportedName
  obtain ⟨hs, hs'⟩ | ⟨s, s', hs, hs', hrel⟩ := none_or_some_of_rel (valueIn? h.toAgree hp.scope name)
  · rw [hs, hs']
    exact h
  · rw [hs, hs']
    exact h.exportValue hp.container hrel

theorem bindLocalExports (statements : List Statement) :
    w.Ready n (Bindings.bindLocalExports p statements b) (Bindings.bindLocalExports p' statements b') := by
  unfold Bindings.bindLocalExports
  have hlists := foldl (Bindings.localExports statements) h fun c c' hc s _ =>
    hc.exportLocal hp s.localName.name s.exportedName.name
  dsimp only
  split
  · exact hlists
  · exact hlists.exportBoundType hp _ "default"

end Ready

end Pairing

/-! ## Modules -/

/-- No scope that the files share is taken away. -/
theorem Fills.main_le {E : Entries} {b b' : Bindings} (h : Fills E b b') : b.main.scopes.size ≤ b'.main.scopes.size := by
  by_contra hlt
  obtain ⟨s, hs, -⟩ := h.scopes (.main b'.main.scopes.size) _
    (Array.getElem?_eq_some_iff.mpr ⟨Nat.lt_of_not_le hlt, rfl⟩)
  exact absurd (Array.getElem?_eq_some_iff.mp hs).1 (Nat.lt_irrefl _)

theorem Bindings.main_le_openNamespaces (b : Bindings) (p : Place) (exported : Bool) (name : String) (names : List String) :
    (b.namespaceScope p.scope name).2.main.scopes.size ≤ (openNamespaces p exported (name :: names) b).2.main.scopes.size := by
  unfold openNamespaces
  exact (Fills.exportNamespace.trans (Fills.any_openNamespaces true names)).main_le

namespace Pairing

variable {core : Path → Prop} {w : Pairing core} {b b' : Bindings} {id id' : ScopeId} {n : Nat}

namespace Ready

theorem namespaceScope (h : w.Ready n b b') (hid : w.Scopes id id') (name : String)
    (hn : (b.namespaceScope id name).2.main.scopes.size ≤ n) :
    w.Scopes (b.namespaceScope id name).1 (b'.namespaceScope id' name).1 ∧
      w.Ready n (b.namespaceScope id name).2 (b'.namespaceScope id' name).2 := by
  have hopen (hsize : (b.newScope id).2.main.scopes.size ≤ n) :
      let c := b.newScope id
      let c' := b'.newScope id'
      w.Scopes c.1 c'.1 ∧ w.Ready n
        ((c.2.putValue id name (.ofModule (.container c.1))).putType id name (.ofModule (.container c.1)))
        ((c'.2.putValue id' name (.ofModule (.container c'.1))).putType id' name (.ofModule (.container c'.1))) := by
    have hnew := h.scopes_newScope hid hsize
    exact ⟨hnew, ((h.newScope hid hsize).putValue hid (.ofModule (.container hnew))).putType hid (.ofModule (.container hnew))⟩
  have hsize : (((b.newScope id).2.putValue id name (.ofModule (.container (b.newScope id).1))).putType id name
      (.ofModule (.container (b.newScope id).1))).main.scopes.size = (b.newScope id).2.main.scopes.size :=
    Bindings.main_putBoth ..
  unfold Bindings.namespaceScope at hn ⊢
  obtain ⟨hs, hs'⟩ | ⟨s, s', hs, hs', hrel⟩ := none_or_some_of_rel (valueIn? h.toAgree hid name)
  · rw [hs] at hn
    rw [hs, hs']
    exact hopen (hsize.symm ▸ hn)
  · rw [hs] at hn
    rw [hs, hs']
    cases hrel with
    | ofModule href =>
      cases href with
      | container hc => exact ⟨hc, h⟩
      | untyped | unresolved => exact hopen (hsize.symm ▸ hn)
    | _ => exact hopen (hsize.symm ▸ hn)

variable {p p' : Bindings.Place}

theorem openNamespaces (h : w.Ready n b b') (hp : w.Places p p') (exported : Bool) (names : List String)
    (hn : (Bindings.openNamespaces p exported names b).2.main.scopes.size ≤ n) :
    w.Places (Bindings.openNamespaces p exported names b).1 (Bindings.openNamespaces p' exported names b').1 ∧
      w.Ready n (Bindings.openNamespaces p exported names b).2 (Bindings.openNamespaces p' exported names b').2 := by
  induction names generalizing p p' exported b b' with
  | nil => exact ⟨hp, h⟩
  | cons name names ih =>
    obtain ⟨hinner, hopened⟩ := h.namespaceScope hp.scope name ((b.main_le_openNamespaces p exported name names).trans hn)
    unfold Bindings.openNamespaces at hn ⊢
    have hplace : w.Places
        { p with scope := (b.namespaceScope p.scope name).1, container := some (b.namespaceScope p.scope name).1 }
        { p' with scope := (b'.namespaceScope p'.scope name).1, container := some (b'.namespaceScope p'.scope name).1 } :=
      { hp with scope := hinner, container := .some hinner }
    refine ih ?_ hplace true hn
    split
    · exact (hopened.exportValue hp.container (.ofModule (.container hinner))).exportType hp.container
        (.ofModule (.container hinner))
    · exact hopened

theorem openModule (h : w.Ready n b b') (hp : w.Places p p') (start : Nat) (exported ambient : Bool) (name : ModuleName)
    (hn : (Bindings.openModule p ⟨.moduleDecl, p.home, start⟩ exported ambient name b).2.main.scopes.size ≤ n) :
    w.Places (Bindings.openModule p ⟨.moduleDecl, p.home, start⟩ exported ambient name b).1
        (Bindings.openModule p' ⟨.moduleDecl, p'.home, start⟩ exported ambient name b').1 ∧
      w.Ready n (Bindings.openModule p ⟨.moduleDecl, p.home, start⟩ exported ambient name b).2
        (Bindings.openModule p' ⟨.moduleDecl, p'.home, start⟩ exported ambient name b').2 := by
  rw [← hp.home]
  cases name with
  | global span =>
    exact ⟨{ hp with scope := .global, container := .none, implicitExport := rfl },
      h.setModuleScope hp.scope _ .global⟩
  | ambient specifier =>
    unfold Bindings.openModule at hn ⊢
    rw [Bindings.main_setModuleScope] at hn
    have hinner := h.scopes_newScope hp.scope hn
    exact ⟨{ hp with scope := hinner, container := .some hinner, implicitExport := rfl },
      (h.newScope hp.scope hn).setModuleScope hp.scope _ hinner⟩
  | named ident =>
    unfold Bindings.openModule at hn ⊢
    rw [Bindings.main_setModuleScope] at hn
    obtain ⟨hplace, hopened⟩ := h.openNamespaces hp exported _ hn
    exact ⟨{ hplace with implicitExport := rfl }, hopened.setModuleScope hp.scope _ hplace.scope⟩

theorem addAmbient (h : w.Ready n b b') (name : ModuleName) {ref ref' : ModuleRef} (href : w.Refs ref ref') :
    w.Ready n (Bindings.addAmbient name ref b) (Bindings.addAmbient name ref' b') := by
  cases name with
  | ambient specifier => exact ⟨{ h.toAgree with ambient := List.rel_append h.ambient (.cons ⟨rfl, href⟩ .nil) }, h.aligned⟩
  | global | named => exact h

theorem bindBodiless (h : w.Ready n b b') (hp : w.Places p p') (exported : Bool) (name : ModuleName)
    (hn : (Bindings.bindBodiless p exported name b).main.scopes.size ≤ n) :
    w.Ready n (Bindings.bindBodiless p exported name b) (Bindings.bindBodiless p' exported name b') := by
  cases name with
  | global span => exact h
  | ambient specifier => exact h.addAmbient (.ambient specifier) .untyped
  | named ident => exact (h.openNamespaces hp exported _ hn).2

/-! ## All statements -/

mutual

theorem bindStatement {p p' : Bindings.Place} (hp : w.Places p p') {b b' : Bindings} (h : w.Ready n b b') : ∀ s : Statement,
    (Bindings.bindStatement p s b).main.scopes.size ≤ n →
      w.Ready n (Bindings.bindStatement p s b) (Bindings.bindStatement p' s b')
  | .moduleDecl ⟨modifiers, name, some body, span⟩, hn => by
    rw [Bindings.bindStatement] at hn ⊢
    rw [Bindings.bindStatement, ← hp.implicitExport]
    dsimp only at hn ⊢
    generalize hexported : (modifiers.exported || p.implicitExport) = exported at hn ⊢
    generalize hambient : (p.implicitExport || modifiers.declared) = ambient at hn ⊢
    have hbound : (Bindings.bindEach (Bindings.openModule p ⟨.moduleDecl, p.home, span.start⟩ exported ambient name b).1 body
        (Bindings.openModule p ⟨.moduleDecl, p.home, span.start⟩ exported ambient name b).2).main.scopes.size ≤ n :=
      (Fills.bindLocalExports.trans (Fills.addAmbient (E := .any) name _)).main_le.trans hn
    obtain ⟨hplace, hopened⟩ := h.openModule hp span.start exported ambient name
      ((Fills.any_bindEach _ _ body).main_le.trans hbound)
    refine addAmbient (bindLocalExports (bindEach hplace hopened body hbound) hplace body) name ?_
    obtain ⟨hc, hc'⟩ | ⟨c, c', hc, hc', hrel⟩ := none_or_some_of_rel hplace.container
    · rw [hc, hc']
      exact .untyped
    · rw [hc, hc']
      exact .container hrel
  | .moduleDecl ⟨modifiers, name, none, span⟩, hn => by
    rw [Bindings.bindStatement] at hn ⊢
    rw [Bindings.bindStatement, ← hp.implicitExport]
    exact h.bindBodiless hp _ name hn
  | .variableDecl d, _ => by
    rw [Bindings.bindStatement, Bindings.bindStatement, ← hp.implicitExport]
    exact h.bindDeclarators hp d.kind _ d.declarators
  | .function d, _ => by
    rw [Bindings.bindStatement, Bindings.bindStatement, ← hp.implicitExport]
    exact h.bindFunction hp _ d
  | .interface d, _ => by
    rw [Bindings.bindStatement, Bindings.bindStatement, ← hp.implicitExport]
    exact h.bindInterface hp _ d
  | .typeAlias d, _ => by
    rw [Bindings.bindStatement, Bindings.bindStatement, ← hp.implicitExport]
    exact h.bindAlias hp _ d
  | .importDecl d, _ => by
    rw [Bindings.bindStatement, Bindings.bindStatement]
    exact h.bindImport hp d
  | .importEquals d, _ => by
    rw [Bindings.bindStatement, Bindings.bindStatement]
    exact h.bindImportEquals hp d
  | .exportDecl d, _ => by
    rw [Bindings.bindStatement, Bindings.bindStatement]
    exact h.bindExport hp d
  | .ifElse _, _ | .block _, _ | .expression _, _ | .ret _, _ | .empty _, _ | .error _, _ => h

theorem bindEach {p p' : Bindings.Place} (hp : w.Places p p') {b b' : Bindings} (h : w.Ready n b b') :
    ∀ statements : List Statement,
    (Bindings.bindEach p statements b).main.scopes.size ≤ n →
      w.Ready n (Bindings.bindEach p statements b) (Bindings.bindEach p' statements b')
  | [], _ => h
  | s :: rest, hn => by
    rw [Bindings.bindEach] at hn ⊢
    rw [Bindings.bindEach]
    exact bindEach hp (bindStatement hp h s ((Fills.any_bindEach p _ rest).main_le.trans hn)) rest hn

end

theorem bindBody (h : w.Ready n b b') (hp : w.Places p p') (statements : List Statement)
    (hn : (Bindings.bindBody p statements b).main.scopes.size ≤ n) :
    w.Ready n (Bindings.bindBody p statements b) (Bindings.bindBody p' statements b') :=
  (h.bindEach hp statements ((Fills.bindLocalExports (E := .any)).main_le.trans hn)).bindLocalExports hp statements

end Ready

end Pairing

end Recheck.Check
