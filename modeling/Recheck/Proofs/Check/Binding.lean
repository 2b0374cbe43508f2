import Recheck.Check.Lookup
import Recheck.Proofs.Data.Dict

/-!
# What binding leaves behind

Statements are bound into tables of scopes. `Rights` say what may come to stand in them, and `Bound` says that nothing
else stands there, that each scope lies in an earlier one of its table or in the one around the body, and that what the
tables refer to exists. `Binds` says in addition what a step of the binder leaves alone: the tables outside its reach, and
the scopes of all modules but those it comes across.
-/

set_option autoImplicit false

namespace Recheck.Check

open Syntax

/-! ## Tables and scopes -/

namespace ScopeId

/-- The outermost scope of the same table. -/
def home (id : ScopeId) : ScopeId := id.beside 0

@[simp] theorem home_beside (id : ScopeId) (n : Nat) : (id.beside n).home = id.home := by cases id <;> rfl

@[simp] theorem index_beside (id : ScopeId) (n : Nat) : (id.beside n).index = n := by cases id <;> rfl

@[simp] theorem beside_index (id : ScopeId) : id.beside id.index = id := by cases id <;> rfl

theorem eq_iff_home (id id' : ScopeId) : id = id' ↔ id.home = id'.home ∧ id.index = id'.index := by
  cases id <;> cases id' <;> simp [home, beside, index, and_assoc]

theorem eq_beside_of_home {id id' : ScopeId} (h : id'.home = id.home) : id' = id.beside id'.index := by
  rw [eq_iff_home]
  simp [h]

end ScopeId

namespace Bindings

variable (b : Bindings)

/-- A scope in the table that is bound for it. -/
def scopeIn? (id : ScopeId) : Option Scope := (b.tableOf id).scopes[id.index]?

def moduleIn? (id : ScopeId) (key : NodeKey) : Option ScopeId := (b.tableOf id).moduleScopes.get? key

def Has (id : ScopeId) : Prop := (b.scopeIn? id).isSome

variable {b} {id id' : ScopeId} {f : Table → Table} {g : Scope → Scope}

theorem tableOf_congr (h : id.home = id'.home) : b.tableOf id = b.tableOf id' := by
  cases id <;> cases id' <;> simp_all [ScopeId.home, ScopeId.beside, tableOf]

/-- A table that does not exist counts as an empty one, but cannot be changed. -/
theorem tableOf_modifyTable (h : b.Has id ∨ f .empty = .empty) :
    (b.modifyTable id f).tableOf id' = if id'.home = id.home then f (b.tableOf id') else b.tableOf id' := by
  cases id with
  | main n =>
    cases id' with
    | main => rfl
    | inner => rfl
  | inner body parent n =>
    cases id' with
    | main => rfl
    | inner body' parent' n' =>
      have hget := b.bodies.get?_update (.inner body parent 0) (.inner body' parent' 0) f
      simp only [modifyTable, tableOf, hget, beq_iff_eq]
      by_cases heq : ScopeId.inner body parent 0 = .inner body' parent' 0
      · rw [if_pos heq, if_pos (show (ScopeId.inner body' parent' n').home = (ScopeId.inner body parent n).home from heq.symm)]
        cases hbody : b.bodies.get? (.inner body' parent' 0) with
        | some t => rfl
        | none =>
          rcases h with h | h
          · rw [Has, scopeIn?, tableOf, heq, hbody] at h
            exact nomatch h
          · exact h.symm
      · rw [if_neg heq, if_neg (show (ScopeId.inner body' parent' n').home ≠ (ScopeId.inner body parent n).home from fun h => heq h.symm)]

theorem tableOf_modifyScope : (b.modifyScope id g).tableOf id' =
    if id'.home = id.home then { b.tableOf id' with scopes := (b.tableOf id').scopes.modify id.index g }
    else b.tableOf id' :=
  tableOf_modifyTable (.inr (by simp [Table.empty]))

theorem scopeIn?_modifyScope : (b.modifyScope id g).scopeIn? id' =
    if id' = id then (b.scopeIn? id').map g else b.scopeIn? id' := by
  unfold scopeIn?
  rw [tableOf_modifyScope]
  by_cases hhome : id'.home = id.home
  · rw [if_pos hhome, Array.getElem?_modify]
    by_cases hindex : id.index = id'.index
    · rw [if_pos hindex, if_pos ((id'.eq_iff_home id).mpr ⟨hhome, hindex.symm⟩)]
    · rw [if_neg hindex, if_neg fun h => hindex (congrArg ScopeId.index h.symm)]
  · rw [if_neg hhome, if_neg fun h => hhome (congrArg ScopeId.home h)]

theorem moduleIn?_modifyScope {key : NodeKey} : (b.modifyScope id g).moduleIn? id' key = b.moduleIn? id' key := by
  unfold moduleIn?
  rw [tableOf_modifyScope]
  split <;> rfl

theorem tableOf_newScope (h : b.Has id) : (b.newScope id).2.tableOf id' =
    if id'.home = id.home then
      { b.tableOf id' with scopes := (b.tableOf id').scopes.push (Scope.inside (some id)) }
    else b.tableOf id' :=
  tableOf_modifyTable (.inl h)

theorem scopeIn?_newScope (h : b.Has id) : (b.newScope id).2.scopeIn? id' =
    if id' = (b.newScope id).1 then some (Scope.inside (some id)) else b.scopeIn? id' := by
  have hindex : (b.newScope id).1.index = (b.tableOf id).scopes.size := id.index_beside _
  have hhome : (b.newScope id).1.home = id.home := id.home_beside _
  unfold scopeIn?
  rw [tableOf_newScope h]
  by_cases hsame : id'.home = id.home
  · rw [if_pos hsame, Array.getElem?_push, tableOf_congr hsame]
    by_cases hlast : id'.index = (b.tableOf id).scopes.size
    · rw [if_pos hlast, if_pos ((id'.eq_iff_home _).mpr ⟨hsame.trans hhome.symm, hlast.trans hindex.symm⟩)]
    · rw [if_neg hlast, if_neg fun h => hlast ((congrArg ScopeId.index h).trans hindex)]
  · rw [if_neg hsame, if_neg fun h => hsame ((congrArg ScopeId.home h).trans hhome)]

theorem moduleIn?_newScope (h : b.Has id) {key : NodeKey} :
    (b.newScope id).2.moduleIn? id' key = b.moduleIn? id' key := by
  unfold moduleIn?
  rw [tableOf_newScope h]
  split <;> rfl

section

variable {key key' : NodeKey} {inner : ScopeId}

theorem tableOf_setModuleScope (h : b.Has id) : (b.setModuleScope id key inner).tableOf id' =
    if id'.home = id.home then
      { b.tableOf id' with moduleScopes := (b.tableOf id').moduleScopes.insert key inner }
    else b.tableOf id' :=
  tableOf_modifyTable (.inl h)

theorem scopeIn?_setModuleScope (h : b.Has id) : (b.setModuleScope id key inner).scopeIn? id' = b.scopeIn? id' := by
  unfold scopeIn?
  rw [tableOf_setModuleScope h]
  split <;> rfl

theorem moduleIn?_setModuleScope (h : b.Has id) : (b.setModuleScope id key inner).moduleIn? id' key' =
    if id'.home = id.home ∧ key = key' then some inner else b.moduleIn? id' key' := by
  unfold moduleIn?
  rw [tableOf_setModuleScope h]
  by_cases hhome : id'.home = id.home
  · rw [if_pos hhome, Dict.get?_insert]
    by_cases hkey : key = key'
    · rw [if_pos (beq_iff_eq.mpr hkey), if_pos ⟨hhome, hkey⟩]
    · rw [if_neg fun h => hkey (beq_iff_eq.mp h), if_neg fun h => hkey h.2]
  · rw [if_neg hhome, if_neg fun h => hhome h.1]

end

end Bindings

/-! ## Rights -/

/-- What may be bound: the tables that may change, and what may stand in them. -/
structure Rights where
  scope : ScopeId → Prop
  declaration : Declaration → Prop
  interface : InterfaceDecl → Site → Prop
  home : ∀ id id', id.home = id'.home → scope id → scope id'

namespace Rights

variable (R : Rights) (b : Bindings)

/-- A module that is referred to in a table has its scope there. -/
def Ref (around : ScopeId) (ref : ModuleRef) : Prop := ∀ c, ref = .container c → c.home = around.home ∧ b.Has c

def GrantsValue (around : ScopeId) : ValueSymbol → Prop
  | .declarator decl kind site => R.declaration (.variable decl kind site)
  | .function decl site => R.declaration (.function decl site)
  | .param param site => R.declaration (.param param site)
  | .expr expr site => R.declaration (.exported expr site)
  | .ofModule ref => Ref b around ref
  | .imported _ => True
  | .builtin _ => True

def GrantsType (around : ScopeId) : TypeSymbol → Prop
  | .interface name scope => R.declaration (.interface name scope)
  | .typeAlias decl site => R.declaration (.typeAlias decl site)
  | .ofModule ref => Ref b around ref
  | .typeParam => True
  | .imported _ => True
  | .builtin _ => True

/-- What the scope around a scope can be. The outermost of all knows the word that imports. -/
def Outer : ScopeId → Scope → Prop
  | .main 0, s => s.parent = none ∧ s.values.contains "import" = true
  | .inner _ parent 0, s => s.parent = some parent
  | id, s => ∃ m < id.index, s.parent = some (id.beside m)

structure Offers (id : ScopeId) (e : Exports) : Prop where
  values : ∀ name symbol, e.values.get? name = some symbol → R.GrantsValue b id symbol
  types : ∀ name symbol, e.types.get? name = some symbol → R.GrantsType b id symbol
  assigned : ∀ expr site, e.assigned = some (expr, site) → R.declaration (.exported expr site)

structure Holds (id : ScopeId) (s : Scope) : Prop where
  outer : Outer id s
  values : ∀ name symbol, s.values.get? name = some symbol → R.GrantsValue b id symbol
  types : ∀ name symbol, s.types.get? name = some symbol → R.GrantsType b id symbol
  interfaces : ∀ name decls, s.interfaces.get? name = some decls → ∀ d ∈ decls, R.interface d.1 ⟨d.2, id⟩
  exports : R.Offers b id s.exports

variable {R b} {b' : Bindings} {R' : Rights} {id id' : ScopeId} {s : Scope}

/-- In a new scope nothing stands yet. -/
theorem Holds.inside {parent : Option ScopeId} (h : Outer id (.inside parent)) : R.Holds b id (.inside parent) :=
  ⟨h, nofun, nofun, nofun, ⟨nofun, nofun, nofun⟩⟩

theorem Ref.mono (hb : ∀ c, b.Has c → b'.Has c) {ref : ModuleRef} (h : Ref b id ref) : Ref b' id ref :=
  fun c hc => ⟨(h c hc).1, hb c (h c hc).2⟩

theorem GrantsValue.mono (hb : ∀ c, b.Has c → b'.Has c) (hR : ∀ d, R.declaration d → R'.declaration d) {symbol : ValueSymbol}
    (h : R.GrantsValue b id symbol) : R'.GrantsValue b' id symbol := by
  cases symbol with
  | ofModule ref => exact Ref.mono hb h
  | imported | builtin => trivial
  | _ => exact hR _ h

theorem GrantsType.mono (hb : ∀ c, b.Has c → b'.Has c) (hR : ∀ d, R.declaration d → R'.declaration d) {symbol : TypeSymbol}
    (h : R.GrantsType b id symbol) : R'.GrantsType b' id symbol := by
  cases symbol with
  | ofModule ref => exact Ref.mono hb h
  | typeParam | imported | builtin => trivial
  | _ => exact hR _ h

theorem Holds.mono (hb : ∀ c, b.Has c → b'.Has c) (hd : ∀ d, R.declaration d → R'.declaration d)
    (hi : ∀ decl site, R.interface decl site → R'.interface decl site) (h : R.Holds b id s) : R'.Holds b' id s where
  outer := h.outer
  values name symbol hs := (h.values name symbol hs).mono hb hd
  types name symbol hs := (h.types name symbol hs).mono hb hd
  interfaces name decls hdecls d hmem := hi d.1 _ (h.interfaces name decls hdecls d hmem)
  exports := {
    values := fun name symbol hs => (h.exports.values name symbol hs).mono hb hd
    types := fun name symbol hs => (h.exports.types name symbol hs).mono hb hd
    assigned := fun expr site hs => hd _ (h.exports.assigned expr site hs) }

end Rights

/-! ## Bindings within their rights -/

structure Bound (R : Rights) (b : Bindings) : Prop where
  scope : ∀ id s, R.scope id → b.scopeIn? id = some s → R.Holds b id s
  module : ∀ id key inner, R.scope id → b.moduleIn? id key = some inner →
    (inner.home = id.home ∨ inner = globalScope) ∧ b.Has inner

/-- A step of the binder that may come across modules with these K. -/
structure Binds (R : Rights) (K : NodeKey → Prop) (b b' : Bindings) : Prop where
  bound : Bound R b'
  rest : b' = { b with main := b'.main, bodies := b'.bodies, ambientModules := b'.ambientModules }
  tables : ∀ id, ¬R.scope id → b'.tableOf id = b.tableOf id
  modules : ∀ id key, ¬K key → b'.moduleIn? id key = b.moduleIn? id key
  has : ∀ id, b.Has id → b'.Has id
  ambient : ∀ x ∈ b'.ambientModules, x ∈ b.ambientModules ∨ ∃ id, R.scope id ∧ Rights.Ref b' id x.2

section

variable {R : Rights} {K K' : NodeKey → Prop} {b b' b'' : Bindings} {id : ScopeId}

/-- More rights in fewer tables. -/
theorem Bound.weaken {R' : Rights} (h : Bound R b) (hscope : ∀ id, R'.scope id → R.scope id)
    (hd : ∀ d, R.declaration d → R'.declaration d) (hi : ∀ decl site, R.interface decl site → R'.interface decl site) :
    Bound R' b where
  scope id s hid hs := (h.scope id s (hscope id hid) hs).mono (fun _ h => h) hd hi
  module id key inner hid := h.module id key inner (hscope id hid)

/-- Only the tables matter. -/
theorem Bound.of_tables (h : Bound R b) (htable : ∀ id, b'.tableOf id = b.tableOf id) : Bound R b' := by
  have hhas (c : ScopeId) (hc : b.Has c) : b'.Has c := by
    rwa [Bindings.Has, Bindings.scopeIn?, htable]
  refine ⟨fun id s hid hs => ?_, fun id key inner hid hinner => ?_⟩
  · rw [Bindings.scopeIn?, htable] at hs
    exact (h.scope id s hid hs).mono hhas (fun _ h => h) fun _ _ h => h
  · rw [Bindings.moduleIn?, htable] at hinner
    exact ⟨(h.module id key inner hid hinner).1, hhas _ (h.module id key inner hid hinner).2⟩

theorem Bound.refl (h : Bound R b) : Binds R K b b where
  bound := h
  rest := rfl
  tables _ _ := rfl
  modules _ _ _ := rfl
  has _ h := h
  ambient _ h := .inl h

theorem Binds.trans (h : Binds R K b b') (h' : Binds R K b' b'') : Binds R K b b'' where
  bound := h'.bound
  rest := by
    rw [h'.rest, h.rest]
  tables id hid := (h'.tables id hid).trans (h.tables id hid)
  modules id key hkey := (h'.modules id key hkey).trans (h.modules id key hkey)
  has id hid := h'.has id (h.has id hid)
  ambient x hx := by
    rcases h'.ambient x hx with hx | hx
    · rcases h.ambient x hx with hx | ⟨id, hid, href⟩
      · exact .inl hx
      · exact .inr ⟨id, hid, href.mono h'.has⟩
    · exact .inr hx

theorem Binds.mono (h : Binds R K b b') (hkeys : ∀ key, K key → K' key) : Binds R K' b b' where
  bound := h.bound
  rest := h.rest
  tables := h.tables
  modules id key hkey := h.modules id key fun hk => hkey (hkeys key hk)
  has := h.has
  ambient := h.ambient

end

end Recheck.Check
