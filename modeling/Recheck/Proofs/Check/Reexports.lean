import Recheck.Proofs.Check.Lookups
import Recheck.Proofs.Data.Preorder

/-!
# Re-exports

A module passes on what others export, and these pass on in turn: with modules as nodes and `export *` as edges, an export is
looked up depth first. The lookup has a budget, one level for each scope that was bound and one more. That is enough for any
graph (`Bindings.exportLookup_visits`): on one way down no module comes twice, and all modules on it but the last pass
something on, which only modules with a bound scope do (`Bindings.mem_boundScopes`). So the lookup is the search of `Visits`, and it
answers the first export in preorder.
-/

set_option autoImplicit false

namespace Recheck.Check

open Syntax

/-! ## Who passes something on -/

/-- No scope passes a module on. -/
def Table.Bare (t : Table) : Prop := ∀ s ∈ t.scopes, s.exports.stars = []

namespace Table.Bare

variable {t : Table}

theorem empty : Table.empty.Bare := by
  simp [Table.Bare, Table.empty]

theorem inside (parent : ScopeId) : (Table.inside parent).Bare := by
  simp [Table.Bare, Table.inside, Table.empty, Scope.inside, Exports.none]

theorem modify (h : t.Bare) {n : Nat} {f : Scope → Scope} (hf : ∀ s, (f s).exports.stars = s.exports.stars) :
    Table.Bare { t with scopes := t.scopes.modify n f } := by
  intro s hs
  obtain ⟨i, hi, rfl⟩ := Array.mem_iff_getElem.mp hs
  rw [Array.size_modify] at hi
  rw [Array.getElem_modify]
  split
  · rw [hf]
    exact h _ (Array.getElem_mem hi)
  · exact h _ (Array.getElem_mem hi)

theorem push (h : t.Bare) (parent : Option ScopeId) :
    Table.Bare { t with scopes := t.scopes.push (Scope.inside parent) } := by
  intro s hs
  rcases Array.mem_push.mp hs with hs | rfl
  · exact h s hs
  · rfl

end Table.Bare

/-- Nothing is passed on anywhere. -/
structure Bindings.Bare (b : Bindings) : Prop where
  table : ∀ id, (b.tableOf id).Bare

namespace Bindings.Bare

variable {b : Bindings} {p : Place}

theorem modifyTable (h : b.Bare) {id : ScopeId} {f : Table → Table} (hf : ∀ t : Table, t.Bare → (f t).Bare) :
    (b.modifyTable id f).Bare := by
  refine ⟨fun id' => ?_⟩
  cases id with
  | main =>
    cases id' with
    | main k => exact hf _ (h.table (.main k))
    | inner body' parent' k => exact h.table (.inner body' parent' k)
  | inner body parent n =>
    cases id' with
    | main k => exact h.table (.main k)
    | inner body' parent' k =>
      have hold := h.table (.inner body' parent' k)
      simp only [Bindings.modifyTable, tableOf, Dict.get?_update] at hold ⊢
      cases hget : b.bodies.get? (.inner body' parent' 0) with
      | none =>
        rw [Option.map_none, ite_self]
        exact .empty
      | some t =>
        rw [hget] at hold
        split
        · exact hf t hold
        · exact hold

theorem modifyScope (h : b.Bare) {id : ScopeId} {f : Scope → Scope} (hf : ∀ s, (f s).exports.stars = s.exports.stars) :
    (b.modifyScope id f).Bare :=
  h.modifyTable fun _ ht => ht.modify hf

theorem foldl {α : Type} {f : Bindings → α → Bindings} (xs : List α) (h : b.Bare) (hf : ∀ b, b.Bare → ∀ x ∈ xs, (f b x).Bare) :
    (xs.foldl f b).Bare := by
  induction xs generalizing b with
  | nil => exact h
  | cons x xs ih => exact ih (hf b h x List.mem_cons_self) fun b hb x hx => hf b hb x (List.mem_cons_of_mem _ hx)

/-! ### Steps of the binder -/

theorem putValue (h : b.Bare) (scope : ScopeId) (name : String) (symbol : ValueSymbol) : (b.putValue scope name symbol).Bare :=
  h.modifyScope fun _ => rfl

theorem putType (h : b.Bare) (scope : ScopeId) (name : String) (symbol : TypeSymbol) : (b.putType scope name symbol).Bare :=
  h.modifyScope fun _ => rfl

theorem newScope (h : b.Bare) (parent : ScopeId) : (b.newScope parent).2.Bare :=
  h.modifyTable fun _ ht => ht.push _

theorem setModuleScope (h : b.Bare) (around : ScopeId) (key : NodeKey) (scope : ScopeId) :
    (b.setModuleScope around key scope).Bare :=
  h.modifyTable fun _ ht => ht

theorem declareValue (h : b.Bare) (scope : ScopeId) (name : String) (symbol : ValueSymbol) :
    (b.declareValue scope name symbol).Bare := by
  unfold Bindings.declareValue
  split
  · exact h.putValue ..
  · split
    · split
      · exact h.modifyTable fun _ ht => ht
      · exact h
    · exact h

theorem exportValue (h : b.Bare) (container : Option ScopeId) (name : String) (symbol : ValueSymbol) :
    (b.exportValue container name symbol).Bare := by
  unfold Bindings.exportValue
  split
  · exact h.modifyScope fun _ => rfl
  · exact h

theorem exportType (h : b.Bare) (container : Option ScopeId) (name : String) (symbol : TypeSymbol) :
    (b.exportType container name symbol).Bare := by
  unfold Bindings.exportType
  split
  · exact h.modifyScope fun _ => rfl
  · exact h

theorem bindDeclarators (h : b.Bare) (kind : VariableKind) (exported : Bool) (decls : List Declarator) :
    (Bindings.bindDeclarators p kind exported decls b).Bare := by
  refine h.foldl decls fun b hb decl _ => ?_
  dsimp only
  split
  · exact (hb.declareValue ..).exportValue ..
  · exact hb.declareValue ..

theorem bindFunction (h : b.Bare) (exported : Bool) (decl : FunctionDecl) : (Bindings.bindFunction p exported decl b).Bare := by
  have default {b : Bindings} (h : b.Bare) : (if decl.modifiers.isDefault then
      b.exportValue p.container "default" (.function decl p.site) else b).Bare := by
    split
    · exact h.exportValue ..
    · exact h
  unfold Bindings.bindFunction
  refine default ?_
  split
  · dsimp only
    split
    · exact (h.declareValue ..).exportValue ..
    · exact h.declareValue ..
  · exact h

theorem bindInterface (h : b.Bare) (exported : Bool) (decl : InterfaceDecl) : (Bindings.bindInterface p exported decl b).Bare := by
  have first : (b.declareInterface p.site decl).Bare := h.modifyScope fun _ => rfl
  unfold Bindings.bindInterface
  dsimp only
  split
  · exact first.exportType ..
  · split
    · exact first.exportType ..
    · exact first

theorem bindAlias (h : b.Bare) (exported : Bool) (decl : TypeAlias) : (Bindings.bindAlias p exported decl b).Bare := by
  unfold Bindings.bindAlias
  dsimp only
  split
  · exact (h.putType ..).exportType ..
  · exact h.putType ..

/-- What is exported from here without another module being named. -/
theorem bindExport (h : b.Bare) {decl : ExportDecl} (hreach : reachesOut (.exportDecl decl) = false) :
    (Bindings.bindExport p decl b).Bare := by
  obtain ⟨kind, span⟩ := decl
  cases kind with
  | named specifiers source =>
    cases source with
    | none => exact h
    | some source => exact nomatch hreach
  | star => exact nomatch hreach
  | default expr => exact h.exportValue ..
  | assignment expr =>
    unfold Bindings.bindExport
    dsimp only
    split
    · exact h.modifyScope fun _ => rfl
    · exact h

theorem exportLocal (h : b.Bare) (name exportedName : String) : (Bindings.exportLocal p name exportedName b).Bare := by
  unfold Bindings.exportLocal
  cases b.valueIn? p.scope name with
  | some symbol =>
    dsimp only
    split
    · exact (h.exportValue ..).exportType ..
    · exact h.exportValue ..
  | none =>
    dsimp only
    split
    · exact h.exportType ..
    · exact h

theorem bindLocalExports (h : b.Bare) (statements : List Statement) : (Bindings.bindLocalExports p statements b).Bare := by
  have lists : ((localExports statements).foldl (fun b s => Bindings.exportLocal p s.localName.name s.exportedName.name b) b).Bare :=
    Bare.foldl _ h fun _ hb _ _ => hb.exportLocal _ _
  unfold Bindings.bindLocalExports
  dsimp only
  split
  · exact lists
  · split
    · exact lists.exportType ..
    · exact lists

theorem namespaceScope (h : b.Bare) (scope : ScopeId) (name : String) : (b.namespaceScope scope name).2.Bare := by
  unfold Bindings.namespaceScope
  split
  · exact h
  · exact ((h.newScope scope).putValue ..).putType ..

theorem openNamespaces (h : b.Bare) (exported : Bool) (parts : List String) : (Bindings.openNamespaces p exported parts b).2.Bare := by
  induction parts generalizing p exported b with
  | nil => exact h
  | cons part rest ih =>
    unfold Bindings.openNamespaces
    dsimp only
    refine ih ?_ _
    split
    · exact ((h.namespaceScope p.scope part).exportValue ..).exportType ..
    · exact h.namespaceScope p.scope part

mutual

theorem bindStatement {p : Place} {b : Bindings} (h : b.Bare) : ∀ s : Statement, reachesOut s = false →
    (Bindings.bindStatement p s b).Bare
  | .moduleDecl ⟨modifiers, .named name, some body, span⟩, hreach => by
    rw [Bindings.bindStatement]
    exact (bindEach ((h.openNamespaces _ _).setModuleScope ..) body hreach).bindLocalExports body
  | .moduleDecl ⟨modifiers, .named name, none, span⟩, _ => by
    rw [Bindings.bindStatement]
    exact h.openNamespaces _ _
  | .variableDecl d, _ => by
    rw [Bindings.bindStatement]
    exact h.bindDeclarators ..
  | .function d, _ => by
    rw [Bindings.bindStatement]
    exact h.bindFunction ..
  | .interface d, _ => by
    rw [Bindings.bindStatement]
    exact h.bindInterface ..
  | .typeAlias d, _ => by
    rw [Bindings.bindStatement]
    exact h.bindAlias ..
  | .exportDecl d, hreach => by
    rw [Bindings.bindStatement]
    exact h.bindExport hreach
  | .ifElse _, _ | .block _, _ | .expression _, _ | .ret _, _ | .empty _, _ | .error _, _ => h
  | .importDecl _, hreach | .importEquals _, hreach => nomatch hreach
  | .moduleDecl ⟨_, .global _, _, _⟩, hreach | .moduleDecl ⟨_, .ambient _, _, _⟩, hreach => nomatch hreach

theorem bindEach {p : Place} {b : Bindings} (h : b.Bare) : ∀ statements : List Statement, anyReachesOut statements = false →
    (Bindings.bindEach p statements b).Bare
  | [], _ => h
  | s :: rest, hreach => by
    rw [anyReachesOut, Bool.or_eq_false_iff] at hreach
    exact bindEach (bindStatement h s hreach.1) rest hreach.2

end

/-- A body that says nothing about other modules passes none on. -/
theorem ofBody {body : Body} (hplain : body.isPlain = true) (parent : ScopeId) : (Table.ofBody body parent).Bare := by
  have hstart : ((start default).withBody body parent).Bare := by
    refine ⟨fun id => ?_⟩
    rw [tableOf_withBody]
    split
    · exact .inside parent
    · cases id with
      | main => simp [Table.Bare, tableOf, start, Scope.inside, Exports.none]
      | inner => exact .empty
  have hnames : (bindTypeParams (.inner body parent 0) body.typeParams ((start default).withBody body parent)).Bare :=
    hstart.foldl _ fun _ hb _ _ => hb.putType ..
  have hparams := hnames.foldl (f := fun b p => b.putValue (.inner body parent 0) p.name.name
    (.param p ⟨body.key.file, .inner body parent 0⟩)) body.params fun _ hb _ _ => hb.putValue ..
  have hreach : anyReachesOut body.statements = false := by simpa [Body.isPlain] using hplain
  exact ((hparams.bindEach body.statements hreach).bindLocalExports body.statements).table _

end Bindings.Bare

/-! ## The budget -/

/-- What is known of an export when all is known. -/
def Lookup.ofOption {α : Type} : Option α → Lookup α
  | some symbol => .found symbol
  | none => .missing

theorem Lookup.exists_ofOption {α : Type} {o : Option α} : (∃ symbol, ofOption o = .found symbol) ↔ o.isSome = true := by
  cases o <;> simp [ofOption]

/-- The scope of a module with known exports. -/
def ModuleRef.scope? : ModuleRef → Option ScopeId
  | container c => some c
  | untyped | unresolved => none

namespace Bindings

variable (b : Bindings)

/-- All scopes that have been bound. -/
def boundScopes : List ScopeId :=
  (List.range b.main.scopes.size).map .main ++
    b.bodies.entries.flatMap fun (id, t) => (List.range t.scopes.size).map id.beside

theorem length_boundScopes : b.boundScopes.length = b.size := by
  have hbodies (entries : List (ScopeId × Table)) (n : Nat) :
      n + (entries.flatMap fun (id, t) => (List.range t.scopes.size).map id.beside).length =
        ((entries.map (·.2)).map (·.scopes.size)).foldl (· + ·) n := by
    induction entries generalizing n with
    | nil => rfl
    | cons entry rest ih =>
      simp only [List.map_cons, List.foldl_cons, ← ih, List.flatMap_cons, List.length_append, List.length_map, List.length_range]
      omega
  simp only [boundScopes, size, Dict.values, ← hbodies, List.length_append, List.length_map, List.length_range]

variable {b} {c d : ScopeId}

/-- What passes something on has been bound. -/
theorem mem_boundScopes (h : (b.exportsOf c).stars ≠ []) : c ∈ b.boundScopes := by
  obtain ⟨s, hs, hstars⟩ : ∃ s, b.scopeAt? c = some s ∧ s.exports.stars ≠ [] := by
    unfold exportsOf at h
    cases hs : b.scopeAt? c with
    | none =>
      rw [hs] at h
      exact absurd rfl h
    | some s =>
      rw [hs] at h
      exact ⟨s, rfl, h⟩
  obtain ⟨hlt, rfl⟩ := Array.getElem?_eq_some_iff.mp hs
  cases c with
  | main n => exact List.mem_append_left _ (List.mem_map_of_mem (List.mem_range.mpr hlt))
  | inner body parent n =>
    unfold tableAt at hlt hstars
    simp only [ScopeId.index] at hlt hstars
    split at hlt
    · rename_i hplain
      simp only [hplain, if_true] at hstars
      exact absurd (Bare.ofBody hplain parent _ (Array.getElem_mem hlt)) hstars
    · cases hget : b.bodies.get? (.inner body parent 0) with
      | none =>
        rw [tableOf, hget] at hlt
        exact absurd hlt (Nat.not_lt_zero _)
      | some t =>
        rw [tableOf, hget, Option.getD_some] at hlt
        obtain ⟨id, hmem, hid⟩ := Dict.exists_mem_of_get? hget
        obtain rfl := beq_iff_eq.mp hid
        refine List.mem_append_right _ (List.mem_flatMap.mpr ⟨_, hmem, ?_⟩)
        exact List.mem_map.mpr ⟨n, List.mem_range.mpr hlt, rfl⟩

/-! ## The lookup as a search -/

/-- A module passes another one on. -/
def PassesOn (b : Bindings) (c d : ScopeId) : Prop := .container d ∈ b.passedOn true c

/-- The modules with known exports that a module passes on. -/
def starTargets (b : Bindings) (c : ScopeId) : List ScopeId := (b.passedOn true c).filterMap ModuleRef.scope?

theorem mem_starTargets : d ∈ b.starTargets c ↔ b.PassesOn c d := by
  unfold starTargets PassesOn
  rw [List.mem_filterMap]
  constructor
  · rintro ⟨ref, href, heq⟩
    cases ref with
    | container e => exact Option.some.inj heq ▸ href
    | untyped | unresolved => exact nomatch heq
  · exact fun h => ⟨_, h, rfl⟩

theorem passedOn_eq (h : ∀ ref ∈ b.passedOn true c, ∃ d, ref = .container d) :
    b.passedOn true c = (b.starTargets c).map .container := by
  unfold starTargets
  generalize b.passedOn true c = refs at h
  induction refs with
  | nil => rfl
  | cons ref refs ih =>
    obtain ⟨d, rfl⟩ := h ref List.mem_cons_self
    rw [List.filterMap_cons_some (show ModuleRef.scope? (.container d) = some d from rfl), List.map_cons,
      ← ih fun ref href => h ref (List.mem_cons_of_mem _ href)]

theorem mem_boundScopes_of_starTargets (h : b.starTargets c ≠ []) : c ∈ b.boundScopes := by
  refine mem_boundScopes fun hstars => h ?_
  rw [starTargets, passedOn, if_pos rfl, hstars]
  rfl

/-- Of a module all is known that it passes on. -/
structure Clear (b : Bindings) (c : ScopeId) : Prop where
  resolved : ∀ ref ∈ b.passedOn true c, ∃ d, ref = .container d
  unassigned : (b.exportsOf c).assigned = none

/-- As long as there is a level for each module that is still to come, the lookup is the search. -/
theorem exportLookup_visits {α : Type} (get : Exports → Option α) {n : Nat} {seen todo order : List ScopeId}
    (h : Visits b.starTargets seen todo order) (hclear : ∀ d ∈ order, b.Clear d) (hn : Visits.unseen b.boundScopes seen < n) :
    let answer := firstAnswer (b.exportLookup get true n) (todo.map .container) seen
    match order.findSome? fun d => get (b.exportsOf d) with
    | some symbol => answer.1 = .found symbol
    | none => answer = (.missing, order.reverse ++ seen) := by
  induction h generalizing n with
  | done => rfl
  | @skip seen todo order c hseen _ ih =>
    obtain ⟨n, rfl⟩ : ∃ m, n = m + 1 := ⟨n - 1, by omega⟩
    have hpassed : b.exportLookup get true (n + 1) (.container c) seen = (.missing, seen) := by
      rw [exportLookup_container, if_pos (List.contains_iff_mem.mpr hseen)]
    simp only [List.map_cons, firstAnswer, hpassed]
    exact ih hclear hn
  | @enter seen todo below rest c hnew hbelow hrest ihbelow ihrest =>
    obtain ⟨n, rfl⟩ : ∃ m, n = m + 1 := ⟨n - 1, by omega⟩
    have hc := hclear c List.mem_cons_self
    have hentered : b.exportLookup get true (n + 1) (.container c) seen =
        match get (b.exportsOf c) with
        | some symbol => (.found symbol, c :: seen)
        | none => firstAnswer (b.exportLookup get true n) ((b.starTargets c).map .container) (c :: seen) := by
      rw [exportLookup_container, if_neg (by simpa using hnew), passedOn_eq hc.resolved, hc.unassigned]
      cases get (b.exportsOf c) with
      | some symbol => rfl
      | none =>
        dsimp only
        split
        · rename_i heq
          exact heq.symm
        · rfl
    have hinside : let answer := firstAnswer (b.exportLookup get true n) ((b.starTargets c).map .container) (c :: seen)
        match below.findSome? fun d => get (b.exportsOf d) with
        | some symbol => answer.1 = .found symbol
        | none => answer = (.missing, below.reverse ++ c :: seen) := by
      by_cases hleaf : b.starTargets c = []
      · rw [hleaf] at hbelow ⊢
        cases hbelow
        rfl
      · have := Visits.unseen_lt (mem_boundScopes_of_starTargets hleaf) hnew
        exact ihbelow (fun d hd => hclear d (by simp [hd])) (by omega)
    have hbeside := ihrest (n := n + 1) (fun d hd => hclear d (by simp [hd]))
      (Nat.lt_of_le_of_lt (Visits.unseen_le fun d hd => by simp [hd]) hn)
    simp only [List.map_cons, firstAnswer, hentered, List.findSome?_cons, List.findSome?_append]
    cases get (b.exportsOf c) with
    | some symbol => rfl
    | none =>
      revert hinside
      generalize firstAnswer (b.exportLookup get true n) ((b.starTargets c).map .container) (c :: seen) = answer
      obtain ⟨answer, seen'⟩ := answer
      cases below.findSome? fun d => get (b.exportsOf d) with
      | some symbol =>
        rintro rfl
        rfl
      | none =>
        intro heq
        obtain ⟨rfl, rfl⟩ := Prod.mk.inj heq
        rw [Option.none_or, List.reverse_cons, List.reverse_append, List.append_assoc, List.append_assoc]
        simpa using hbeside

/-- The module lookup with its budget, from a module on whose way all is known. -/
theorem exportLookup_preorder {α : Type} {get : Exports → Option α} {order : List ScopeId}
    (h : Visits b.starTargets [] [c] order) (hclear : ∀ d ∈ order, b.Clear d) :
    (b.exportLookup get true (b.size + 1) (.container c) []).1 = .ofOption (order.findSome? fun d => get (b.exportsOf d)) := by
  have hbudget : Visits.unseen b.boundScopes [] < b.size + 1 :=
    Nat.lt_succ_of_le (b.length_boundScopes ▸ List.countP_le_length)
  have hvisits := exportLookup_visits get h hclear hbudget
  have honly : firstAnswer (b.exportLookup get true (b.size + 1)) [.container c] [] =
      b.exportLookup get true (b.size + 1) (.container c) [] := by
    unfold firstAnswer
    split
    · rename_i heq
      rw [heq, firstAnswer]
    · rfl
  rw [List.map_singleton, honly] at hvisits
  revert hvisits
  cases order.findSome? fun d => get (b.exportsOf d) with
  | some symbol => exact id
  | none => exact congrArg Prod.fst

/-- Without a way on only the module itself is asked. -/
theorem exportLookup_own {α : Type} {get : Exports → Option α} {n : Nat} (hclear : b.Clear c) :
    (b.exportLookup get false (n + 1) (.container c) []).1 = .ofOption (get (b.exportsOf c)) := by
  rw [exportLookup_container, hclear.unassigned]
  cases get (b.exportsOf c) <;> rfl

/-- What a module exports is looked up in these modules, in this order: all that can be reached through re-exports, each once,
in depth-first preorder. The first that exports a name itself gives the answer. A default is not looked for beyond the module. -/
structure SearchedIn (b : Bindings) (c : ScopeId) (order : List ScopeId) : Prop where
  visits : Visits b.starTargets [] [c] order
  nodup : order.Nodup
  mem_iff : ∀ d, d ∈ order ↔ Relation.ReflTransGen b.PassesOn c d
  value : ∀ name, name ≠ "default" →
    b.exportedValue (.container c) name = .ofOption (order.findSome? fun d => (b.exportsOf d).values.get? name)
  type : ∀ name, name ≠ "default" →
    b.exportedType (.container c) name = .ofOption (order.findSome? fun d => (b.exportsOf d).types.get? name)
  value_found : ∀ name, name ≠ "default" → ((∃ symbol, b.exportedValue (.container c) name = .found symbol) ↔
    ∃ d, Relation.ReflTransGen b.PassesOn c d ∧ (b.exportsOf d).values.contains name = true)
  type_found : ∀ name, name ≠ "default" → ((∃ symbol, b.exportedType (.container c) name = .found symbol) ↔
    ∃ d, Relation.ReflTransGen b.PassesOn c d ∧ (b.exportsOf d).types.contains name = true)
  default_value : b.exportedValue (.container c) "default" = .ofOption ((b.exportsOf c).values.get? "default")
  default_type : b.exportedType (.container c) "default" = .ofOption ((b.exportsOf c).types.get? "default")

/-- Looking a name up in what a module exports is a search of the graph of re-exports, whatever its edges. -/
theorem exports_searchedIn (hclear : ∀ d, Relation.ReflTransGen b.PassesOn c d → b.Clear d) :
    ∃ order, b.SearchedIn c order := by
  obtain ⟨order, hvisits⟩ := @Visits.exists_order _ b.starTargets _ b.boundScopes
    (fun _ => mem_boundScopes_of_starTargets) [] [c]
  have hreach (d : ScopeId) : d ∈ order ↔ Relation.ReflTransGen b.PassesOn c d := by
    rw [hvisits.mem_iff, show b.PassesOn = fun a d => d ∈ b.starTargets a from
      funext fun _ => funext fun _ => propext mem_starTargets.symm]
  have hpassed {α : Type} (get : Exports → Option α) {name : String} (hname : name ≠ "default") :
      (b.exportLookup get (name ≠ "default") (b.size + 1) (.container c) []).1 =
        .ofOption (order.findSome? fun d => get (b.exportsOf d)) := by
    rw [decide_eq_true hname]
    exact exportLookup_preorder hvisits fun d hd => hclear d ((hreach d).mp hd)
  have hfound {α : Type} (get : Exports → Option α) :
      (∃ symbol, Lookup.ofOption (order.findSome? fun d => get (b.exportsOf d)) = .found symbol) ↔
        ∃ d, Relation.ReflTransGen b.PassesOn c d ∧ (get (b.exportsOf d)).isSome := by
    simp only [Lookup.exists_ofOption, List.isSome_findSome?, List.any_eq_true, hreach]
  refine ⟨order, {
    visits := hvisits
    nodup := hvisits.nodup
    mem_iff := hreach
    value := fun name hname => hpassed _ hname
    type := fun name hname => hpassed _ hname
    value_found := fun name hname => ?_
    type_found := fun name hname => ?_
    default_value := exportLookup_own (hclear c .refl)
    default_type := exportLookup_own (hclear c .refl) }⟩
  · rw [exportedValue, hpassed _ hname]
    exact hfound fun e => e.values.get? name
  · rw [exportedType, hpassed _ hname]
    exact hfound fun e => e.types.get? name

/-- A way out of nodes that only lead to each other stays among them. -/
theorem mem_of_reaches {nodes : List ScopeId} (hc : c ∈ nodes) (hnodes : ∀ d ∈ nodes, ∀ e ∈ b.starTargets d, e ∈ nodes)
    (h : Relation.ReflTransGen b.PassesOn c d) : d ∈ nodes := by
  induction h with
  | refl => exact hc
  | tail _ hstep ih => exact hnodes _ ih _ (mem_starTargets.mpr hstep)

theorem Clear.of_all (h : ((b.passedOn true c).all (·.scope?.isSome) && (b.exportsOf c).assigned.isNone) = true) : b.Clear c := by
  obtain ⟨hrefs, hassigned⟩ := Bool.and_eq_true_iff.mp h
  refine ⟨fun ref href => ?_, Option.isNone_iff_eq_none.mp hassigned⟩
  have hscope := List.all_eq_true.mp hrefs ref href
  cases ref with
  | container d => exact ⟨d, rfl⟩
  | untyped | unresolved => exact nomatch hscope

/-- Modules that pass each other on, one of them itself as well, with two ways to the last. -/
def tangled : Program :=
  .ofHost [⟨"/a.ts"⟩] .standard (Files.toHost (.ofList [
    (⟨"/a.ts"⟩, "export * from './b'; export * from './c'; export const a = 1;"),
    (⟨"/b.ts"⟩, "export * from './d'; export * from './a';"),
    (⟨"/c.ts"⟩, "export * from './d'; export * from './c'; export const x = 2;"),
    (⟨"/d.ts"⟩, "export const x = 1; export interface x \x7b\x7d export default 3;")]))

set_option maxRecDepth 100000 in
theorem exports_searchedIn_tangled :
    (∀ d, Relation.ReflTransGen (ofProgram tangled).PassesOn (.main 2) d → (ofProgram tangled).Clear d) ∧
      ∃ order, (ofProgram tangled).SearchedIn (.main 2) order := by
  let nodes := [ScopeId.main 2, .main 3, .main 4, .main 5]
  have hnodes : (nodes.all fun d => ((ofProgram tangled).starTargets d).all nodes.contains) = true := by decide +kernel
  have hclear : (nodes.all fun d => ((ofProgram tangled).passedOn true d).all (·.scope?.isSome) &&
      ((ofProgram tangled).exportsOf d).assigned.isNone) = true := by decide +kernel
  have hall (d : ScopeId) (hd : Relation.ReflTransGen (ofProgram tangled).PassesOn (.main 2) d) : (ofProgram tangled).Clear d := by
    refine .of_all (List.all_eq_true.mp hclear d (mem_of_reaches List.mem_cons_self (fun d hd e he => ?_) hd))
    exact List.contains_iff_mem.mp (List.all_eq_true.mp (List.all_eq_true.mp hnodes d hd) e he)
  exact ⟨hall, exports_searchedIn hall⟩

end Bindings

end Recheck.Check
