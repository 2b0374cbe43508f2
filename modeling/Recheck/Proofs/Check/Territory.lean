import Recheck.Proofs.Check.Pairing
import Recheck.Syntax.Walk

/-!
# Where a file can bind

A file that shares nothing binds into the scope of its own and the scopes that it opens. Such a set of scopes, with the files
that declare there, is a `Territory`: what stands in its scopes leads to no other scope, so a step of the binder that begins
inside of it stays inside (`Territory.Closed.bindBody`). The scopes of the other files, and what is noted about their
variables and modules, remain as they were (`Territory.Within`).
-/

set_option autoImplicit false

namespace Recheck

namespace Syntax

/-- Whether a statement declares a module that other files know by its name, or adds to the scope of all files. -/
def Statement.namesModule : Statement → Bool
  | .moduleDecl ⟨_, .named _, _, _⟩ => false
  | .moduleDecl _ => true
  | _ => false

end Syntax

namespace Check

open Syntax

/-- Some of the scopes that the files of a program share, and some of its files. -/
structure Territory where
  scope : Nat → Prop
  file : Path → Prop

namespace Territory

variable (t : Territory)

def Has : ScopeId → Prop
  | .main m => t.scope m
  | .inner .. => False

/-- A value whose members and whose place are in the territory. -/
structure Owns (symbol : ValueSymbol) : Prop where
  container : ∀ c, symbol = .ofModule (.container c) → t.Has c
  key : ∀ key block, Bindings.blockScoped? symbol = some (key, block) → t.file key.file

/-- What stands in the scopes of the territory belongs to it. -/
def Closed (b : Bindings) : Prop := ∀ id name symbol, t.Has id → b.valueIn? id name = some symbol → t.Owns symbol

/-- A step that stays in the territory. Modules become known by their names only where the scope of all files belongs to it. -/
structure Within (b c : Bindings) : Prop where
  closed : t.Closed c
  rest : c = { b with main := c.main, ambientModules := c.ambientModules }
  scopes : ∀ m, ¬t.scope m → c.main.scopes[m]? = b.main.scopes[m]?
  modules : ∀ key : NodeKey, ¬t.file key.file → c.main.moduleScopes.get? key = b.main.moduleScopes.get? key
  redeclared : ∀ key : NodeKey, ¬t.file key.file → (key ∈ c.main.redeclared ↔ key ∈ b.main.redeclared)
  ambient : ¬t.scope 1 → c.ambientModules = b.ambientModules

/-- A place inside of the territory. -/
structure Holds (p : Bindings.Place) : Prop where
  scope : t.Has p.scope
  container : ∀ c, p.container = some c → t.Has c
  file : t.file p.home

/-- The next scopes, up to a number, are in the territory. -/
def Reserves (n : Nat) (b : Bindings) : Prop := ∀ m, b.main.scopes.size ≤ m → m < n → t.scope m

variable {t} {b c d : Bindings} {id : ScopeId} {n : Nat} {p : Bindings.Place}

theorem exists_of_has (h : t.Has id) : ∃ m, id = .main m ∧ t.scope m := by
  cases id with
  | main m => exact ⟨m, rfl, h⟩
  | inner => exact h.elim

theorem Reserves.mono (h : t.Reserves n b) (hsize : b.main.scopes.size ≤ c.main.scopes.size) : t.Reserves n c :=
  fun m hm hn => h m (hsize.trans hm) hn

namespace Within

theorem trans (h : t.Within b c) (h' : t.Within c d) : t.Within b d where
  closed := h'.closed
  rest := by
    rw [h'.rest, h.rest]
  scopes m hm := (h'.scopes m hm).trans (h.scopes m hm)
  modules key hkey := (h'.modules key hkey).trans (h.modules key hkey)
  redeclared key hkey := (h'.redeclared key hkey).trans (h.redeclared key hkey)
  ambient hglobal := (h'.ambient hglobal).trans (h.ambient hglobal)

theorem foldl {α : Type} {f : Bindings → α → Bindings} (xs : List α) (h : t.Within b c)
    (hf : ∀ d, t.Closed d → ∀ x ∈ xs, t.Within d (f d x)) : t.Within b (xs.foldl f c) := by
  induction xs generalizing c with
  | nil => exact h
  | cons x xs ih =>
    exact ih (h.trans (hf c h.closed x List.mem_cons_self)) fun d hd y hy => hf d hd y (List.mem_cons_of_mem _ hy)

end Within

/-! ## Changes of a table -/

/-- A value that leads nowhere and is no variable. -/
theorem owns_of_plain {symbol : ValueSymbol} (hmodule : ∀ ref, symbol ≠ .ofModule ref)
    (hdeclarator : Bindings.blockScoped? symbol = none) : t.Owns symbol :=
  ⟨fun _ heq => absurd heq (hmodule _), fun _ _ heq => nomatch hdeclarator.symm.trans heq⟩

theorem owns_container {inner : ScopeId} (h : t.Has inner) : t.Owns (.ofModule (.container inner)) :=
  ⟨fun _ heq => by cases heq; exact h, nofun⟩

namespace Closed

theorem refl (h : t.Closed b) : t.Within b b := ⟨h, rfl, fun _ _ => rfl, fun _ _ => rfl, fun _ _ => Iff.rfl, fun _ => rfl⟩

theorem modifyScope (h : t.Closed b) (hid : t.Has id) {f : Scope → Scope}
    (hf : ∀ s name symbol, (f s).values.get? name = some symbol → s.values.get? name = some symbol ∨ t.Owns symbol) :
    t.Within b (b.modifyScope id f) := by
  obtain ⟨m, rfl, hm⟩ := exists_of_has hid
  refine ⟨fun id' name symbol hid' hsymbol => ?_, rfl, fun m' hm' => ?_, fun _ _ => rfl, fun _ _ => Iff.rfl, fun _ => rfl⟩
  · obtain ⟨s', hs', hvalue⟩ := Option.bind_eq_some_iff.mp hsymbol
    change (b.modifyScope (.main m) f).scopeIn? id' = some s' at hs'
    rw [Bindings.scopeIn?_modifyScope] at hs'
    split at hs'
    · obtain ⟨s, hs, rfl⟩ := Option.map_eq_some_iff.mp hs'
      rcases hf s name symbol hvalue with hold | howns
      · exact h id' name symbol hid' (Option.bind_eq_some_iff.mpr ⟨s, hs, hold⟩)
      · exact howns
    · exact h id' name symbol hid' (Option.bind_eq_some_iff.mpr ⟨s', hs', hvalue⟩)
  · have hne : m ≠ m' := fun heq => hm' (heq ▸ hm)
    exact Array.getElem?_modify.trans (if_neg hne)

/-- What is noted beside the scopes leaves what stands in them alone. -/
theorem of_scopes (h : t.Closed b) (hscopes : c.main.scopes = b.main.scopes) : t.Closed c := by
  intro id name symbol hid hsymbol
  obtain ⟨m, rfl, hm⟩ := exists_of_has hid
  refine h (.main m) name symbol hm ?_
  change c.main.scopes[m]?.bind _ = _ at hsymbol
  rw [hscopes] at hsymbol
  exact hsymbol

theorem redeclare (h : t.Closed b) (hid : t.Has id) {keys : List NodeKey} (hkeys : ∀ key ∈ keys, t.file key.file) :
    t.Within b (b.modifyTable id fun table => { table with redeclared := keys ++ table.redeclared }) := by
  obtain ⟨m, rfl, hm⟩ := exists_of_has hid
  refine ⟨h.of_scopes rfl, rfl, fun _ _ => rfl, fun _ _ => rfl, fun key hkey => ?_, fun _ => rfl⟩
  refine List.mem_append.trans ⟨fun hmem => ?_, .inr⟩
  exact hmem.resolve_left fun hmem => hkey (hkeys key hmem)

theorem setModuleScope (h : t.Closed b) (hid : t.Has id) {key : NodeKey} (hkey : t.file key.file) (inner : ScopeId) :
    t.Within b (b.setModuleScope id key inner) := by
  obtain ⟨m, rfl, hm⟩ := exists_of_has hid
  refine ⟨h.of_scopes rfl, rfl, fun _ _ => rfl, fun other hother => ?_, fun _ _ => Iff.rfl, fun _ => rfl⟩
  refine (Dict.get?_insert _ _ _ _).trans (if_neg fun heq => ?_)
  rw [beq_iff_eq] at heq
  exact hother (heq ▸ hkey)

/-- A new scope belongs to the territory that the next scopes belong to, whatever it lies in. -/
theorem newScope_main (h : t.Closed b) (m : Nat) (hfree : t.Reserves n b) (hn : (b.newScope (.main m)).2.main.scopes.size ≤ n) :
    t.Within b (b.newScope (.main m)).2 ∧ t.scope b.main.scopes.size := by
  rw [Bindings.main_newScope] at hn
  have hnew : t.scope b.main.scopes.size := hfree _ (Nat.le_refl _) hn
  refine ⟨⟨fun id' name symbol hid' hsymbol => ?_, rfl, fun m' hm' => ?_, fun _ _ => rfl, fun _ _ => Iff.rfl, fun _ => rfl⟩, hnew⟩
  · obtain ⟨m', rfl, hm'⟩ := exists_of_has hid'
    change (b.main.scopes.push _)[m']?.bind _ = _ at hsymbol
    rw [Array.getElem?_push] at hsymbol
    split at hsymbol
    · exact nomatch hsymbol
    · exact h (.main m') name symbol hm' hsymbol
  · have hne : m' ≠ b.main.scopes.size := fun heq => hm' (heq ▸ hnew)
    exact Array.getElem?_push.trans (if_neg hne)

theorem newScope (h : t.Closed b) (hid : t.Has id) (hfree : t.Reserves n b) (hn : (b.newScope id).2.main.scopes.size ≤ n) :
    t.Within b (b.newScope id).2 ∧ t.Has (b.newScope id).1 := by
  obtain ⟨m, rfl, -⟩ := exists_of_has hid
  exact h.newScope_main m hfree hn

/-! ## Entries of a scope -/

variable {name : String} {value : ValueSymbol} {type : TypeSymbol} {container : Option ScopeId}

theorem putValue (h : t.Closed b) (hid : t.Has id) (hvalue : t.Owns value) : t.Within b (b.putValue id name value) := by
  refine h.modifyScope hid fun s other symbol hsymbol => ?_
  rw [Dict.get?_insert] at hsymbol
  split at hsymbol
  · exact .inr (Option.some.inj hsymbol ▸ hvalue)
  · exact .inl hsymbol

theorem putType (h : t.Closed b) (hid : t.Has id) : t.Within b (b.putType id name type) :=
  h.modifyScope hid fun _ _ _ => .inl

theorem putBoth (h : t.Closed b) (hid : t.Has id) (hvalue : t.Owns value) :
    t.Within b ((b.putValue id name value).putType id name type) :=
  have hput := h.putValue hid hvalue
  hput.trans (hput.closed.putType hid)

theorem declareValue (h : t.Closed b) (hid : t.Has id) (hvalue : t.Owns value) : t.Within b (b.declareValue id name value) := by
  unfold Bindings.declareValue
  split
  · exact h.putValue hid hvalue
  · rename_i existing hexisting
    split
    · rename_i k kBlock l lBlock hk hl
      split
      · have hkeys : ∀ key ∈ [l, k], t.file key.file := by
          intro key hkey
          rw [List.mem_cons, List.mem_singleton] at hkey
          rcases hkey with rfl | rfl
          · exact hvalue.key _ _ hl
          · exact (h id name existing hid hexisting).key _ _ hk
        exact h.redeclare hid hkeys
      · exact h.refl
    · exact h.refl

theorem declareImport (h : t.Closed b) (hid : t.Has id) (binding : ImportBinding) : t.Within b (b.declareImport id binding) := by
  unfold Bindings.declareImport
  split
  · exact h.putBoth hid (owns_of_plain nofun rfl)
  · exact h.refl

theorem exportValue (h : t.Closed b) (hcontainer : ∀ c, container = some c → t.Has c) :
    t.Within b (b.exportValue container name value) := by
  unfold Bindings.exportValue
  split
  · exact h.modifyScope (hcontainer _ rfl) fun _ _ _ => .inl
  · exact h.refl

theorem exportType (h : t.Closed b) (hcontainer : ∀ c, container = some c → t.Has c) :
    t.Within b (b.exportType container name type) := by
  unfold Bindings.exportType
  split
  · exact h.modifyScope (hcontainer _ rfl) fun _ _ _ => .inl
  · exact h.refl

theorem exportBoth (h : t.Closed b) (hcontainer : ∀ c, container = some c → t.Has c) :
    t.Within b ((b.exportValue container name value).exportType container name type) :=
  have hvalue := h.exportValue hcontainer
  hvalue.trans (hvalue.closed.exportType hcontainer)

end Closed

/-! ## Statements -/

/-- Exports that follow on a step, or not. -/
theorem Within.exportValueIf (h : t.Within b c) (hp : t.Holds p) (exported : Bool) {name : String} {value : ValueSymbol} :
    t.Within b (if exported then c.exportValue p.container name value else c) := by
  split
  · exact h.trans (h.closed.exportValue hp.container)
  · exact h

theorem Within.exportTypeIf (h : t.Within b c) (hp : t.Holds p) (exported : Bool) {name : String} {type : TypeSymbol} :
    t.Within b (if exported then c.exportType p.container name type else c) := by
  split
  · exact h.trans (h.closed.exportType hp.container)
  · exact h

/-- An assigned export, or modules that are passed on. -/
theorem Closed.modifyContainer (h : t.Closed b) (hp : t.Holds p) (f : Exports → Exports) :
    t.Within b (match p.container with
      | some c => b.modifyExports c f
      | none => b) := by
  split
  · rename_i container hcontainer
    exact h.modifyScope (hp.container container hcontainer) fun _ _ _ => .inl
  · exact h.refl

namespace Closed

variable (h : t.Closed b) (hp : t.Holds p)
include h hp

theorem bindDeclarators (kind : VariableKind) (exported : Bool) (decls : List Declarator) :
    t.Within b (Bindings.bindDeclarators p kind exported decls b) := by
  refine h.refl.foldl decls fun d hd decl _ => ?_
  have howns : t.Owns (.declarator decl kind p.site) :=
    ⟨nofun, fun _ _ heq => by cases heq; exact hp.file⟩
  exact (hd.declareValue hp.scope howns).exportValueIf hp exported

theorem bindFunction (exported : Bool) (decl : FunctionDecl) : t.Within b (Bindings.bindFunction p exported decl b) := by
  have howns : t.Owns (.function decl p.site) := owns_of_plain nofun rfl
  unfold Bindings.bindFunction
  refine Within.exportValueIf ?_ hp _
  split
  · exact (h.declareValue hp.scope howns).exportValueIf hp _
  · exact h.refl

theorem bindInterface (exported : Bool) (decl : InterfaceDecl) : t.Within b (Bindings.bindInterface p exported decl b) := by
  have hdeclared : t.Within b (b.declareInterface p.site decl) := h.modifyScope hp.scope fun _ _ _ => .inl
  unfold Bindings.bindInterface
  split
  · exact hdeclared.trans (hdeclared.closed.exportType hp.container)
  · exact hdeclared.exportTypeIf hp exported

theorem bindAlias (exported : Bool) (decl : TypeAlias) : t.Within b (Bindings.bindAlias p exported decl b) :=
  (h.putType hp.scope).exportTypeIf hp exported

theorem bindImport (decl : ImportDecl) : t.Within b (Bindings.bindImport p decl b) :=
  h.refl.foldl _ fun _ hd binding _ => hd.declareImport hp.scope binding

theorem bindImportEquals (decl : ImportEquals) : t.Within b (Bindings.bindImportEquals p decl b) := by
  have hdeclared := h.declareImport hp.scope (p.binding decl.source.value .equals (some decl.name))
  unfold Bindings.bindImportEquals
  split
  · exact hdeclared.trans (hdeclared.closed.exportBoth hp.container)
  · exact hdeclared

theorem bindExport (decl : ExportDecl) : t.Within b (Bindings.bindExport p decl b) := by
  unfold Bindings.bindExport
  split
  · exact h.refl
  · exact h.refl.foldl _ fun _ hd _ _ => hd.exportBoth hp.container
  · exact h.modifyContainer hp _
  · exact h.exportBoth hp.container
  · exact h.exportValue hp.container
  · exact h.modifyContainer hp _

theorem exportLocal (name exportedName : String) : t.Within b (Bindings.exportLocal p name exportedName b) := by
  unfold Bindings.exportLocal
  cases b.valueIn? p.scope name with
  | none =>
    dsimp only
    split
    · exact h.exportType hp.container
    · exact h.refl
  | some symbol =>
    have hvalue : t.Within b (b.exportValue p.container exportedName symbol) := h.exportValue hp.container
    dsimp only
    split
    · exact hvalue.trans (hvalue.closed.exportType hp.container)
    · exact hvalue

theorem bindLocalExports (statements : List Statement) : t.Within b (Bindings.bindLocalExports p statements b) := by
  have hlists := h.refl.foldl (f := fun b s => Bindings.exportLocal p s.localName.name s.exportedName.name b)
    (Bindings.localExports statements) fun _ hd _ _ => hd.exportLocal hp _ _
  unfold Bindings.bindLocalExports
  dsimp only
  split
  · exact hlists
  · split
    · exact hlists.trans (hlists.closed.exportType hp.container)
    · exact hlists

end Closed

/-! ## Modules -/

namespace Closed

theorem namespaceScope (h : t.Closed b) (hid : t.Has id) (hfree : t.Reserves n b) (name : String)
    (hn : (b.namespaceScope id name).2.main.scopes.size ≤ n) :
    t.Within b (b.namespaceScope id name).2 ∧ t.Has (b.namespaceScope id name).1 := by
  unfold Bindings.namespaceScope at hn ⊢
  split
  · rename_i inner hinner
    exact ⟨h.refl, (h id name _ hid hinner).container inner rfl⟩
  · rename_i hnone
    split at hn
    · rename_i inner hinner
      exact absurd hinner (hnone inner)
    · rw [Bindings.main_putBoth] at hn
      obtain ⟨hopened, hinner⟩ := h.newScope hid hfree hn
      exact ⟨hopened.trans (hopened.closed.putBoth hid (owns_container hinner)), hinner⟩

theorem openNamespaces (h : t.Closed b) (hp : t.Holds p) (hfree : t.Reserves n b) (exported : Bool) (names : List String)
    (hn : (Bindings.openNamespaces p exported names b).2.main.scopes.size ≤ n) :
    t.Within b (Bindings.openNamespaces p exported names b).2 ∧ t.Holds (Bindings.openNamespaces p exported names b).1 := by
  induction names generalizing p exported b with
  | nil => exact ⟨h.refl, hp⟩
  | cons name names ih =>
    obtain ⟨hopened, hinner⟩ := h.namespaceScope hp.scope hfree name ((b.main_le_openNamespaces p exported name names).trans hn)
    unfold Bindings.openNamespaces at hn ⊢
    have hplace : t.Holds { p with
        scope := (b.namespaceScope p.scope name).1, container := some (b.namespaceScope p.scope name).1 } :=
      ⟨hinner, fun _ heq => Option.some.inj heq ▸ hinner, hp.file⟩
    have hstep : t.Within b (if exported then
        ((b.namespaceScope p.scope name).2.exportValue p.container name
          (.ofModule (.container (b.namespaceScope p.scope name).1))).exportType p.container name
            (.ofModule (.container (b.namespaceScope p.scope name).1))
        else (b.namespaceScope p.scope name).2) := by
      split
      · exact hopened.trans (hopened.closed.exportBoth hp.container)
      · exact hopened
    obtain ⟨hothers, hlast⟩ := ih hstep.closed hplace
      (hfree.mono ((Fills.namespaceScope (E := .any) ⟨trivial, trivial⟩).trans Fills.exportNamespace).main_le) true hn
    exact ⟨hstep.trans hothers, hlast⟩

theorem openModule (h : t.Closed b) (hp : t.Holds p) (hfree : t.Reserves n b) (start : Nat) (exported ambient : Bool)
    {name : ModuleName} (hname : t.scope 1 ∨ ∃ ident, name = .named ident)
    (hn : (Bindings.openModule p ⟨.moduleDecl, p.home, start⟩ exported ambient name b).2.main.scopes.size ≤ n) :
    t.Within b (Bindings.openModule p ⟨.moduleDecl, p.home, start⟩ exported ambient name b).2 ∧
      t.Holds (Bindings.openModule p ⟨.moduleDecl, p.home, start⟩ exported ambient name b).1 := by
  cases name with
  | global span =>
    have hglobal : t.scope 1 := hname.resolve_right fun ⟨_, heq⟩ => nomatch heq
    exact ⟨h.setModuleScope hp.scope hp.file _, hglobal, nofun, hp.file⟩
  | ambient specifier =>
    unfold Bindings.openModule at hn ⊢
    rw [Bindings.main_setModuleScope] at hn
    obtain ⟨hopened, hinner⟩ := h.newScope hp.scope hfree hn
    refine ⟨hopened.trans (hopened.closed.setModuleScope hp.scope hp.file _), hinner, ?_, hp.file⟩
    exact fun _ heq => Option.some.inj heq ▸ hinner
  | named ident =>
    unfold Bindings.openModule at hn ⊢
    rw [Bindings.main_setModuleScope] at hn
    obtain ⟨hopened, hplace⟩ := h.openNamespaces hp hfree exported _ hn
    exact ⟨hopened.trans (hopened.closed.setModuleScope hp.scope hp.file _), hplace.scope, hplace.container, hplace.file⟩

theorem addAmbient (h : t.Closed b) {name : ModuleName} (hname : t.scope 1 ∨ ∃ ident, name = .named ident) (ref : ModuleRef) :
    t.Within b (Bindings.addAmbient name ref b) := by
  cases name with
  | global | named => exact h.refl
  | ambient specifier =>
    have hglobal : t.scope 1 := hname.resolve_right fun ⟨_, heq⟩ => nomatch heq
    exact ⟨h.of_scopes rfl, rfl, fun _ _ => rfl, fun _ _ => rfl, fun _ _ => Iff.rfl, fun hno => absurd hglobal hno⟩

theorem bindBodiless (h : t.Closed b) (hp : t.Holds p) (hfree : t.Reserves n b) (exported : Bool) {name : ModuleName}
    (hname : t.scope 1 ∨ ∃ ident, name = .named ident)
    (hn : (Bindings.bindBodiless p exported name b).main.scopes.size ≤ n) :
    t.Within b (Bindings.bindBodiless p exported name b) := by
  cases name with
  | global span => exact h.refl
  | ambient specifier => exact h.addAmbient hname .untyped
  | named ident => exact (h.openNamespaces hp hfree exported _ hn).1

end Closed

end Territory

/-! ## All statements -/

/-- A module declaration that only its file knows has a name of its own. -/
theorem exists_named_of_not_namesModule {modifiers : Modifiers} {name : ModuleName} {body : Option (List Statement)} {span : Span}
    (h : (Statement.moduleDecl ⟨modifiers, name, body, span⟩).namesModule = false) : ∃ ident, name = .named ident := by
  cases name with
  | named ident => exact ⟨ident, rfl⟩
  | global | ambient => exact nomatch h

namespace Territory.Closed

variable {t : Territory} {b : Bindings} {n : Nat} {p : Bindings.Place}

mutual

theorem bindStatement {t : Territory} {p : Bindings.Place} (hp : t.Holds p) {b : Bindings} {n : Nat} (h : t.Closed b)
    (hfree : t.Reserves n b) : ∀ s : Statement, (t.scope 1 ∨ ∀ s' ∈ s.nested, s'.namesModule = false) →
      (Bindings.bindStatement p s b).main.scopes.size ≤ n → t.Within b (Bindings.bindStatement p s b)
  | .moduleDecl ⟨modifiers, name, some body, span⟩, hnamed, hn => by
    rw [Bindings.bindStatement] at hn ⊢
    dsimp only at hn ⊢
    generalize hexported : (modifiers.exported || p.implicitExport) = exported at hn ⊢
    generalize hambient : (p.implicitExport || modifiers.declared) = ambient at hn ⊢
    have hname : t.scope 1 ∨ ∃ ident, name = .named ident :=
      hnamed.imp_right fun hnamed => exists_named_of_not_namesModule (hnamed _ List.mem_cons_self)
    have hbody : t.scope 1 ∨ ∀ s' ∈ nestedStatements body, s'.namesModule = false :=
      hnamed.imp_right fun hnamed s' hs' => hnamed s' (List.mem_cons_of_mem _ hs')
    have hbound : (Bindings.bindEach (Bindings.openModule p ⟨.moduleDecl, p.home, span.start⟩ exported ambient name b).1 body
        (Bindings.openModule p ⟨.moduleDecl, p.home, span.start⟩ exported ambient name b).2).main.scopes.size ≤ n :=
      (Fills.bindLocalExports.trans (Fills.addAmbient (E := .any) name _)).main_le.trans hn
    obtain ⟨hopened, hplace⟩ := h.openModule hp hfree span.start exported ambient hname
      ((Fills.any_bindEach _ _ body).main_le.trans hbound)
    have hinside := bindEach hplace hopened.closed (hfree.mono (Fills.any_openModule _ _ _ _).main_le) body hbody hbound
    have hexports := hinside.closed.bindLocalExports hplace body
    exact hopened.trans (hinside.trans (hexports.trans (hexports.closed.addAmbient hname _)))
  | .moduleDecl ⟨modifiers, name, none, span⟩, hnamed, hn => by
    rw [Bindings.bindStatement] at hn ⊢
    refine h.bindBodiless hp hfree _ (hnamed.imp_right fun hnamed => ?_) hn
    exact exists_named_of_not_namesModule (hnamed _ List.mem_cons_self)
  | .variableDecl d, _, _ => by
    rw [Bindings.bindStatement]
    exact h.bindDeclarators hp d.kind _ d.declarators
  | .function d, _, _ => by
    rw [Bindings.bindStatement]
    exact h.bindFunction hp _ d
  | .interface d, _, _ => by
    rw [Bindings.bindStatement]
    exact h.bindInterface hp _ d
  | .typeAlias d, _, _ => by
    rw [Bindings.bindStatement]
    exact h.bindAlias hp _ d
  | .importDecl d, _, _ => by
    rw [Bindings.bindStatement]
    exact h.bindImport hp d
  | .importEquals d, _, _ => by
    rw [Bindings.bindStatement]
    exact h.bindImportEquals hp d
  | .exportDecl d, _, _ => by
    rw [Bindings.bindStatement]
    exact h.bindExport hp d
  | .ifElse _, _, _ | .block _, _, _ | .expression _, _, _ | .ret _, _, _ | .empty _, _, _ | .error _, _, _ => h.refl

theorem bindEach {t : Territory} {p : Bindings.Place} (hp : t.Holds p) {b : Bindings} {n : Nat} (h : t.Closed b)
    (hfree : t.Reserves n b) : ∀ statements : List Statement,
      (t.scope 1 ∨ ∀ s' ∈ nestedStatements statements, s'.namesModule = false) →
      (Bindings.bindEach p statements b).main.scopes.size ≤ n → t.Within b (Bindings.bindEach p statements b)
  | [], _, _ => h.refl
  | s :: rest, hnamed, hn => by
    rw [Bindings.bindEach] at hn ⊢
    have hfirst : t.scope 1 ∨ ∀ s' ∈ s.nested, s'.namesModule = false :=
      hnamed.imp_right fun hnamed s' hs' => hnamed s' (List.mem_append_left _ hs')
    have hothers : t.scope 1 ∨ ∀ s' ∈ nestedStatements rest, s'.namesModule = false :=
      hnamed.imp_right fun hnamed s' hs' => hnamed s' (List.mem_append_right _ hs')
    have hstep := bindStatement hp h hfree s hfirst ((Fills.any_bindEach p _ rest).main_le.trans hn)
    exact hstep.trans (bindEach hp hstep.closed (hfree.mono (Fills.any_bindStatement p b s).main_le) rest hothers hn)

end

theorem bindBody (h : t.Closed b) (hp : t.Holds p) (hfree : t.Reserves n b) {statements : List Statement}
    (hnamed : t.scope 1 ∨ ∀ s' ∈ nestedStatements statements, s'.namesModule = false)
    (hn : (Bindings.bindBody p statements b).main.scopes.size ≤ n) : t.Within b (Bindings.bindBody p statements b) := by
  have hbound : (Bindings.bindEach p statements b).main.scopes.size ≤ n := (Fills.bindLocalExports (E := .any)).main_le.trans hn
  have hinside := bindEach hp h hfree statements hnamed hbound
  exact hinside.trans (hinside.closed.bindLocalExports hp statements)

end Territory.Closed

end Check

end Recheck
