import Recheck.Proofs.Check.Imported

/-!
# What a module exports

Binding a statement puts into the scope of a module the names that the statement declares at the top of the file, and into
its exports the names that it says it exports (`Added.bindStatement`); what is declared in namespaces, in blocks for the scope
that all files share and in other files goes elsewhere. So the names that a module exports can be read off its statements
(`exportsOf_ofProgram`).
-/

set_option autoImplicit false

namespace Recheck.Check

open Syntax

/-! ## Names and exports of a scope -/

def Scope.HasName (s : Scope) (name : String) : Prop := (s.values.get? name).isSome ∨ (s.types.get? name).isSome

def Exports.HasName (e : Exports) (name : String) : Prop := (e.values.get? name).isSome ∨ (e.types.get? name).isSome

namespace Bindings

variable (b : Bindings) (id : ScopeId) (name : String)

/-- The name is bound in the scope, as a value or as a type. -/
def HasName : Prop := ∃ s, b.scopeIn? id = some s ∧ s.HasName name

/-- The name is recorded as an export of the scope, as a value or as a type. -/
def HasExport : Prop := ∃ s, b.scopeIn? id = some s ∧ s.exports.HasName name

variable {b id name}

theorem hasName_iff : b.HasName id name ↔ (b.valueIn? id name).isSome ∨ (b.typeIn? id name).isSome := by
  rw [valueIn?_eq, typeIn?_eq, HasName]
  cases b.scopeIn? id <;> simp [Scope.HasName]

theorem hasName_exportsOf (hid : id.home = .main 0) : (b.exportsOf id).HasName name ↔ b.HasExport id name := by
  have hscope : b.scopeAt? id = b.scopeIn? id := by
    cases id with
    | main => rfl
    | inner => exact nomatch hid
  rw [exportsOf, hscope, HasExport]
  cases b.scopeIn? id with
  | none =>
    refine ⟨?_, nofun⟩
    rintro (h | h) <;> exact nomatch h
  | some s => simp

/-! Exports are kept apart from the types that a scope binds. -/

theorem typeIn?_modifyExports {c : ScopeId} {f : Exports → Exports} : (b.modifyExports c f).typeIn? id name = b.typeIn? id name := by
  rw [typeIn?_eq, typeIn?_eq, modifyExports, scopeIn?_modifyScope]
  split
  · cases b.scopeIn? id <;> rfl
  · rfl

theorem typeIn?_exportValue {container : Option ScopeId} {exportedName : String} {symbol : ValueSymbol} :
    (b.exportValue container exportedName symbol).typeIn? id name = b.typeIn? id name := by
  cases container with
  | none => rfl
  | some c => exact typeIn?_modifyExports

theorem typeIn?_exportType {container : Option ScopeId} {exportedName : String} {symbol : TypeSymbol} :
    (b.exportType container exportedName symbol).typeIn? id name = b.typeIn? id name := by
  cases container with
  | none => rfl
  | some c => exact typeIn?_modifyExports

theorem typeIn?_exportLocal {p : Place} {localName exportedName : String} :
    (exportLocal p localName exportedName b).typeIn? id name = b.typeIn? id name := by
  unfold exportLocal
  cases b.valueIn? p.scope localName with
  | none =>
    dsimp only
    split
    · exact typeIn?_exportType
    · rfl
  | some symbol =>
    dsimp only
    split
    · exact typeIn?_exportType.trans typeIn?_exportValue
    · exact typeIn?_exportValue

theorem typeIn?_localExports {p : Place} (specifiers : List ExportSpecifier) :
    (specifiers.foldl (fun b s => exportLocal p s.localName.name s.exportedName.name b) b).typeIn? id name = b.typeIn? id name := by
  induction specifiers generalizing b with
  | nil => rfl
  | cons s specifiers ih => exact ih.trans typeIn?_exportLocal

end Bindings

/-- No namespace stands for the scope. -/
def Entries.apart (r : ScopeId) : Entries := ⟨fun _ _ symbol => symbol ≠ .ofModule (.container r), fun _ _ _ => True, fun _ _ => True⟩

/-- The scope of a module, which no namespace stands for. -/
structure Alone (r : ScopeId) (b : Bindings) : Prop where
  home : r.home = .main 0
  global : r ≠ globalScope
  has : b.Has r
  apart : ∀ id name, b.valueIn? id name ≠ some (.ofModule (.container r))

/-- A step that adds these names and these exports to the scope of a module. -/
structure Added (r : ScopeId) (N E : String → Prop) (b b' : Bindings) : Prop where
  fills : Fills (.apart r) b b'
  names : ∀ n, b'.HasName r n ↔ b.HasName r n ∨ N n
  exports : ∀ n, b'.HasExport r n ↔ b.HasExport r n ∨ E n

variable {r id : ScopeId} {b b' b'' : Bindings} {N E N' E' : String → Prop}

theorem Alone.fills (h : Alone r b) (hfills : Fills (.apart r) b b') : Alone r b' where
  home := h.home
  global := h.global
  has := hfills.has h.has
  apart id name hsymbol := (hfills.values id name _ hsymbol).elim (h.apart id name) fun h => h rfl

namespace Added

theorem alone (h : Added r N E b b') (hb : Alone r b) : Alone r b' := hb.fills h.fills

theorem congr (h : Added r N E b b') (hN : ∀ n, N n ↔ N' n) (hE : ∀ n, E n ↔ E' n) : Added r N' E' b b' where
  fills := h.fills
  names n := (h.names n).trans (or_congr_right (hN n))
  exports n := (h.exports n).trans (or_congr_right (hE n))

theorem of_scope (hfills : Fills (.apart r) b b') (hscope : b'.scopeIn? r = b.scopeIn? r) :
    Added r (fun _ => False) (fun _ => False) b b' where
  fills := hfills
  names n := by rw [Bindings.HasName, hscope, or_false]; rfl
  exports n := by rw [Bindings.HasExport, hscope, or_false]; rfl

theorem refl (b : Bindings) : Added r (fun _ => False) (fun _ => False) b b := of_scope (.refl b) rfl

theorem trans (h : Added r N E b b') (h' : Added r N' E' b' b'') :
    Added r (fun n => N n ∨ N' n) (fun n => E n ∨ E' n) b b'' where
  fills := h.fills.trans h'.fills
  names n := by rw [h'.names, h.names, or_assoc]
  exports n := by rw [h'.exports, h.exports, or_assoc]

theorem foldl {α : Type} {f : Bindings → α → Bindings} {names exports : α → String → Prop} (xs : List α) (hb : Alone r b)
    (hf : ∀ b, Alone r b → ∀ x ∈ xs, Added r (names x) (exports x) b (f b x)) :
    Added r (fun n => ∃ x ∈ xs, names x n) (fun n => ∃ x ∈ xs, exports x n) b (xs.foldl f b) := by
  induction xs generalizing b with
  | nil => exact (refl b).congr (by simp) (by simp)
  | cons x xs ih =>
    have hfirst := hf b hb x List.mem_cons_self
    have hrest := ih (hfirst.alone hb) fun b hb y hy => hf b hb y (List.mem_cons_of_mem _ hy)
    exact (hfirst.trans hrest).congr (by simp) (by simp)

/-! ## Changes of a scope -/

theorem modifyScope (hb : Alone r b) {f : Scope → Scope} (hfills : Fills (.apart r) b (b.modifyScope id f))
    (hnames : ∀ s n, (f s).HasName n ↔ s.HasName n ∨ N n)
    (hexports : ∀ s n, (f s).exports.HasName n ↔ s.exports.HasName n ∨ E n) :
    Added r (fun n => id = r ∧ N n) (fun n => id = r ∧ E n) b (b.modifyScope id f) := by
  by_cases heq : id = r
  · subst heq
    obtain ⟨s, hs⟩ := Option.isSome_iff_exists.mp hb.has
    have hmodified : (b.modifyScope id f).scopeIn? id = some (f s) := by
      rw [Bindings.scopeIn?_modifyScope, if_pos rfl, hs]
      rfl
    refine ⟨hfills, fun n => ?_, fun n => ?_⟩
    · simp [Bindings.HasName, hmodified, hs, hnames]
    · simp [Bindings.HasExport, hmodified, hs, hexports]
  · refine (of_scope hfills ?_).congr (by simp [heq]) (by simp [heq])
    rw [Bindings.scopeIn?_modifyScope, if_neg (Ne.symm heq)]

theorem isSome_insert {α : Type} {d : Dict String α} {key n : String} {a : α} :
    ((d.insert key a).get? n).isSome ↔ (d.get? n).isSome ∨ n = key := by
  rw [Dict.get?_insert]
  by_cases h : key = n
  · simp [h]
  · simp [h, Ne.symm h]

theorem isSome_insertNew {α : Type} {d : Dict String α} {key n : String} {a : α} :
    ((d.insertNew key a).get? n).isSome ↔ (d.get? n).isSome ∨ n = key := by
  rw [Dict.get?_insertNew]
  by_cases h : key = n
  · simp [h]
  · simp [h, Ne.symm h]

section

variable (hb : Alone r b)
include hb

theorem putValue (id : ScopeId) (name : String) (symbol : ValueSymbol) (hsymbol : symbol ≠ .ofModule (.container r)) :
    Added r (fun n => id = r ∧ n = name) (fun _ => False) b (b.putValue id name symbol) := by
  refine (modifyScope hb (E := fun _ => False) (.putValue hsymbol) (fun s n => ?_) (by simp)).congr (fun _ => .rfl) (by simp)
  rw [Scope.HasName, isSome_insert]
  exact or_right_comm

theorem putType (id : ScopeId) (name : String) (symbol : TypeSymbol) :
    Added r (fun n => id = r ∧ n = name) (fun _ => False) b (b.putType id name symbol) := by
  refine (modifyScope hb (E := fun _ => False) (.putType trivial) (fun s n => ?_) (by simp)).congr (fun _ => .rfl) (by simp)
  rw [Scope.HasName, isSome_insert, Scope.HasName, or_assoc]

theorem modifyExports {f : Exports → Exports} (hf : ∀ e n, (f e).HasName n ↔ e.HasName n ∨ E n) :
    Added r (fun _ => False) (fun n => id = r ∧ E n) b (b.modifyExports id f) :=
  (modifyScope hb (N := fun _ => False) .modifyExports (by simp [Scope.HasName]) fun s n => hf s.exports n).congr (by simp)
    fun _ => .rfl

theorem exportValue (container : Option ScopeId) (name : String) (symbol : ValueSymbol) :
    Added r (fun _ => False) (fun n => container = some r ∧ n = name) b (b.exportValue container name symbol) := by
  cases container with
  | none => exact (refl b).congr (by simp) (by simp)
  | some c =>
    change Added r _ _ b (b.modifyExports c fun e => { e with values := e.values.insertNew name symbol })
    refine (modifyExports hb (E := fun n => n = name) fun e n => ?_).congr (by simp) (by simp)
    rw [Exports.HasName, isSome_insertNew]
    exact or_right_comm

theorem exportType (container : Option ScopeId) (name : String) (symbol : TypeSymbol) :
    Added r (fun _ => False) (fun n => container = some r ∧ n = name) b (b.exportType container name symbol) := by
  cases container with
  | none => exact (refl b).congr (by simp) (by simp)
  | some c =>
    change Added r _ _ b (b.modifyExports c fun e => { e with types := e.types.insertNew name symbol })
    refine (modifyExports hb (E := fun n => n = name) fun e n => ?_).congr (by simp) (by simp)
    rw [Exports.HasName, isSome_insertNew, Exports.HasName, or_assoc]

theorem exportBoth {container : Option ScopeId} {name : String} {value : ValueSymbol} {type : TypeSymbol} :
    Added r (fun _ => False) (fun n => container = some r ∧ n = name) b
      ((b.exportValue container name value).exportType container name type) :=
  have hvalue := exportValue hb container name value
  (hvalue.trans (exportType (hvalue.alone hb) container name type)).congr (by simp) (by simp)

theorem exportIf (exported : Bool) (container : Option ScopeId) (name : String) (symbol : ValueSymbol) (h : Added r N E b b') :
    Added r N (fun n => E n ∨ container = some r ∧ exported = true ∧ n = name) b
      (if exported then b'.exportValue container name symbol else b') := by
  cases exported with
  | true => exact (h.trans (exportValue (h.alone hb) container name symbol)).congr (by simp) (by simp)
  | false => exact h.congr (by simp) (by simp)

/-- A value is bound, unless the name is. -/
theorem declareValue (id : ScopeId) (name : String) (symbol : ValueSymbol) (hsymbol : symbol ≠ .ofModule (.container r)) :
    Added r (fun n => id = r ∧ n = name) (fun _ => False) b (b.declareValue id name symbol) := by
  cases hvalue : b.valueIn? id name with
  | none =>
    rw [Bindings.declareValue, hvalue]
    exact putValue hb id name symbol hsymbol
  | some existing =>
    have hbound (n : String) (h : id = r ∧ n = name) : b.HasName r n := by
      obtain ⟨rfl, rfl⟩ := h
      obtain ⟨s, hs, hvalue⟩ := Option.bind_eq_some_iff.mp hvalue
      exact ⟨s, hs, .inl (Option.isSome_iff_exists.mpr ⟨_, hvalue⟩)⟩
    have hscope : (b.declareValue id name symbol).scopeIn? r = b.scopeIn? r := by
      rw [Bindings.declareValue, hvalue]
      dsimp only
      split
      · split
        · exact Bindings.scopeIn?_modifyTable fun _ => rfl
        · rfl
      · rfl
    have hsame := of_scope (r := r) (.declareValue hsymbol) hscope
    refine ⟨hsame.fills, fun n => ?_, hsame.exports⟩
    rw [hsame.names, or_false, or_iff_left_of_imp (hbound n)]

theorem declareImport (id : ScopeId) (binding : ImportBinding) :
    Added r (fun n => id = r ∧ ∃ name ∈ binding.localName, n = name.name) (fun _ => False) b (b.declareImport id binding) := by
  unfold Bindings.declareImport
  split
  · rename_i name hname
    have hvalue := putValue hb id name.name (.imported binding) nofun
    exact (hvalue.trans (putType (hvalue.alone hb) id name.name (.imported binding))).congr (by simp [hname]) (by simp)
  · rename_i hname
    exact (refl b).congr (by simp [hname]) (by simp)

theorem declareInterface (site : Site) (decl : InterfaceDecl) :
    Added r (fun n => site.scope = r ∧ n = decl.name.name) (fun _ => False) b (b.declareInterface site decl) := by
  refine (modifyScope hb (E := fun _ => False) (.declareInterface trivial) (fun s n => ?_) (by simp)).congr (fun _ => .rfl) (by simp)
  rw [Scope.HasName, isSome_insertNew, Scope.HasName, or_assoc]

end

end Added

/-! ## Statements -/

/-- The names that a statement binds in the scope where it stands. -/
def declaredNames : Statement → List String
  | .importDecl d => d.localNames.map (·.name)
  | .importEquals d => [d.name.name]
  | .variableDecl d => d.declarators.map (·.name.name)
  | .function d => d.name.toList.map (·.name)
  | .interface d => [d.name.name]
  | .typeAlias d => [d.name.name]
  | .moduleDecl ⟨_, .named name, _, _⟩ => (Bindings.nameParts name.name).take 1
  | _ => []

/-- The names under which a statement exports what it declares, or what another module exports. -/
def offeredNames : Statement → List String
  | .importEquals d => if d.exported then [d.name.name] else []
  | .variableDecl d => if d.modifiers.exported then d.declarators.map (·.name.name) else []
  | .function d => if d.modifiers.isDefault then ["default"] else if d.modifiers.exported then d.name.toList.map (·.name) else []
  | .interface d => if d.modifiers.isDefault then ["default"] else if d.modifiers.exported then [d.name.name] else []
  | .typeAlias d => if d.modifiers.exported then [d.name.name] else []
  | .moduleDecl ⟨modifiers, .named name, _, _⟩ => if modifiers.exported then (Bindings.nameParts name.name).take 1 else []
  | .exportDecl ⟨.named specifiers (some _), _⟩ => specifiers.map (·.exportedName.name)
  | .exportDecl ⟨.star (some newName) _, _⟩ => [newName.name]
  | .exportDecl ⟨.default _, _⟩ => ["default"]
  | _ => []

/-- A place where neither names nor exports of a scope are bound. -/
structure Bindings.Place.Beside (r : ScopeId) (p : Bindings.Place) : Prop where
  scope : p.scope ≠ r
  container : p.container ≠ some r

namespace Added

variable {p : Bindings.Place}

section

variable (hb : Alone r b)
include hb

theorem bindDeclarators (exported : Bool) {kind : VariableKind} {decls : List Declarator} :
    Added r (fun n => p.scope = r ∧ n ∈ decls.map (·.name.name))
      (fun n => p.container = some r ∧ exported = true ∧ n ∈ decls.map (·.name.name)) b
      (Bindings.bindDeclarators p kind exported decls b) := by
  have one (b' : Bindings) (hb' : Alone r b') (decl : Declarator) :=
    exportIf hb' exported p.container decl.name.name (.declarator decl kind p.site)
      (declareValue hb' p.scope decl.name.name (.declarator decl kind p.site) nofun)
  refine (foldl decls hb fun b' hb' decl _ => one b' hb' decl).congr (fun n => ?_) fun n => ?_ <;>
  · simp only [List.mem_map]
    grind

theorem bindFunction {exported : Bool} {decl : FunctionDecl} (hexported : p.container = some r → exported = decl.modifiers.exported) :
    Added r (fun n => p.scope = r ∧ n ∈ declaredNames (.function decl))
      (fun n => p.container = some r ∧ n ∈ offeredNames (.function decl)) b (Bindings.bindFunction p exported decl b) := by
  unfold Bindings.bindFunction
  cases hname : decl.name with
  | none =>
    refine (exportIf hb _ _ "default" _ (refl b)).congr (by simp [declaredNames, hname]) fun n => ?_
    rw [offeredNames]
    grind
  | some name =>
    have hdeclared := declareValue hb p.scope name.name (.function decl p.site) nofun
    have hnamed := exportIf hb (exported && !decl.modifiers.isDefault) p.container name.name (.function decl p.site)
      hdeclared
    refine (exportIf hb _ _ "default" _ hnamed).congr (by simp [declaredNames, hname]) fun n => ?_
    rw [offeredNames]
    grind

theorem bindInterface {exported : Bool} {decl : InterfaceDecl} (hexported : p.container = some r → exported = decl.modifiers.exported) :
    Added r (fun n => p.scope = r ∧ n ∈ declaredNames (.interface decl))
      (fun n => p.container = some r ∧ n ∈ offeredNames (.interface decl)) b (Bindings.bindInterface p exported decl b) := by
  have hdeclared : Added r (fun n => p.scope = r ∧ n = decl.name.name) (fun _ => False) b (b.declareInterface p.site decl) :=
    declareInterface hb p.site decl
  have hexport (name : String) :=
    exportType (hdeclared.alone hb) p.container name (.interface decl.name.name p.scope)
  unfold Bindings.bindInterface
  dsimp only
  split
  · refine (hdeclared.trans (hexport "default")).congr (by simp [declaredNames]) fun n => ?_
    rw [offeredNames]
    grind
  · split
    · refine (hdeclared.trans (hexport decl.name.name)).congr (by simp [declaredNames]) fun n => ?_
      rw [offeredNames]
      grind
    · refine hdeclared.congr (by simp [declaredNames]) fun n => ?_
      rw [offeredNames]
      grind

theorem bindAlias {exported : Bool} {decl : TypeAlias} (hexported : p.container = some r → exported = decl.modifiers.exported) :
    Added r (fun n => p.scope = r ∧ n ∈ declaredNames (.typeAlias decl))
      (fun n => p.container = some r ∧ n ∈ offeredNames (.typeAlias decl)) b (Bindings.bindAlias p exported decl b) := by
  have hdeclared := putType hb p.scope decl.name.name (.typeAlias decl p.site)
  have hexport := exportType (hdeclared.alone hb) p.container decl.name.name (.typeAlias decl p.site)
  unfold Bindings.bindAlias
  dsimp only
  split
  · refine (hdeclared.trans hexport).congr (by simp [declaredNames]) fun n => ?_
    rw [offeredNames]
    grind
  · refine hdeclared.congr (by simp [declaredNames]) fun n => ?_
    rw [offeredNames]
    grind

theorem bindImport {decl : ImportDecl} :
    Added r (fun n => p.scope = r ∧ n ∈ declaredNames (.importDecl decl)) (fun _ => False) b (Bindings.bindImport p decl b) := by
  unfold Bindings.bindImport
  extract_lets bind bindings
  refine (foldl bindings hb fun b' hb' binding _ => declareImport hb' _ _).congr (fun n => ?_) (by simp)
  have hlocal : bindings.map (·.localName) = decl.localNames.map some := by
    simp [bindings, bind, ImportDecl.localNames, Bindings.Place.binding, Function.comp_def]
  have hmem (name : Ident) : (∃ binding ∈ bindings, name ∈ binding.localName) ↔ name ∈ decl.localNames := by
    have hsame := congrArg (some name ∈ ·) hlocal
    simp only [List.mem_map, Option.some.injEq, exists_eq_right] at hsame
    exact .of_eq hsame
  simp only [declaredNames, List.mem_map]
  grind

theorem bindImportEquals {decl : ImportEquals} :
    Added r (fun n => p.scope = r ∧ n ∈ declaredNames (.importEquals decl))
      (fun n => p.container = some r ∧ n ∈ offeredNames (.importEquals decl)) b (Bindings.bindImportEquals p decl b) := by
  have hdeclared := declareImport hb p.scope (p.binding decl.source.value .equals (some decl.name))
  unfold Bindings.bindImportEquals
  dsimp only
  split
  · rename_i hexported
    refine (hdeclared.trans (exportBoth (hdeclared.alone hb))).congr (by simp [declaredNames, Bindings.Place.binding]) ?_
    simp [offeredNames, hexported]
  · rename_i hexported
    exact hdeclared.congr (by simp [declaredNames, Bindings.Place.binding]) (by simp [offeredNames, hexported])

theorem bindExport {decl : ExportDecl} :
    Added r (fun _ => False) (fun n => p.container = some r ∧ n ∈ offeredNames (.exportDecl decl)) b
      (Bindings.bindExport p decl b) := by
  obtain ⟨kind, span⟩ := decl
  cases kind with
  | named specifiers source =>
    cases source with
    | none => exact (refl b).congr (fun _ => .rfl) (by simp [offeredNames])
    | some source =>
      refine (foldl specifiers hb fun b' hb' s _ => exportBoth hb').congr (by simp) fun n => ?_
      simp only [offeredNames, List.mem_map]
      grind
  | star newName source =>
    cases newName with
    | some newName => exact (exportBoth hb).congr (fun _ => .rfl) (by simp [offeredNames])
    | none =>
      cases hcontainer : p.container with
      | none =>
        rw [Bindings.bindExport]
        simp only [hcontainer]
        exact (refl b).congr (fun _ => .rfl) (by simp)
      | some c =>
        rw [Bindings.bindExport]
        simp only [hcontainer]
        exact (modifyExports hb (E := fun _ => False) (by simp [Exports.HasName])).congr (fun _ => .rfl) (by simp [offeredNames])
  | default value => exact (exportValue hb _ _ _).congr (fun _ => .rfl) (by simp [offeredNames])
  | assignment value =>
    cases hcontainer : p.container with
    | none =>
      rw [Bindings.bindExport]
      simp only [hcontainer]
      exact (refl b).congr (fun _ => .rfl) (by simp)
    | some c =>
      rw [Bindings.bindExport]
      simp only [hcontainer]
      exact (modifyExports hb (E := fun _ => False) (by simp [Exports.HasName])).congr (fun _ => .rfl) (by simp [offeredNames])

/-! ### Namespaces -/

theorem newScope (id : ScopeId) : (b.newScope id).1 ≠ r ∧ Added r (fun _ => False) (fun _ => False) b (b.newScope id).2 := by
  refine ⟨fun heq => ?_, of_scope .newScope (Bindings.scopeIn?_newScope_of_has hb.has)⟩
  have hhome : r.home = id.home := heq ▸ id.home_beside _
  exact Bindings.ne_newScope hb.has hhome heq.symm

theorem namespaceScope (id : ScopeId) (name : String) : (b.namespaceScope id name).1 ≠ r ∧
    Added r (fun n => id = r ∧ n = name) (fun _ => False) b (b.namespaceScope id name).2 := by
  unfold Bindings.namespaceScope
  split
  · rename_i inner hvalue
    have hbound (n : String) (h : id = r ∧ n = name) : b.HasName r n := by
      obtain ⟨rfl, rfl⟩ := h
      obtain ⟨s, hs, hvalue⟩ := Option.bind_eq_some_iff.mp hvalue
      exact ⟨s, hs, .inl (Option.isSome_iff_exists.mpr ⟨_, hvalue⟩)⟩
    refine ⟨fun heq => hb.apart id name (heq ▸ hvalue), .refl b, fun n => ?_, fun n => (or_false _).symm.to_iff⟩
    rw [or_iff_left_of_imp (hbound n)]
  · obtain ⟨hne, hnew⟩ := newScope hb id
    have hsymbol : ValueSymbol.ofModule (.container (b.newScope id).1) ≠ .ofModule (.container r) :=
      fun heq => hne (ModuleRef.container.inj (ValueSymbol.ofModule.inj heq))
    have hvalue := putValue (hnew.alone hb) id name _ hsymbol
    have hnamed := hnew.trans hvalue
    exact ⟨hne, (hnamed.trans (putType (hnamed.alone hb) id name _)).congr (by simp) (by simp)⟩

/-- The outermost namespace of a dotted name is bound where the name stands, and the others inside of it. -/
theorem openNamespaces (exported : Bool) {names : List String} (hnames : names ≠ []) :
    (Bindings.openNamespaces p exported names b).1.Beside r ∧
      Added r (fun n => p.scope = r ∧ n ∈ names.take 1) (fun n => p.container = some r ∧ exported = true ∧ n ∈ names.take 1) b
        (Bindings.openNamespaces p exported names b).2 := by
  induction names generalizing p exported b with
  | nil => exact absurd rfl hnames
  | cons name names ih =>
    unfold Bindings.openNamespaces
    obtain ⟨hne, hspace⟩ := namespaceScope hb p.scope name
    generalize b.namespaceScope p.scope name = opened at hne hspace ⊢
    obtain ⟨inner, b₁⟩ := opened
    dsimp only at hne hspace ⊢
    have hfirst : Added r (fun n => p.scope = r ∧ n ∈ (name :: names).take 1)
        (fun n => p.container = some r ∧ exported = true ∧ n ∈ (name :: names).take 1) b (if exported then
          (b₁.exportValue p.container name (.ofModule (.container inner))).exportType p.container name
            (.ofModule (.container inner))
          else b₁) := by
      cases exported with
      | true => exact (hspace.trans (exportBoth (hspace.alone hb))).congr (by simp) (by simp)
      | false => exact hspace.congr (by simp) (by simp)
    generalize (if exported then
      (b₁.exportValue p.container name (.ofModule (.container inner))).exportType p.container name (.ofModule (.container inner))
      else b₁) = b₂ at hfirst ⊢
    have hbeside : Bindings.Place.Beside r { p with scope := inner, container := some inner } :=
      ⟨hne, fun heq => hne (Option.some.inj heq)⟩
    cases names with
    | nil => exact ⟨hbeside, hfirst⟩
    | cons next names =>
      obtain ⟨hinner, hrest⟩ := ih (hfirst.alone hb) true (p := { p with scope := inner, container := some inner })
        (List.cons_ne_nil next names)
      exact ⟨hinner, (hfirst.trans hrest).congr (by simp [hne]) (by simp [hne])⟩

omit hb in
theorem nameParts_ne_nil (name : String) : Bindings.nameParts name ≠ [] := by
  have hsplit (cs : List Char) : Bindings.nameParts.split cs ≠ [] := by
    cases cs with
    | nil => exact nofun
    | cons c cs =>
      unfold Bindings.nameParts.split
      split
      · split <;> exact nofun
      · exact nofun
  unfold Bindings.nameParts
  simpa using hsplit name.toList

theorem openModule (key : NodeKey) (exported ambient : Bool) (modifiers : Modifiers) (name : ModuleName)
    (body : Option (List Statement)) (span : Span) (hexported : p.container = some r → exported = modifiers.exported) :
    (Bindings.openModule p key exported ambient name b).1.Beside r ∧
      Added r (fun n => p.scope = r ∧ n ∈ declaredNames (.moduleDecl ⟨modifiers, name, body, span⟩))
        (fun n => p.container = some r ∧ n ∈ offeredNames (.moduleDecl ⟨modifiers, name, body, span⟩)) b
        (Bindings.openModule p key exported ambient name b).2 := by
  have hnote {b' : Bindings} {inner : ScopeId} :
      Added r (fun _ => False) (fun _ => False) b' (b'.setModuleScope p.scope key inner) :=
    of_scope (.setModuleScope trivial) (Bindings.scopeIn?_modifyTable fun _ => rfl)
  unfold Bindings.openModule
  cases name with
  | global => exact ⟨⟨hb.global.symm, nofun⟩, hnote.congr (by simp [declaredNames]) (by simp [offeredNames])⟩
  | ambient =>
    obtain ⟨hne, hnew⟩ := newScope hb p.scope
    exact ⟨⟨hne, fun heq => hne (Option.some.inj heq)⟩,
      (hnew.trans hnote).congr (by simp [declaredNames]) (by simp [offeredNames])⟩
  | named name =>
    obtain ⟨hbeside, hopened⟩ := openNamespaces hb exported (p := p) (nameParts_ne_nil name.name)
    refine ⟨⟨hbeside.scope, hbeside.container⟩, (hopened.trans hnote).congr (by simp [declaredNames]) fun n => ?_⟩
    rw [offeredNames]
    grind

/-! ### Lists of local exports -/

theorem exportLocal (name exportedName : String) (hp : p.container = some r → p.scope = r) :
    Added r (fun _ => False) (fun n => p.container = some r ∧ n = exportedName ∧ b.HasName r name) b
      (Bindings.exportLocal p name exportedName b) := by
  have hname (hcontainer : p.container = some r) :
      b.HasName r name ↔ (b.valueIn? p.scope name).isSome ∨ (b.typeIn? p.scope name).isSome := by
    rw [hp hcontainer, Bindings.hasName_iff]
  unfold Bindings.exportLocal
  cases hvalue : b.valueIn? p.scope name with
  | none =>
    dsimp only
    cases htype : b.typeIn? p.scope name with
    | none =>
      refine (refl b).congr (fun _ => .rfl) fun n => ?_
      grind
    | some type =>
      refine (exportType hb _ _ _).congr (fun _ => .rfl) fun n => ?_
      grind
  | some value =>
    dsimp only
    rw [Bindings.typeIn?_exportValue]
    cases htype : b.typeIn? p.scope name with
    | none =>
      refine (exportValue hb _ _ _).congr (fun _ => .rfl) fun n => ?_
      grind
    | some type =>
      refine (exportBoth hb).congr (fun _ => .rfl) fun n => ?_
      grind

theorem localExports (specifiers : List ExportSpecifier) (hp : p.container = some r → p.scope = r) :
    Added r (fun _ => False)
      (fun n => p.container = some r ∧ ∃ s ∈ specifiers, n = s.exportedName.name ∧ b.HasName r s.localName.name) b
      (specifiers.foldl (fun b s => Bindings.exportLocal p s.localName.name s.exportedName.name b) b) := by
  induction specifiers generalizing b with
  | nil => exact (refl b).congr (fun _ => .rfl) (by simp)
  | cons s specifiers ih =>
    have hfirst := exportLocal hb s.localName.name s.exportedName.name hp
    have hrest := ih (hfirst.alone hb)
    -- the names that are bound are the same all along
    simp only [hfirst.names, or_false] at hrest
    refine (hfirst.trans hrest).congr (by simp) fun n => ?_
    simp only [List.mem_cons]
    grind

/-- Of the lists of local exports those names count that are bound. -/
theorem bindLocalExports (statements : List Statement) (hp : p.container = some r → p.scope = r) :
    Added r (fun _ => False) (fun n => p.container = some r ∧
      ((∃ s ∈ Bindings.localExports statements, n = s.exportedName.name ∧ b.HasName r s.localName.name) ∨
        n = "default" ∧ ∃ name, Bindings.defaultName? statements = some name ∧ (b.typeIn? p.scope name).isSome)) b
      (Bindings.bindLocalExports p statements b) := by
  have hlists := localExports hb (Bindings.localExports statements) hp
  unfold Bindings.bindLocalExports
  dsimp only
  cases hdefault : Bindings.defaultName? statements with
  | none => exact hlists.congr (fun _ => .rfl) (by simp)
  | some name =>
    dsimp only
    rw [Bindings.typeIn?_localExports]
    cases htype : b.typeIn? p.scope name with
    | none => exact hlists.congr (fun _ => .rfl) (by simp [htype])
    | some type =>
      refine (hlists.trans (exportType (hlists.alone hb) _ _ _)).congr (by simp) fun n => ?_
      simp [htype, and_or_left]

end

/-! ### The statements of a body -/

theorem addAmbient (name : ModuleName) (ref : ModuleRef) :
    Added r (fun _ => False) (fun _ => False) b (Bindings.addAmbient name ref b) := by
  refine of_scope (.addAmbient name ref) ?_
  unfold Bindings.addAmbient
  split
  · cases r <;> rfl
  · rfl

mutual

/-- A statement binds the names that it declares and exports those that it says it exports. What stands inside of a namespace or
in a block for the scope that all files share adds nothing. -/
theorem bindStatement (p : Bindings.Place) {b : Bindings} (hb : Alone r b) (hp : p.container = some r → p.implicitExport = false) :
    ∀ s : Statement, Added r (fun n => p.scope = r ∧ n ∈ declaredNames s) (fun n => p.container = some r ∧ n ∈ offeredNames s) b
      (Bindings.bindStatement p s b)
  | .moduleDecl ⟨modifiers, name, some body, span⟩ => by
    rw [Bindings.bindStatement]
    obtain ⟨hbeside, hopened⟩ := openModule hb ⟨.moduleDecl, p.home, span.start⟩ (modifiers.exported || p.implicitExport)
      (p.implicitExport || modifiers.declared) modifiers name (some body) span fun h => by rw [hp h, Bool.or_false]
    dsimp only at hbeside hopened ⊢
    generalize Bindings.openModule p ⟨.moduleDecl, p.home, span.start⟩ (modifiers.exported || p.implicitExport)
      (p.implicitExport || modifiers.declared) name b = opened at hbeside hopened ⊢
    obtain ⟨place, b₁⟩ := opened
    have heach := bindEach place (hopened.alone hb) (fun h => absurd h hbeside.container) body
    have hinner := hopened.trans heach
    have hlists := bindLocalExports (hinner.alone hb) body fun h => absurd h hbeside.container
    refine ((hinner.trans hlists).trans (addAmbient name _)).congr (fun n => ?_) fun n => ?_
    · simp [hbeside.scope]
    · simp [hbeside.container]
  | .moduleDecl ⟨modifiers, name, none, span⟩ => by
    rw [Bindings.bindStatement]
    cases name with
    | global => exact (refl b).congr (by simp [declaredNames]) (by simp [offeredNames])
    | ambient specifier => exact (addAmbient (.ambient specifier) _).congr (by simp [declaredNames]) (by simp [offeredNames])
    | named name =>
      refine (openNamespaces hb _ (nameParts_ne_nil name.name)).2.congr (fun _ => .rfl) fun n => ?_
      rw [offeredNames]
      grind
  | .variableDecl d => by
    rw [Bindings.bindStatement]
    refine (bindDeclarators hb _).congr (fun _ => .rfl) fun n => ?_
    rw [offeredNames]
    grind
  | .function d => by
    rw [Bindings.bindStatement]
    exact bindFunction hb fun h => by rw [hp h, Bool.or_false]
  | .interface d => by
    rw [Bindings.bindStatement]
    exact bindInterface hb fun h => by rw [hp h, Bool.or_false]
  | .typeAlias d => by
    rw [Bindings.bindStatement]
    exact bindAlias hb fun h => by rw [hp h, Bool.or_false]
  | .importDecl d => by
    rw [Bindings.bindStatement]
    exact (bindImport hb).congr (fun _ => .rfl) (by simp [offeredNames])
  | .importEquals d => by
    rw [Bindings.bindStatement]
    exact bindImportEquals hb
  | .exportDecl d => by
    rw [Bindings.bindStatement]
    exact (bindExport hb).congr (by simp [declaredNames]) fun _ => .rfl
  | .ifElse _ | .block _ | .expression _ | .ret _ | .empty _ | .error _ =>
    (refl b).congr (by simp [declaredNames]) (by simp [offeredNames])

theorem bindEach (p : Bindings.Place) {b : Bindings} (hb : Alone r b) (hp : p.container = some r → p.implicitExport = false) :
    ∀ statements : List Statement, Added r (fun n => p.scope = r ∧ ∃ s ∈ statements, n ∈ declaredNames s)
      (fun n => p.container = some r ∧ ∃ s ∈ statements, n ∈ offeredNames s) b (Bindings.bindEach p statements b)
  | [] => (refl b).congr (by simp) (by simp)
  | s :: rest => by
    have hfirst := bindStatement p hb hp s
    refine (hfirst.trans (bindEach p (hfirst.alone hb) hp rest)).congr (fun n => ?_) fun n => ?_ <;>
    simp [and_or_left]

end

end Added

/-! ## Files -/

/-- The names that the statements of a module export: by themselves, or in a list of names that are declared among them. -/
def ExportsName (statements : List Statement) (name : String) : Prop :=
  (∃ s ∈ statements, name ∈ offeredNames s) ∨
    ∃ specifier ∈ Bindings.localExports statements, name = specifier.exportedName.name ∧
      ∃ s ∈ statements, specifier.localName.name ∈ declaredNames s

namespace Added

variable {p : Bindings.Place} {statements : List Statement}

theorem default_mem_offeredNames {name : String} (h : Bindings.defaultName? statements = some name) :
    ∃ s ∈ statements, "default" ∈ offeredNames s := by
  obtain ⟨s, hs, hname⟩ := List.mem_filterMap.mp (List.mem_of_getLast? h)
  refine ⟨s, hs, ?_⟩
  split at hname
  · exact List.mem_singleton_self _
  · exact nomatch hname

/-- The body of the module itself. -/
theorem bindBody (hb : Alone r b) (hnew : ∀ n, ¬b.HasName r n) (hscope : p.scope = r) (hcontainer : p.container = some r)
    (himplicit : p.implicitExport = false) :
    Added r (fun n => ∃ s ∈ statements, n ∈ declaredNames s) (ExportsName statements) b
      (Bindings.bindBody p statements b) := by
  have heach := bindEach p hb (fun _ => himplicit) statements
  have hlists := bindLocalExports (heach.alone hb) statements fun _ => hscope
  have hnames (n : String) : (Bindings.bindEach p statements b).HasName r n ↔ ∃ s ∈ statements, n ∈ declaredNames s := by
    rw [heach.names]
    simp [hnew, hscope]
  simp only [hnames] at hlists
  refine (heach.trans hlists).congr (by simp [hscope]) fun n => ?_
  unfold ExportsName
  constructor
  · rintro (⟨-, hoffers⟩ | ⟨-, hlist | ⟨rfl, name, hdefault, -⟩⟩)
    · exact .inl hoffers
    · exact .inr hlist
    · exact .inl (default_mem_offeredNames hdefault)
  · rintro (hoffers | hlist)
    · exact .inl ⟨hcontainer, hoffers⟩
    · exact .inr ⟨hcontainer, .inl hlist⟩

/-- The body of another file. -/
theorem bindBody_beside (hb : Alone r b) (hp : p.Beside r) :
    Added r (fun _ => False) (fun _ => False) b (Bindings.bindBody p statements b) := by
  have heach := bindEach p hb (fun h => absurd h hp.container) statements
  have hlists := bindLocalExports (heach.alone hb) statements fun h => absurd h hp.container
  exact (heach.trans hlists).congr (by simp [hp.scope]) (by simp [hp.container])

end Added

/-! ## Programs -/

/-- Some files have their scopes, and nothing is bound but what needs no declaration: no namespace stands anywhere, and the
scopes of modules are new. -/
structure Blank (done : List SourceUnit) (b : Bindings) : Prop where
  apart : ∀ id name inner, b.valueIn? id name ≠ some (.ofModule (.container inner))
  seen : ∀ path id, b.modules.get? path = some id → ∃ u ∈ done, (u.path == path) = true
  files : ∀ path id, b.modules.get? path = some id → b.fileScopes.get? path = some id
  own : ∀ u ∈ done, u.isModule = true → (b.modules.get? u.path).isSome
  new : ∀ path id, b.modules.get? path = some id → b.scopeIn? id = some (Scope.inside (some globalScope))

section

variable {program : Program} {unit : SourceUnit} {done units : List SourceUnit}

theorem blank_start : Blank [] (Bindings.start program) := by
  refine ⟨fun id name inner hvalue => ?_, nofun, nofun, nofun, nofun⟩
  obtain ⟨s, hs, hvalue⟩ := Option.bind_eq_some_iff.mp hvalue
  cases id with
  | inner => exact nomatch hs
  | main n =>
    match n, hs with
    | 0, hs =>
      obtain rfl := Option.some.inj hs
      obtain ⟨_, hbuiltin⟩ := exists_builtin_value hvalue
      exact nomatch hbuiltin
    | 1, hs =>
      obtain rfl := Option.some.inj hs
      exact nomatch hvalue
    | n + 2, hs => exact nomatch hs

theorem Blank.openFile (h : Blank done b) (hglobal : b.Has globalScope) (hnew : ∀ u ∈ done, (u.path == unit.path) = false) :
    Blank (done ++ [unit]) (b.openFile unit) := by
  have hother {path : Path} {id : ScopeId} (hid : b.modules.get? path = some id) : (unit.path == path) = false := by
    obtain ⟨u, hu, hpath⟩ := h.seen path id hid
    refine Bool.eq_false_iff.mpr fun heq => ?_
    exact absurd (BEq.trans hpath (BEq.symm heq)) (Bool.eq_false_iff.mp (hnew u hu))
  have hseen {path : Path} {id : ScopeId} (hid : b.modules.get? path = some id) : ∃ u ∈ done ++ [unit], (u.path == path) = true := by
    obtain ⟨u, hu, hpath⟩ := h.seen path id hid
    exact ⟨u, List.mem_append_left _ hu, hpath⟩
  have hlast : unit ∈ done ++ [unit] := List.mem_append_right _ (List.mem_singleton_self unit)
  unfold Bindings.openFile
  split
  · let b' : Bindings := (b.newScope globalScope).2
    have hfills : Fills ⟨fun _ _ _ => False, fun _ _ _ => True, fun _ _ => True⟩ b b' := .newScope
    have hlookup {path : Path} {id : ScopeId} (hid : (b.modules.insert unit.path (b.newScope globalScope).1).get? path = some id) :
        (unit.path == path) = true ∧ id = (b.newScope globalScope).1 ∨ b.modules.get? path = some id := by
      rw [Dict.get?_insert] at hid
      split at hid
      · rename_i heq
        exact .inl ⟨heq, (Option.some.inj hid).symm⟩
      · exact .inr hid
    refine ⟨fun id name inner hvalue => ?_, fun path id hid => ?_, fun path id hid => ?_, fun u hu hmodule => ?_, fun path id hid => ?_⟩
    · have hvalue : b'.valueIn? id name = some (.ofModule (.container inner)) := by cases id <;> exact hvalue
      exact (hfills.values id name _ hvalue).elim (h.apart id name inner) fun h => h
    · rcases hlookup hid with ⟨hpath, -⟩ | hid
      · exact ⟨unit, hlast, hpath⟩
      · exact hseen hid
    · change (b.fileScopes.insert unit.path (b.newScope globalScope).1).get? path = some id
      rcases hlookup hid with ⟨hpath, rfl⟩ | hid
      · rw [Dict.get?_insert, if_pos hpath]
      · rw [Dict.get?_insert, hother hid]
        exact h.files path id hid
    · change ((b.modules.insert unit.path (b.newScope globalScope).1).get? u.path).isSome
      rw [Dict.get?_insert]
      split
      · rfl
      · rename_i hne
        refine h.own u ((List.mem_append.mp hu).resolve_right fun hu => hne ?_) hmodule
        exact List.mem_singleton.mp hu ▸ BEq.refl _
    · have hscope : b'.scopeIn? id = some (Scope.inside (some globalScope)) := by
        rcases hlookup hid with ⟨-, rfl⟩ | hid
        · exact (Bindings.scopeIn?_newScope hglobal).trans (if_pos rfl)
        · exact (Bindings.scopeIn?_newScope_of_has (Option.isSome_iff_exists.mpr ⟨_, h.new path id hid⟩)).trans (h.new path id hid)
      cases id <;> exact hscope
  · rename_i hscript
    refine ⟨fun id name inner hvalue => h.apart id name inner (by cases id <;> exact hvalue), fun path id => hseen,
      fun path id hid => ?_, fun u hu hmodule => ?_, fun path id hid => ?_⟩
    · change (b.fileScopes.insert unit.path globalScope).get? path = some id
      rw [Dict.get?_insert, hother hid]
      exact h.files path id hid
    · refine h.own u ((List.mem_append.mp hu).resolve_right fun hu => hscript ?_) hmodule
      exact List.mem_singleton.mp hu ▸ hmodule
    · have hscope := h.new path id hid
      cases id <;> exact hscope

theorem blank_openFiles (hpaths : units.Pairwise fun u v => (u.path == v.path) = false) :
    Blank units (units.foldl Bindings.openFile (Bindings.start program)) := by
  suffices ∀ done b, Laid done b → Blank done b → (∀ u ∈ done, ∀ v ∈ units, (u.path == v.path) = false) →
      Blank (done ++ units) (units.foldl Bindings.openFile b) from this [] _ laid_start blank_start nofun
  induction units with
  | nil => exact fun done b _ h _ => (List.append_nil done).symm ▸ h
  | cons unit units ih =>
    intro done b hlaid h hdone
    obtain ⟨hunit, hpaths⟩ := List.pairwise_cons.mp hpaths
    have hnew (u : SourceUnit) (hu : u ∈ done) := hdone u hu unit List.mem_cons_self
    have hrest := ih hpaths (done ++ [unit]) _ (hlaid.openFile hnew) (h.openFile hlaid.seated.global hnew) fun u hu v hv => by
      rcases List.mem_append.mp hu with hu | hu
      · exact hdone u hu v (List.mem_cons_of_mem _ hv)
      · exact List.mem_singleton.mp hu ▸ hunit v hv
    rwa [List.append_assoc, List.singleton_append] at hrest

/-- Files stay where they are when one of them is bound. -/
theorem Seated.keeps (hseated : Seated b) (hbound : Bound .ofFiles b) (unit : SourceUnit) :
    Seated (b.bindFile unit) ∧ Bound .ofFiles (b.bindFile unit) ∧ (b.bindFile unit).modules = b.modules ∧
      (b.bindFile unit).filePlace = b.filePlace := by
  have hbinds := hseated.bindFile hbound ⟨fun _ => trivial, fun _ _ => trivial⟩ (fun _ => .rfl) unit
  have hrest := hbinds.rest
  have hmodules : (b.bindFile unit).modules = b.modules := (congrArg Bindings.modules hrest :)
  have hfiles : (b.bindFile unit).fileScopes = b.fileScopes := (congrArg Bindings.fileScopes hrest :)
  refine ⟨hseated.of_binds hbinds fun _ h => h, hbinds.bound, hmodules, ?_⟩
  funext u
  rw [Bindings.filePlace, Bindings.filePlace, Bindings.fileSite, Bindings.fileSite, hmodules, hfiles]

/-- Other files add nothing to a module. -/
theorem Added.bindFiles (units : List SourceUnit) (hseated : Seated b) (hbound : Bound .ofFiles b) (hb : Alone r b)
    (hunits : ∀ u ∈ units, (b.filePlace u).Beside r) :
    let b' := units.foldl Bindings.bindFile b
    Added r (fun _ => False) (fun _ => False) b b' ∧ Seated b' ∧ Bound .ofFiles b' ∧ b'.modules = b.modules ∧
      b'.filePlace = b.filePlace := by
  induction units generalizing b with
  | nil => exact ⟨.refl b, hseated, hbound, rfl, rfl⟩
  | cons u units ih =>
    obtain ⟨hseated', hbound', hmodules, hplace⟩ := hseated.keeps hbound u
    have hfirst : Added r (fun _ => False) (fun _ => False) b (b.bindFile u) :=
      Added.bindBody_beside (p := b.filePlace u) hb (hunits u List.mem_cons_self)
    obtain ⟨hrest, hlast⟩ := ih hseated' hbound' (hfirst.alone hb) fun v hv => by
      rw [hplace]
      exact hunits v (List.mem_cons_of_mem _ hv)
    exact ⟨(hfirst.trans hrest).congr (by simp) (by simp), by rwa [hmodules, hplace] at hlast⟩

/-- What a module exports in a program, aside from what it passes on: the names that its statements export. -/
theorem exportsOf_ofProgram (hp : program.WellRead) (hunit : unit ∈ program.units) (hmodule : unit.isModule = true) :
    ∃ r, (Bindings.ofProgram program).modules.get? unit.path = some r ∧
      ∀ name, ((Bindings.ofProgram program).exportsOf r).HasName name ↔ ExportsName unit.tree.statements name := by
  have hlaid : Laid program.units (program.units.foldl Bindings.openFile (Bindings.start program)) := laid_openFiles hp.apart
  have hblank : Blank program.units (program.units.foldl Bindings.openFile (Bindings.start program)) := blank_openFiles hp.apart
  have hfinal : program.units.foldl Bindings.bindFile (program.units.foldl Bindings.openFile (Bindings.start program)) =
    Bindings.ofProgram program := rfl
  generalize program.units.foldl Bindings.openFile (Bindings.start program) = b at hlaid hblank hfinal
  generalize Bindings.ofProgram program = final at hfinal ⊢
  obtain ⟨r, hr⟩ := Option.isSome_iff_exists.mp (hblank.own unit hunit hmodule)
  have hnew := hblank.new _ _ hr
  have hfile := hblank.files _ _ hr
  have hglobal : r ≠ globalScope := by
    rintro rfl
    have houter : b.outer? globalScope = some globalScope := congrArg (·.bind Scope.parent) hnew
    exact absurd (Option.some.inj (houter.symm.trans hlaid.global)) (by decide)
  have hseat := hlaid.seated.modules _ _ hr
  have hb : Alone r b := ⟨hseat.1, hglobal, hseat.2, fun id name => hblank.apart id name r⟩
  have hother (u : SourceUnit) (hne : (u.path == unit.path) = false) : (b.filePlace u).Beside r := by
    have hscope (hu : b.fileScopes.get? u.path = some r) : False := by
      rcases hlaid.apart _ _ _ hu hfile with heq | heq
      · exact hglobal heq
      · exact absurd heq (Bool.eq_false_iff.mp hne)
    refine ⟨fun heq => ?_, fun heq => hscope (hblank.files _ _ heq)⟩
    rw [Bindings.filePlace, Bindings.fileSite] at heq
    cases hu : b.fileScopes.get? u.path with
    | none => exact hglobal (by rw [← heq, hu]; rfl)
    | some scope => exact hscope (by rw [← heq, hu]; rfl)
  have hplace : (b.filePlace unit).scope = r ∧ (b.filePlace unit).container = some r := by
    rw [Bindings.filePlace, Bindings.fileSite, hfile]
    exact ⟨rfl, hr⟩
  -- The files before the module, the module, and the files behind it.
  obtain ⟨front, back, hunits⟩ := List.append_of_mem hunit
  have happart := hunits ▸ hp.apart
  obtain ⟨-, hback, hfront⟩ := List.pairwise_append.mp happart
  rw [hunits, List.foldl_append, List.foldl_cons] at hfinal
  obtain ⟨hbefore, hseated, hbound, hmodules, hplaces⟩ := Added.bindFiles front hlaid.seated hlaid.bound hb
    fun u hu => hother u (hfront u hu unit List.mem_cons_self)
  generalize front.foldl Bindings.bindFile b = b₁ at hbefore hseated hbound hmodules hplaces hfinal
  have hempty (n : String) : ¬b₁.HasName r n ∧ ¬b₁.HasExport r n := by
    rw [hbefore.names, hbefore.exports, or_false, or_false, Bindings.HasName, Bindings.HasExport, hnew]
    constructor <;>
    · rintro ⟨s, hs, hname⟩
      obtain rfl := Option.some.inj hs
      rcases hname with hname | hname <;> cases hname
  have hown : Added r _ (ExportsName unit.tree.statements) b₁ (b₁.bindFile unit) :=
    Added.bindBody (p := b₁.filePlace unit) (hbefore.alone hb) (fun n => (hempty n).1) (by rw [hplaces]; exact hplace.1)
      (by rw [hplaces]; exact hplace.2) rfl
  obtain ⟨hseated', hbound', hmodules', hplaces'⟩ := hseated.keeps hbound unit
  obtain ⟨hbehind, -, -, hmodules'', -⟩ := Added.bindFiles back hseated' hbound' (hown.alone (hbefore.alone hb))
    fun u hu => by
      rw [hplaces', hplaces]
      exact hother u (BEq.symm_false ((List.pairwise_cons.mp hback).1 u hu))
  rw [hfinal] at hbehind hmodules''
  refine ⟨r, by rw [hmodules'', hmodules', hmodules, hr], fun name => ?_⟩
  have hexport : final.HasExport r name ↔ ExportsName unit.tree.statements name := by
    rw [hbehind.exports, hown.exports, or_false, or_iff_right (hempty name).2]
  rw [← hexport, Bindings.hasName_exportsOf hseat.1]

end

end Recheck.Check
