import Recheck.Proofs.Check.Files
import Recheck.Proofs.Check.Filling

/-!
# What the names of scopes go through

Binding does one thing after the other with the names of scopes. A variable or a function takes a name that is free, and an
import, a parameter or a namespace takes it from whatever holds it. All that has been done is a list of `Deed`s, which can be
written down along the statements (`Bindings.deeds`), and the tables hold what came of it (`Follows`): what a name stands for is
what holds it in the end, and the variables that are noted as clashing are those that met, or were met by, one that
held their name (`Clashes`).
-/

set_option autoImplicit false

namespace Recheck.Check

open Syntax

/-! ## Deeds -/

/-- Something that is done with a name of a scope. -/
inductive Deed where
  /-- A variable takes its name if that is free. -/
  | variable (decl : Declarator) (kind : VariableKind) (site : Site)
  /-- So does a function. -/
  | function (name : String) (scope : ScopeId)
  /-- An import, a parameter or a namespace takes the name from whatever holds it. -/
  | takes (name : String) (scope : ScopeId)
deriving DecidableEq

namespace Deed

def name : Deed → String
  | .variable decl _ _ => decl.name.name
  | .function name _ => name
  | .takes name _ => name

def scope : Deed → ScopeId
  | .variable _ _ site => site.scope
  | .function _ scope => scope
  | .takes _ scope => scope

/-- The identity of a variable. -/
def key? : Deed → Option NodeKey
  | .variable decl _ site => some ⟨.declarator, site.file, decl.span.start⟩
  | _ => none

/-- What holds a name after this. -/
def after : Option Deed → Deed → Option Deed
  | some held, .variable .. => some held
  | some held, .function .. => some held
  | _, deed => some deed

/-- Two variables of one name clash if either is block scoped. -/
def Clash : Deed → Deed → Prop
  | .variable _ kind _, .variable _ kind' _ => kind ≠ .var ∨ kind' ≠ .var
  | _, _ => False

/-- The deed that a symbol of a scope comes from. -/
def ofSymbol (scope : ScopeId) (name : String) : ValueSymbol → Deed
  | .declarator decl kind site => .variable decl kind site
  | .function .. => .function name scope
  | _ => .takes name scope

end Deed

/-- What holds a name after all that was done with it. -/
def holder (row : List Deed) : Option Deed := row.foldl Deed.after none

/-- A deed meets one that holds the name and clashes with it, or is met so. -/
def Clashes (row : List Deed) (deed : Deed) : Prop :=
  ∃ before later rest held, row = before ++ later :: rest ∧ holder before = some held ∧ held.Clash later ∧
    (deed = held ∨ deed = later)

/-- All that was done with a name of a scope. -/
def about (scope : ScopeId) (name : String) (log : List Deed) : List Deed :=
  log.filter fun deed => deed.scope = scope ∧ deed.name = name

/-- In the table of a scope a variable of this identity clashes. -/
def Redeclared (log : List Deed) (scope : ScopeId) (key : NodeKey) : Prop :=
  ∃ other name deed, other.home = scope.home ∧ deed.key? = some key ∧ Clashes (about other name log) deed

section

variable {row log more : List Deed} {deed later : Deed} {scope : ScopeId} {name : String}

theorem holder_append_singleton : holder (row ++ [deed]) = deed.after (holder row) := List.foldl_append ..

theorem clashes_append_singleton : Clashes (row ++ [later]) deed ↔
    Clashes row deed ∨ ∃ held, holder row = some held ∧ held.Clash later ∧ (deed = held ∨ deed = later) := by
  constructor
  · rintro ⟨before, meets, rest, held, hrow, hheld, hclash, hdeed⟩
    rcases List.eq_nil_or_concat rest with rfl | ⟨rest, last, rfl⟩
    · obtain ⟨rfl, heq⟩ := List.append_inj' hrow rfl
      obtain rfl := List.singleton_inj.mp heq
      exact .inr ⟨held, hheld, hclash, hdeed⟩
    · rw [List.concat_eq_append, ← List.cons_append, ← List.append_assoc] at hrow
      obtain ⟨rfl, -⟩ := List.append_inj' hrow rfl
      exact .inl ⟨before, meets, rest, held, rfl, hheld, hclash, hdeed⟩
  · rintro (⟨before, meets, rest, held, rfl, hheld, hclash, hdeed⟩ | ⟨held, hheld, hclash, hdeed⟩)
    · exact ⟨before, meets, rest ++ [later], held, by simp, hheld, hclash, hdeed⟩
    · exact ⟨row, later, [], held, rfl, hheld, hclash, hdeed⟩

theorem mem_about : deed ∈ about scope name log ↔ deed ∈ log ∧ deed.scope = scope ∧ deed.name = name := by
  simp [about]

theorem about_append : about scope name (log ++ more) = about scope name log ++ about scope name more := List.filter_append ..

theorem about_singleton_self (hscope : deed.scope = scope) (hname : deed.name = name) : about scope name [deed] = [deed] :=
  List.filter_eq_self.mpr fun _ hmem => by simp [List.mem_singleton.mp hmem, hscope, hname]

theorem about_singleton_of_ne (hne : ¬(scope = deed.scope ∧ name = deed.name)) : about scope name [deed] = [] :=
  List.filter_eq_nil_iff.mpr fun _ hmem => by
    rw [List.mem_singleton.mp hmem, decide_eq_true_iff]
    exact fun ⟨hscope, hname⟩ => hne ⟨hscope.symm, hname.symm⟩

/-- Where only variables and functions go after a name, the first of them holds it. -/
theorem holder_eq_head? (h : ∀ deed ∈ row, ∀ name scope, deed ≠ .takes name scope) : holder row = row.head? := by
  induction row using List.reverseRecOn with
  | nil => rfl
  | append_singleton row last ih =>
    rw [holder_append_singleton, ih fun deed hdeed => h deed (List.mem_append_left _ hdeed)]
    cases row with
    | nil => cases last <;> rfl
    | cons first rest =>
      cases last with
      | takes name scope => exact absurd rfl (h _ (List.mem_append_right _ List.mem_cons_self) name scope)
      | _ => rfl

/-- So a variable clashes with the first one or, if it is the first one itself, with any other. -/
theorem clashes_iff_first {first : Deed} (h : ∀ deed ∈ first :: row, ∀ name scope, deed ≠ .takes name scope) :
    Clashes (first :: row) deed ↔ ∃ later ∈ row, first.Clash later ∧ (deed = first ∨ deed = later) := by
  constructor
  · rintro ⟨before, meets, rest, held, hrow, hheld, hclash, hdeed⟩
    cases before with
    | nil => exact nomatch hheld
    | cons head before =>
      obtain ⟨rfl, rfl⟩ := List.cons.inj hrow
      have hfront (deed : Deed) (hdeed : deed ∈ first :: before) : deed ∈ (first :: before) ++ meets :: rest :=
        List.mem_append_left _ hdeed
      rw [holder_eq_head? fun deed hdeed => h deed (hfront deed hdeed)] at hheld
      obtain rfl := Option.some.inj hheld
      exact ⟨meets, List.mem_append_right _ List.mem_cons_self, hclash, hdeed⟩
  · rintro ⟨later, hlater, hclash, hdeed⟩
    obtain ⟨before, rest, rfl⟩ := List.append_of_mem hlater
    refine ⟨first :: before, later, rest, first, rfl, ?_, hclash, hdeed⟩
    exact holder_eq_head? fun deed hdeed => h deed (List.mem_append_left _ hdeed : deed ∈ first :: before ++ later :: rest)

end

/-! ## What the binder does -/

namespace Bindings

/-- The namespaces of a dotted name take their names, each inside the one before. -/
def namespaceDeeds (p : Place) (exported : Bool) : List String → Bindings → List Deed
  | [], _ => []
  | part :: rest, b =>
    let (inner, b) := b.namespaceScope p.scope part
    let ref := ModuleRef.container inner
    let b := if exported then
        (b.exportValue p.container part (.ofModule ref)).exportType p.container part (.ofModule ref)
      else b
    .takes part p.scope :: namespaceDeeds { p with scope := inner, container := some inner } true rest b

/-- What a module declaration does with its name. -/
def moduleDeeds (p : Place) (exported : Bool) (name : ModuleName) (b : Bindings) : List Deed :=
  match name with
  | .named name => namespaceDeeds p exported (nameParts name.name) b
  | _ => []

mutual

/-- All that is done with names when a statement is bound. -/
def deeds (p : Place) : Statement → Bindings → List Deed
  | .variableDecl d, _ => d.declarators.map (.variable · d.kind p.site)
  | .function d, _ => d.name.toList.map fun name => .function name.name p.scope
  | .importDecl d, _ => d.localNames.map fun name => .takes name.name p.scope
  | .importEquals d, _ => [.takes d.name.name p.scope]
  | .moduleDecl ⟨modifiers, name, some body, span⟩, b =>
    let exported := modifiers.exported || p.implicitExport
    let ambient := p.implicitExport || modifiers.declared
    let (place, inside) := openModule p ⟨.moduleDecl, p.home, span.start⟩ exported ambient name b
    moduleDeeds p exported name b ++ deedsEach place body inside
  | .moduleDecl ⟨modifiers, name, none, _⟩, b => moduleDeeds p (modifiers.exported || p.implicitExport) name b
  | _, _ => []

def deedsEach (p : Place) : List Statement → Bindings → List Deed
  | [], _ => []
  | s :: rest, b => deeds p s b ++ deedsEach p rest (bindStatement p s b)

end

/-- All that is done with names when a body is bound: its parameters come first. -/
def bodyDeeds (body : Body) (parent : ScopeId) (importer : Path) (b : Bindings) : List Deed :=
  let scope := ScopeId.inner body parent 0
  let b := { b with bodies := b.bodies.insert scope (Table.inside parent) }
  let b := bindParams ⟨body.key.file, scope⟩ body.params (bindTypeParams scope body.typeParams b)
  body.params.map (fun param => .takes param.name.name scope) ++
    deedsEach ⟨scope, none, body.key.file, importer, false⟩ body.statements b

/-- All that is done with names when files are bound, one behind the other. -/
def fileDeeds : List SourceUnit → Bindings → List Deed
  | [], _ => []
  | unit :: rest, b => deedsEach (b.filePlace unit) unit.tree.statements b ++ fileDeeds rest (b.bindFile unit)

/-- The names that need no declaration are taken before anything is bound. -/
def builtinDeeds : List Deed := builtinValues.keys.map (.takes · libScope)

/-- All that is done with names when the files of a program are bound. -/
def programDeeds (p : Program) : List Deed := builtinDeeds ++ fileDeeds p.units (p.units.foldl openFile (start p))

end Bindings

/-! ## Tables that follow -/

/-- The tables hold what came of some deeds. -/
structure Follows (log : List Deed) (b : Bindings) : Prop where
  held : ∀ scope name, (b.valueIn? scope name).map (Deed.ofSymbol scope name) = holder (about scope name log)
  redeclared : ∀ scope key, key ∈ (b.tableOf scope).redeclared ↔ Redeclared log scope key
  containers : ∀ scope name inner, b.valueIn? scope name = some (.ofModule (.container inner)) → b.Has inner

/-- Steps that do nothing with the names of values. -/
structure Still (b b' : Bindings) : Prop where
  values : ∀ scope name, b'.valueIn? scope name = b.valueIn? scope name
  redeclared : ∀ scope, (b'.tableOf scope).redeclared = (b.tableOf scope).redeclared
  has : ∀ id, b.Has id → b'.Has id

variable {b b' b'' : Bindings} {id scope : ScopeId} {name : String} {log : List Deed}

namespace Still

theorem refl (b : Bindings) : Still b b := ⟨fun _ _ => rfl, fun _ => rfl, fun _ h => h⟩

theorem trans (h : Still b b') (h' : Still b' b'') : Still b b'' where
  values scope name := (h'.values scope name).trans (h.values scope name)
  redeclared scope := (h'.redeclared scope).trans (h.redeclared scope)
  has id hid := h'.has id (h.has id hid)

theorem of_tables (htable : ∀ id, b'.tableOf id = b.tableOf id) : Still b b' where
  values scope name := by rw [Bindings.valueIn?, Bindings.valueIn?, htable]
  redeclared scope := by rw [htable]
  has id hid := by rwa [Bindings.Has, Bindings.scopeIn?, htable]

theorem foldl {α : Type} {f : Bindings → α → Bindings} (xs : List α) (h : Still b b') (hf : ∀ b, ∀ x ∈ xs, Still b (f b x)) :
    Still b (xs.foldl f b') := by
  induction xs generalizing b' with
  | nil => exact h
  | cons x xs ih => exact ih (h.trans (hf b' x List.mem_cons_self)) fun b y hy => hf b y (List.mem_cons_of_mem _ hy)

/-- Nothing comes to be bound as a value, and nothing is noted about variables. -/
theorem of_fills (hfills : Fills ⟨fun _ _ _ => False, fun _ _ _ => True, fun _ _ => True⟩ b b')
    (hredeclared : ∀ scope, (b'.tableOf scope).redeclared = (b.tableOf scope).redeclared) : Still b b' where
  values scope name := by
    cases hvalue : b'.valueIn? scope name with
    | some symbol => exact ((hfills.values scope name symbol hvalue).resolve_right id).symm
    | none =>
      have hnone : (b.valueIn? scope name).isSome = false :=
        Bool.eq_false_iff.mpr fun hsome => by simpa [hvalue] using hfills.isSome_value hsome
      exact (Option.isSome_eq_false_iff.mp hnone |> Option.isNone_iff_eq_none.mp).symm
  redeclared := hredeclared
  has _ := hfills.has

theorem redeclared_modifyTable {f : Table → Table} (hf : ∀ t, (f t).redeclared = t.redeclared) :
    ((b.modifyTable id f).tableOf scope).redeclared = (b.tableOf scope).redeclared := by
  rcases @Bindings.tableOf_modifyTable_cases b id scope f with h | ⟨-, h⟩
  · rw [h]
  · rw [h, hf]

theorem newScope : Still b (b.newScope id).2 := of_fills .newScope fun _ => redeclared_modifyTable fun _ => rfl

theorem setModuleScope {key : NodeKey} {inner : ScopeId} : Still b (b.setModuleScope id key inner) :=
  of_fills (.setModuleScope trivial) fun _ => redeclared_modifyTable fun _ => rfl

theorem putType {type : TypeSymbol} : Still b (b.putType id name type) :=
  of_fills (.putType trivial) fun _ => redeclared_modifyTable fun _ => rfl

theorem modifyExports {f : Exports → Exports} : Still b (b.modifyExports id f) :=
  of_fills .modifyExports fun _ => redeclared_modifyTable fun _ => rfl

theorem declareInterface {site : Site} {decl : InterfaceDecl} : Still b (b.declareInterface site decl) :=
  of_fills (.declareInterface trivial) fun _ => redeclared_modifyTable fun _ => rfl

theorem addAmbient (name : ModuleName) (ref : ModuleRef) : Still b (Bindings.addAmbient name ref b) := by
  refine of_fills (.addAmbient name ref) fun scope => ?_
  unfold Bindings.addAmbient
  split
  · cases scope <;> rfl
  · rfl

variable {container : Option ScopeId} {value : ValueSymbol} {type : TypeSymbol} {p : Bindings.Place} {exported : Bool}

theorem exportValue : Still b (b.exportValue container name value) := by
  unfold Bindings.exportValue
  split
  · exact modifyExports
  · exact refl b

theorem exportType : Still b (b.exportType container name type) := by
  unfold Bindings.exportType
  split
  · exact modifyExports
  · exact refl b

theorem exportImport {binding : ImportBinding} : Still b (b.exportImport container name binding) := exportValue.trans exportType

theorem exportNamespace {ref : ModuleRef} : Still b (if exported then
    (b.exportValue container name (.ofModule ref)).exportType container name (.ofModule ref) else b) := by
  split
  · exact exportValue.trans exportType
  · exact refl b

theorem bindInterface {decl : InterfaceDecl} : Still b (Bindings.bindInterface p exported decl b) := by
  unfold Bindings.bindInterface
  split
  · exact declareInterface.trans exportType
  · split
    · exact declareInterface.trans exportType
    · exact declareInterface

theorem bindAlias {decl : TypeAlias} : Still b (Bindings.bindAlias p exported decl b) := by
  unfold Bindings.bindAlias
  split
  · exact putType.trans exportType
  · exact putType

theorem bindExport {decl : ExportDecl} : Still b (Bindings.bindExport p decl b) := by
  unfold Bindings.bindExport
  split
  · exact refl b
  · exact foldl _ (refl b) fun _ _ _ => exportImport
  · split
    · exact modifyExports
    · exact refl b
  · exact exportImport
  · exact exportValue
  · split
    · exact modifyExports
    · exact refl b

theorem exportLocal {localName exportedName : String} : Still b (Bindings.exportLocal p localName exportedName b) := by
  unfold Bindings.exportLocal
  cases b.valueIn? p.scope localName with
  | some symbol =>
    dsimp only
    split
    · exact exportValue.trans exportType
    · exact exportValue
  | none =>
    dsimp only
    split
    · exact exportType
    · exact refl b

theorem bindLocalExports {statements : List Statement} : Still b (Bindings.bindLocalExports p statements b) := by
  have named : Still b ((Bindings.localExports statements).foldl (fun b s =>
      Bindings.exportLocal p s.localName.name s.exportedName.name b) b) := foldl _ (refl b) fun _ _ _ => exportLocal
  unfold Bindings.bindLocalExports
  dsimp only
  split
  · exact named
  · split
    · exact named.trans exportType
    · exact named

theorem bindTypeParams (names : List Ident) : Still b (Bindings.bindTypeParams id names b) :=
  foldl names (refl b) fun _ _ _ => putType

end Still

/-! ## One deed -/

namespace Deed

/-- The deeds that symbols come from clash as declaring notices it. -/
theorem clash_ofSymbol {held symbol : ValueSymbol} : (ofSymbol scope name held).Clash (ofSymbol scope name symbol) ↔
    ∃ k l, Bindings.blockScoped? held = some k ∧ Bindings.blockScoped? symbol = some l ∧ (k.2 || l.2) = true := by
  cases held <;> cases symbol <;> simp [ofSymbol, Clash, Bindings.blockScoped?]

theorem key?_ofSymbol {symbol : ValueSymbol} : (ofSymbol scope name symbol).key? = (Bindings.blockScoped? symbol).map (·.1) := by
  cases symbol <;> rfl

end Deed

theorem Bindings.valueIn?_putValue {scope' : ScopeId} {name' : String} {symbol : ValueSymbol} (hhas : b.Has id) :
    (b.putValue id name symbol).valueIn? scope' name' =
      if scope' = id ∧ name' = name then some symbol else b.valueIn? scope' name' := by
  obtain ⟨s, hs⟩ := Option.isSome_iff_exists.mp hhas
  rw [valueIn?_eq, valueIn?_eq, putValue, scopeIn?_modifyScope]
  by_cases hid : scope' = id
  · subst hid
    rw [if_pos rfl, hs, Option.map_some, Option.bind_some, Option.bind_some, Dict.get?_insert]
    by_cases hname : name' = name
    · rw [if_pos (beq_iff_eq.mpr hname.symm), if_pos ⟨rfl, hname⟩]
    · rw [if_neg fun h => hname (beq_iff_eq.mp h).symm, if_neg fun h => hname h.2]
  · rw [if_neg hid, if_neg fun h => hid h.1]

theorem clashes_about_append_singleton {later deed : Deed} : Clashes (about scope name (log ++ [later])) deed ↔
    Clashes (about scope name log) deed ∨ (scope = later.scope ∧ name = later.name) ∧
      ∃ held, holder (about scope name log) = some held ∧ held.Clash later ∧ (deed = held ∨ deed = later) := by
  rw [about_append]
  by_cases hplace : scope = later.scope ∧ name = later.name
  · rw [about_singleton_self hplace.1.symm hplace.2.symm, clashes_append_singleton]
    simp only [hplace, and_self, true_and]
  · rw [about_singleton_of_ne hplace, List.append_nil]
    simp only [hplace, false_and, or_false]

namespace Follows

variable {later : Deed} {symbol : ValueSymbol}

theorem still (h : Follows log b) (hb : Still b b') : Follows log b' where
  held scope name := by
    rw [hb.values]
    exact h.held scope name
  redeclared scope key := by
    rw [hb.redeclared]
    exact h.redeclared scope key
  containers scope name inner hinner := hb.has _ (h.containers scope name inner (hb.values scope name ▸ hinner))

/-- What a deed must do to the tables. -/
theorem append (h : Follows log b)
    (hself : (b'.valueIn? later.scope later.name).map (Deed.ofSymbol later.scope later.name) =
      later.after ((b.valueIn? later.scope later.name).map (Deed.ofSymbol later.scope later.name)))
    (hothers : ∀ scope name, ¬(scope = later.scope ∧ name = later.name) → b'.valueIn? scope name = b.valueIn? scope name)
    (hredeclared : ∀ scope key, key ∈ (b'.tableOf scope).redeclared ↔ key ∈ (b.tableOf scope).redeclared ∨
      later.scope.home = scope.home ∧ ∃ held, (b.valueIn? later.scope later.name).map (Deed.ofSymbol later.scope later.name) =
        some held ∧ held.Clash later ∧ (held.key? = some key ∨ later.key? = some key))
    (hcontainers : ∀ scope name inner, b'.valueIn? scope name = some (.ofModule (.container inner)) → b'.Has inner) :
    Follows (log ++ [later]) b' where
  -- Only what was done with the name of the deed gets longer.
  held scope name := by
    rw [about_append]
    by_cases hplace : scope = later.scope ∧ name = later.name
    · obtain ⟨rfl, rfl⟩ := hplace
      rw [about_singleton_self rfl rfl, holder_append_singleton, hself, h.held]
    · rw [about_singleton_of_ne hplace, List.append_nil, hothers scope name hplace, h.held]
  redeclared scope key := by
    rw [hredeclared, h.redeclared, h.held]
    constructor
    · rintro (⟨other, name, deed, hhome, hkey, hclashes⟩ | ⟨hhome, held, hheld, hclash, hkey | hkey⟩)
      · exact ⟨other, name, deed, hhome, hkey, clashes_about_append_singleton.mpr (.inl hclashes)⟩
      · exact ⟨_, _, held, hhome, hkey, clashes_about_append_singleton.mpr (.inr ⟨⟨rfl, rfl⟩, held, hheld, hclash, .inl rfl⟩)⟩
      · exact ⟨_, _, later, hhome, hkey, clashes_about_append_singleton.mpr (.inr ⟨⟨rfl, rfl⟩, held, hheld, hclash, .inr rfl⟩)⟩
    · rintro ⟨other, name, deed, hhome, hkey, hclashes⟩
      rcases clashes_about_append_singleton.mp hclashes with hclashes | ⟨⟨rfl, rfl⟩, held, hheld, hclash, rfl | rfl⟩
      · exact .inl ⟨other, name, deed, hhome, hkey, hclashes⟩
      · exact .inr ⟨hhome, deed, hheld, hclash, .inl hkey⟩
      · exact .inr ⟨hhome, held, hheld, hclash, .inr hkey⟩
  containers := hcontainers

/-- A symbol that is put in for a name holds it, as it must be for its deed, and nothing is noted. -/
theorem putValue (h : Follows log b) (hhas : b.Has id) (hplace : later.scope = id ∧ later.name = name)
    (hlater : Deed.ofSymbol id name symbol = later)
    (hafter : later.after ((b.valueIn? id name).map (Deed.ofSymbol id name)) = some later)
    (hclash : ∀ held, (b.valueIn? id name).map (Deed.ofSymbol id name) = some held → ¬held.Clash later)
    (hcontainer : ∀ inner, symbol = .ofModule (.container inner) → b.Has inner) :
    Follows (log ++ [later]) (b.putValue id name symbol) := by
  obtain ⟨rfl, rfl⟩ := hplace
  have hfills : Fills .any b (b.putValue later.scope later.name symbol) := .putValue trivial
  refine h.append ?_ (fun scope name hplace => ?_) (fun scope key => ?_) fun scope name inner hinner => ?_
  · rw [Bindings.valueIn?_putValue hhas, if_pos ⟨rfl, rfl⟩, Option.map_some, hlater, hafter]
  · rw [Bindings.valueIn?_putValue hhas, if_neg hplace]
  · rw [show ((b.putValue later.scope later.name symbol).tableOf scope).redeclared = (b.tableOf scope).redeclared from
      Still.redeclared_modifyTable fun _ => rfl, iff_comm, or_iff_left_iff_imp]
    rintro ⟨-, held, hheld, hclashes, -⟩
    exact absurd hclashes (hclash held hheld)
  · rw [Bindings.valueIn?_putValue hhas] at hinner
    split at hinner
    · exact hfills.has (hcontainer inner (Option.some.inj hinner))
    · exact hfills.has (h.containers scope name inner hinner)

theorem takes (h : Follows log b) (hhas : b.Has id) (hsymbol : Deed.ofSymbol id name symbol = .takes name id)
    (hcontainer : ∀ inner, symbol = .ofModule (.container inner) → b.Has inner) :
    Follows (log ++ [.takes name id]) (b.putValue id name symbol) := by
  refine h.putValue hhas ⟨rfl, rfl⟩ hsymbol ?_ (fun held _ => ?_) hcontainer
  · cases (b.valueIn? id name).map (Deed.ofSymbol id name) <;> rfl
  · cases held <;> exact not_false

section

variable {held : Deed} {k l : NodeKey}
  (hheld : (b.valueIn? later.scope later.name).map (Deed.ofSymbol later.scope later.name) = some held)
  (hyields : later.after (some held) = some held)
include hheld hyields

/-- A name that is not free stays with what holds it. Where nothing clashes, nothing is noted. -/
theorem unnoted (h : Follows log b) (hnone : ¬held.Clash later) : Follows (log ++ [later]) b := by
  refine h.append ?_ (fun _ _ _ => rfl) (fun scope key => ?_) h.containers
  · rw [hheld, hyields]
  · rw [iff_comm, or_iff_left_iff_imp]
    rintro ⟨-, other, hother, hclash, -⟩
    rw [hheld] at hother
    exact absurd (Option.some.inj hother ▸ hclash) hnone

/-- Of two variables that clash both are noted, in the table that is shared by the scopes of a body. -/
theorem noted (h : Follows log b) (hhas : b.Has later.scope) (hclash : held.Clash later) (hk : held.key? = some k)
    (hl : later.key? = some l) :
    Follows (log ++ [later]) (b.modifyTable later.scope fun t => { t with redeclared := l :: k :: t.redeclared }) := by
  have hfills : Fills .any b (b.modifyTable later.scope fun t => { t with redeclared := l :: k :: t.redeclared }) :=
    .redeclare (l :: k :: ·)
  have hvalues (scope : ScopeId) (name : String) :
      (b.modifyTable later.scope fun t => { t with redeclared := l :: k :: t.redeclared }).valueIn? scope name =
        b.valueIn? scope name := by
    rw [Bindings.valueIn?_eq, Bindings.scopeIn?_modifyTable]
    · rfl
    · exact fun _ => rfl
  refine h.append ?_ (fun scope name _ => hvalues scope name) (fun scope key => ?_) fun scope name inner hinner => ?_
  · rw [hvalues, hheld, hyields]
  · rw [Bindings.tableOf_modifyTable (.inl hhas), hheld]
    by_cases hhome : scope.home = later.scope.home
    · rw [if_pos hhome]
      simp only [List.mem_cons, hhome, true_and, Option.some.injEq, exists_eq_left', hclash, hk, hl]
      rw [eq_comm (a := l), eq_comm (a := k)]
      tauto
    · rw [if_neg hhome, iff_comm, or_iff_left_iff_imp]
      exact fun h => absurd h.1.symm hhome
  · exact hfills.has (h.containers scope name inner (hvalues scope name ▸ hinner))

end

/-- A free name is taken. One that is not stays with what holds it, and variables that clash are noted. -/
theorem declareValue (h : Follows log b) (hhas : b.Has id) (hplace : later.scope = id ∧ later.name = name)
    (hlater : Deed.ofSymbol id name symbol = later) (hyields : ∀ held, later.after (some held) = some held)
    (hcontainer : ∀ inner, symbol ≠ .ofModule (.container inner)) :
    Follows (log ++ [later]) (b.declareValue id name symbol) := by
  obtain ⟨rfl, rfl⟩ := hplace
  unfold Bindings.declareValue
  cases hvalue : b.valueIn? later.scope later.name with
  | none =>
    refine h.putValue hhas ⟨rfl, rfl⟩ hlater ?_ ?_ fun inner hinner => absurd hinner (hcontainer inner)
    · rw [hvalue]
      cases later <;> rfl
    · rw [hvalue]
      exact nofun
  | some existing =>
    have hheld : (b.valueIn? later.scope later.name).map (Deed.ofSymbol later.scope later.name) =
        some (Deed.ofSymbol later.scope later.name existing) := by rw [hvalue, Option.map_some]
    have hclash := @Deed.clash_ofSymbol later.scope later.name existing symbol
    have hkey := @Deed.key?_ofSymbol later.scope later.name existing
    have hkey' := @Deed.key?_ofSymbol later.scope later.name symbol
    rw [hlater] at hclash hkey'
    dsimp only
    split
    · rename_i k kBlock l lBlock hk hl
      rw [hk] at hkey
      rw [hl] at hkey'
      split
      · rename_i hblock
        exact h.noted hheld (hyields _) hhas (hclash.mpr ⟨_, _, hk, hl, hblock⟩) hkey hkey'
      · rename_i hblock
        refine h.unnoted hheld (hyields _) fun hclashes => hblock ?_
        obtain ⟨first, second, hfirst, hsecond, hboth⟩ := hclash.mp hclashes
        cases hk.symm.trans hfirst
        cases hl.symm.trans hsecond
        exact hboth
    · rename_i hneither
      refine h.unnoted hheld (hyields _) fun hclashes => ?_
      obtain ⟨first, second, hfirst, hsecond, -⟩ := hclash.mp hclashes
      exact hneither _ _ _ _ hfirst hsecond

/-- One deed after the other. -/
theorem foldl {α : Type} {f : Bindings → α → Bindings} {g : α → Deed} (xs : List α) (h : Follows log b) (hhas : b.Has id)
    (hfills : ∀ b x, Fills .any b (f b x))
    (hf : ∀ b log, ∀ x ∈ xs, Follows log b → b.Has id → Follows (log ++ [g x]) (f b x)) :
    Follows (log ++ xs.map g) (xs.foldl f b) := by
  induction xs generalizing log b with
  | nil => rwa [List.map_nil, List.append_nil]
  | cons x xs ih =>
    have first := hf b log x List.mem_cons_self h hhas
    have rest := ih first ((hfills b x).has hhas) fun b log y hy => hf b log y (List.mem_cons_of_mem _ hy)
    rwa [List.append_assoc] at rest

/-! ### Declarations -/

variable {p : Bindings.Place} {exported : Bool}

theorem bindDeclarators {kind : VariableKind} {decls : List Declarator} (h : Follows log b) (hhas : b.Has p.scope) :
    Follows (log ++ decls.map (.variable · kind p.site)) (Bindings.bindDeclarators p kind exported decls b) := by
  refine h.foldl decls hhas (fun b decl => ?_) fun b log decl _ h hhas => ?_
  · split
    · exact (Fills.declareValue trivial).trans .exportValue
    · exact .declareValue trivial
  · have first : Follows (log ++ [.variable decl kind p.site])
        (b.declareValue p.scope decl.name.name (.declarator decl kind p.site)) :=
      h.declareValue hhas ⟨rfl, rfl⟩ rfl (fun _ => rfl) fun _ => nofun
    dsimp only
    split
    · exact first.still .exportValue
    · exact first

theorem bindFunction {decl : FunctionDecl} (h : Follows log b) (hhas : b.Has p.scope) :
    Follows (log ++ decl.name.toList.map fun name => .function name.name p.scope) (Bindings.bindFunction p exported decl b) := by
  have default {b' : Bindings} {log : List Deed} (hb : Follows log b') : Follows log
      (if decl.modifiers.isDefault then b'.exportValue p.container "default" (.function decl p.site) else b') := by
    split
    · exact hb.still .exportValue
    · exact hb
  unfold Bindings.bindFunction
  cases decl.name with
  | none => exact default (by simpa using h)
  | some name =>
    have first : Follows (log ++ [.function name.name p.scope]) (b.declareValue p.scope name.name (.function decl p.site)) :=
      h.declareValue hhas ⟨rfl, rfl⟩ rfl (fun _ => rfl) fun _ => nofun
    refine default ?_
    dsimp only
    split
    · exact first.still .exportValue
    · exact first

theorem declareImport {specifier : String} {imported : ImportName} {name : Ident} (h : Follows log b) (hhas : b.Has p.scope) :
    Follows (log ++ [.takes name.name p.scope]) (b.declareImport p.scope (p.binding specifier imported (some name))) := by
  have taken : Follows (log ++ [.takes name.name p.scope])
      (b.putValue p.scope name.name (.imported (p.binding specifier imported (some name)))) := h.takes hhas rfl fun _ => nofun
  exact taken.still .putType

theorem bindImport {decl : ImportDecl} (h : Follows log b) (hhas : b.Has p.scope) :
    Follows (log ++ decl.localNames.map fun name => .takes name.name p.scope) (Bindings.bindImport p decl b) := by
  let bind (name : ImportName) (localName : Ident) : ImportBinding := p.binding decl.source.value name (some localName)
  -- Each of the bindings takes the name that it has.
  have hnames (binding : ImportBinding) (hbinding : binding ∈ decl.default.toList.map (bind .default) ++
      decl.star.toList.map (bind .whole) ++ decl.named.map fun s => bind (.named s.imported.name) s.localName) :
      ∃ imported name, binding = bind imported name := by
    simp only [List.mem_append, List.mem_map] at hbinding
    rcases hbinding with (⟨name, -, rfl⟩ | ⟨name, -, rfl⟩) | ⟨s, -, rfl⟩ <;> exact ⟨_, _, rfl⟩
  have bound := h.foldl (f := (·.declareImport p.scope ·))
    (g := fun binding => .takes (binding.localName.elim "" (·.name)) p.scope) _ hhas
    (fun b binding => .declareImport fun _ _ => ⟨trivial, trivial⟩) fun b log binding hbinding h hhas => by
      obtain ⟨imported, name, rfl⟩ := hnames binding hbinding
      exact h.declareImport hhas
  have hdeeds : (decl.default.toList.map (bind .default) ++ decl.star.toList.map (bind .whole) ++
      decl.named.map fun s => bind (.named s.imported.name) s.localName).map
        (fun binding => Deed.takes (binding.localName.elim "" (·.name)) p.scope) =
      decl.localNames.map fun name => .takes name.name p.scope := by
    simp [ImportDecl.localNames, bind, Bindings.Place.binding, Function.comp_def]
  exact hdeeds ▸ bound

theorem bindImportEquals {decl : ImportEquals} (h : Follows log b) (hhas : b.Has p.scope) :
    Follows (log ++ [.takes decl.name.name p.scope]) (Bindings.bindImportEquals p decl b) := by
  unfold Bindings.bindImportEquals
  dsimp only
  split
  · exact (h.declareImport hhas).still .exportImport
  · exact h.declareImport hhas

/-! ### Modules -/

theorem namespaceScope (h : Follows log b) (hhas : b.Has id) (name : String) :
    Follows (log ++ [.takes name id]) (b.namespaceScope id name).2 ∧
      (b.namespaceScope id name).2.Has (b.namespaceScope id name).1 := by
  unfold Bindings.namespaceScope
  split
  · rename_i inner hinner
    -- The namespace that is there has taken the name, so that it goes from one to the same again.
    have hheld : (b.valueIn? id name).map (Deed.ofSymbol id name) = some (.takes name id) := by rw [hinner]; rfl
    have kept : Follows (log ++ [.takes name id]) b := h.unnoted hheld rfl not_false
    exact ⟨kept, h.containers id name inner hinner⟩
  · have hnew : (b.newScope id).2.Has (b.newScope id).1 := by
      rw [Bindings.Has, Bindings.scopeIn?_newScope hhas, if_pos rfl]
      rfl
    have opened : Follows (log ++ [.takes name id])
        ((b.newScope id).2.putValue id name (.ofModule (.container (b.newScope id).1))) := by
      refine (h.still .newScope).takes (Still.newScope.has id hhas) rfl fun inner hinner => ?_
      cases hinner
      exact hnew
    have hfills : Fills .any (b.newScope id).2
        (((b.newScope id).2.putValue id name (.ofModule (.container (b.newScope id).1))).putType id name
          (.ofModule (.container (b.newScope id).1))) := (Fills.putValue trivial).trans (.putType trivial)
    exact ⟨opened.still .putType, hfills.has hnew⟩

theorem openNamespaces (h : Follows log b) (hhas : b.Has p.scope) (exported : Bool) (parts : List String) :
    Follows (log ++ Bindings.namespaceDeeds p exported parts b) (Bindings.openNamespaces p exported parts b).2 ∧
      (Bindings.openNamespaces p exported parts b).2.Has (Bindings.openNamespaces p exported parts b).1.scope := by
  induction parts generalizing log p exported b with
  | nil => exact ⟨by rwa [Bindings.namespaceDeeds, List.append_nil], hhas⟩
  | cons part parts ih =>
    obtain ⟨hfollows, hinner⟩ := h.namespaceScope hhas part
    have hexport := @Still.exportNamespace (b.namespaceScope p.scope part).2 part p.container exported
      (.container (b.namespaceScope p.scope part).1)
    have rest := ih
      (p := { p with scope := (b.namespaceScope p.scope part).1, container := some (b.namespaceScope p.scope part).1 })
      (hfollows.still hexport) (hexport.has _ hinner) true
    rw [List.append_assoc] at rest
    exact rest

theorem openModule (h : Follows log b) (hhas : b.Has p.scope) (hglobal : b.Has globalScope) (key : NodeKey)
    (exported ambient : Bool) (name : ModuleName) :
    let opened := Bindings.openModule p key exported ambient name b
    Follows (log ++ Bindings.moduleDeeds p exported name b) opened.2 ∧ opened.2.Has opened.1.scope := by
  cases name with
  | global =>
    refine ⟨?_, Still.setModuleScope.has _ hglobal⟩
    exact (List.append_nil log).symm ▸ h.still .setModuleScope
  | ambient =>
    refine ⟨?_, Still.setModuleScope.has _ ?_⟩
    · exact (List.append_nil log).symm ▸ h.still (Still.newScope.trans .setModuleScope)
    · change (b.newScope p.scope).2.Has (b.newScope p.scope).1
      rw [Bindings.Has, Bindings.scopeIn?_newScope hhas, if_pos rfl]
      rfl
  | named name =>
    obtain ⟨hfollows, hinner⟩ := h.openNamespaces hhas exported (Bindings.nameParts name.name)
    exact ⟨hfollows.still .setModuleScope, Still.setModuleScope.has _ hinner⟩

/-! ### Statements -/

mutual

/-- The tables follow what is done along the statements. -/
theorem bindStatement {p : Bindings.Place} {b : Bindings} {log : List Deed} (h : Follows log b) (hhas : b.Has p.scope)
    (hglobal : b.Has globalScope) : ∀ s : Statement, Follows (log ++ Bindings.deeds p s b) (Bindings.bindStatement p s b)
  | .moduleDecl ⟨modifiers, name, some body, span⟩ => by
    let exported := modifiers.exported || p.implicitExport
    let ambient := p.implicitExport || modifiers.declared
    have hfills := Fills.any_openModule (b := b) (p := p) ⟨.moduleDecl, p.home, span.start⟩ exported ambient name
    obtain ⟨hfollows, hinner⟩ := h.openModule hhas hglobal ⟨.moduleDecl, p.home, span.start⟩ exported ambient name
    have inside := bindEach hfollows hinner (hfills.has hglobal) body
    rw [Bindings.bindStatement, Bindings.deeds, ← List.append_assoc]
    exact inside.still (Still.bindLocalExports.trans (.addAmbient _ _))
  | .moduleDecl ⟨modifiers, name, none, span⟩ => by
    rw [Bindings.bindStatement, Bindings.deeds]
    cases name with
    | global => exact (List.append_nil log).symm ▸ h
    | ambient specifier => exact (List.append_nil log).symm ▸ h.still (.addAmbient (.ambient specifier) _)
    | named name => exact (h.openNamespaces hhas _ _).1
  | .variableDecl d => by
    rw [Bindings.bindStatement, Bindings.deeds]
    exact h.bindDeclarators hhas
  | .function d => by
    rw [Bindings.bindStatement, Bindings.deeds]
    exact h.bindFunction hhas
  | .importDecl d => by
    rw [Bindings.bindStatement, Bindings.deeds]
    exact h.bindImport hhas
  | .importEquals d => by
    rw [Bindings.bindStatement, Bindings.deeds]
    exact h.bindImportEquals hhas
  | .interface d => by
    rw [Bindings.bindStatement]
    exact (List.append_nil log).symm ▸ h.still .bindInterface
  | .typeAlias d => by
    rw [Bindings.bindStatement]
    exact (List.append_nil log).symm ▸ h.still .bindAlias
  | .exportDecl d => by
    rw [Bindings.bindStatement]
    exact (List.append_nil log).symm ▸ h.still .bindExport
  | .ifElse _ | .block _ | .expression _ | .ret _ | .empty _ | .error _ => (List.append_nil log).symm ▸ h

theorem bindEach {p : Bindings.Place} {b : Bindings} {log : List Deed} (h : Follows log b) (hhas : b.Has p.scope)
    (hglobal : b.Has globalScope) : ∀ statements : List Statement,
      Follows (log ++ Bindings.deedsEach p statements b) (Bindings.bindEach p statements b)
  | [] => (List.append_nil log).symm ▸ h
  | s :: rest => by
    have hfills := Fills.any_bindStatement p b s
    have later := bindEach (bindStatement h hhas hglobal s) (hfills.has hhas) (hfills.has hglobal) rest
    rwa [List.append_assoc] at later

end

theorem bindBody {p : Bindings.Place} (h : Follows log b) (hhas : b.Has p.scope) (hglobal : b.Has globalScope)
    (statements : List Statement) : Follows (log ++ Bindings.deedsEach p statements b) (Bindings.bindBody p statements b) :=
  (h.bindEach hhas hglobal statements).still .bindLocalExports

/-! ### Bodies -/

/-- A body that lacks a table has done nothing yet. -/
theorem withBody {body : Body} {parent : ScopeId} (h : Follows log b) (hlacks : b.Lacks body parent) :
    Follows log (b.withBody body parent) := by
  -- The table that it is given holds as little as the one that is missing.
  have hvalues (scope : ScopeId) (name : String) : (b.withBody body parent).valueIn? scope name = b.valueIn? scope name := by
    rw [Bindings.valueIn?, Bindings.valueIn?, Bindings.tableOf_withBody]
    split
    · rename_i hhome
      rw [hlacks scope hhome]
      cases hindex : scope.index <;> rfl
    · rfl
  refine h.still ⟨hvalues, fun scope => ?_, fun id => Bindings.has_withBody hlacks⟩
  rw [Bindings.tableOf_withBody]
  split
  · rename_i hhome
    rw [hlacks scope hhome]
    rfl
  · rfl

theorem bindInner {body : Body} {parent : ScopeId} (h : Follows log b) (hlacks : b.Lacks body parent)
    (hglobal : b.Has globalScope) (importer : Path) :
    Follows (log ++ Bindings.bodyDeeds body parent importer b) (Bindings.bindInner body parent importer b) := by
  let scope := ScopeId.inner body parent 0
  have hself : (b.withBody body parent).Has scope := Bindings.has_self_withBody
  have htypes : Follows log (Bindings.bindTypeParams scope body.typeParams (b.withBody body parent)) :=
    (h.withBody hlacks).still (.bindTypeParams body.typeParams)
  have hhas : (Bindings.bindTypeParams scope body.typeParams (b.withBody body parent)).Has scope :=
    (Still.bindTypeParams body.typeParams).has _ hself
  have hparams := htypes.foldl (f := fun b param => b.putValue scope param.name.name (.param param ⟨body.key.file, scope⟩))
    (g := fun param => .takes param.name.name scope) body.params hhas (fun _ _ => .putValue trivial)
    fun b log param _ h hhas => by
      refine h.takes hhas rfl fun inner hinner => ?_
      cases hinner
  have hfills : Fills .any (b.withBody body parent) (Bindings.bindParams ⟨body.key.file, scope⟩ body.params
    (Bindings.bindTypeParams scope body.typeParams (b.withBody body parent))) := .bindNames (fun _ _ => trivial) fun _ _ => trivial
  have inside := Follows.bindBody (p := ⟨scope, none, body.key.file, importer, false⟩) hparams (hfills.has hself)
    (hfills.has (Bindings.has_withBody hlacks hglobal)) body.statements
  rwa [List.append_assoc] at inside

end Follows

/-! ## Whole programs -/

section

variable {row : List Deed}

/-- Where a name is only ever taken, the last one to take it holds it, and nothing clashes. -/
theorem holder_eq_getLast? (h : ∀ deed ∈ row, ∃ name scope, deed = .takes name scope) : holder row = row.getLast? := by
  induction row using List.reverseRecOn with
  | nil => rfl
  | append_singleton row last _ =>
    obtain ⟨name, scope, rfl⟩ := h last (List.mem_append_right _ List.mem_cons_self)
    rw [holder_append_singleton, List.getLast?_append, List.getLast?_singleton, Option.some_or]
    cases holder row <;> rfl

theorem not_clashes_of_takes (h : ∀ deed ∈ row, ∃ name scope, deed = .takes name scope) (deed : Deed) : ¬Clashes row deed := by
  rintro ⟨before, later, rest, held, rfl, -, hclash, -⟩
  obtain ⟨name, scope, rfl⟩ := h later (List.mem_append_right _ List.mem_cons_self)
  cases held <;> exact hclash

end

namespace Follows

theorem start (p : Program) : Follows Bindings.builtinDeeds (Bindings.start p) := by
  have htakes (scope : ScopeId) (name : String) (deed : Deed) (hdeed : deed ∈ about scope name Bindings.builtinDeeds) :
      deed = .takes name libScope ∧ scope = libScope ∧ name ∈ builtinValues.keys := by
    obtain ⟨hmem, rfl, rfl⟩ := mem_about.mp hdeed
    obtain ⟨key, hkey, rfl⟩ := List.mem_map.mp hmem
    exact ⟨rfl, rfl, hkey⟩
  have htaken (scope : ScopeId) (name : String) (deed : Deed) (hdeed : deed ∈ about scope name Bindings.builtinDeeds) :
      ∃ name scope, deed = .takes name scope := ⟨_, _, (htakes scope name deed hdeed).1⟩
  have hnone (scope : ScopeId) (hscope : scope ≠ libScope) (name : String) : (Bindings.start p).valueIn? scope name = none := by
    cases scope with
    | inner => rfl
    | main n =>
      match n with
      | 0 => exact absurd rfl hscope
      | 1 => rfl
      | n + 2 => rfl
  have hsome (name : String) : (Bindings.start p).valueIn? libScope name = builtinValues.get? name := rfl
  refine ⟨fun scope name => ?_, fun scope key => ?_, fun scope name inner hinner => ?_⟩
  · rw [holder_eq_getLast? (htaken scope name)]
    cases hlast : (about scope name Bindings.builtinDeeds).getLast? with
    | some deed =>
      obtain ⟨rfl, rfl, hkey⟩ := htakes scope name deed (List.mem_of_getLast? hlast)
      have hcontains : builtinValues.contains name = true := by
        rw [← Dict.contains_keys]
        exact List.contains_iff_mem.mpr hkey
      obtain ⟨symbol, hsymbol⟩ := Option.isSome_iff_exists.mp hcontains
      obtain ⟨builtin, rfl⟩ := exists_builtin_value hsymbol
      rw [hsome, hsymbol]
      rfl
    | none =>
      by_cases hscope : scope = libScope
      · subst hscope
        rw [hsome, Option.map_eq_none_iff]
        by_contra hvalue
        have hkey : name ∈ builtinValues.keys := by
          rw [← List.contains_iff_mem, Dict.contains_keys]
          exact Option.isSome_iff_ne_none.mpr hvalue
        have hmem : Deed.takes name libScope ∈ about libScope name Bindings.builtinDeeds :=
          mem_about.mpr ⟨List.mem_map_of_mem hkey, rfl, rfl⟩
        rw [List.getLast?_eq_none_iff.mp hlast] at hmem
        exact nomatch hmem
      · rw [hnone scope hscope]
        rfl
  · have hempty : ((Bindings.start p).tableOf scope).redeclared = [] := by cases scope <;> rfl
    rw [hempty]
    refine iff_of_false List.not_mem_nil ?_
    rintro ⟨other, name, deed, -, -, hclashes⟩
    exact not_clashes_of_takes (htaken other name) deed hclashes
  · by_cases hscope : scope = libScope
    · obtain ⟨builtin, heq⟩ := exists_builtin_value (hscope ▸ hinner : builtinValues.get? name = _)
      cases heq
    · rw [hnone scope hscope] at hinner
      cases hinner

/-- Giving files their scopes does nothing with names. -/
theorem openFile (h : Follows log b) (unit : SourceUnit) : Follows log (b.openFile unit) := by
  unfold Bindings.openFile
  split
  · exact (h.still .newScope).still (.of_tables fun id => by cases id <;> rfl)
  · exact h.still (.of_tables fun id => by cases id <;> rfl)

theorem bindFiles (h : Follows log b) (hglobal : b.Has globalScope) {units : List SourceUnit}
    (hunits : ∀ unit ∈ units, b.Has (b.fileSite unit).scope) :
    Follows (log ++ Bindings.fileDeeds units b) (units.foldl Bindings.bindFile b) := by
  induction units generalizing log b with
  | nil => exact (List.append_nil log).symm ▸ h
  | cons unit units ih =>
    have hfills : Fills .any b (b.bindFile unit) := Fills.any_bindBody _ _ _
    have first : Follows (log ++ Bindings.deedsEach (b.filePlace unit) unit.tree.statements b) (b.bindFile unit) :=
      h.bindBody (p := b.filePlace unit) (hunits unit List.mem_cons_self) hglobal unit.tree.statements
    have later := ih first (hfills.has hglobal) fun other hother => by
      rw [Bindings.fileSite, hfills.files]
      exact hfills.has (hunits other (List.mem_cons_of_mem _ hother))
    rwa [List.append_assoc] at later

/-- The tables of a program hold what came of its files. -/
theorem ofProgram (p : Program) : Follows (Bindings.programDeeds p) (Bindings.ofProgram p) := by
  have opened (units : List SourceUnit) (b : Bindings) (h : Follows Bindings.builtinDeeds b) :
      Follows Bindings.builtinDeeds (units.foldl Bindings.openFile b) := by
    induction units generalizing b with
    | nil => exact h
    | cons unit units ih => exact ih _ (h.openFile unit)
  obtain ⟨hseated, -⟩ := @seated_openFiles .ofFiles p p.units fun _ => .rfl
  exact (opened p.units _ (start p)).bindFiles hseated.global fun unit _ => (hseated.fileSite unit).2

/-- The table of a plain body holds what came of the body. -/
theorem ofBody (body : Body) (parent : ScopeId) :
    Follows (Bindings.builtinDeeds ++ Bindings.bodyDeeds body parent body.key.file (Bindings.start default))
      (Bindings.bindInner body parent body.key.file (Bindings.start default)) :=
  (start default).bindInner (fun id hid => by cases id with | main => exact nomatch hid | inner => rfl) rfl _

end Follows

end Recheck.Check
