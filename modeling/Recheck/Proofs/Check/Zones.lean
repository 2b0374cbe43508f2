import Recheck.Proofs.Check.Filling
import Recheck.Proofs.Check.Scopes
import Recheck.Proofs.Check.Usage

/-!
# The zone of an import

An import binds its name in the scope of its file. The scopes inside of that one are the zone of the import: there the name
leads to the import, unless it is declared again. What else the files bind stays outside, and so does what a file declares
for the scope that all files share. So each scope is on one side or the other (`Zone.Inside`, `Zone.Outside`), and binding
a statement puts in nothing that stands on the wrong side (`Zone.fills_bindStatement`).
-/

set_option autoImplicit false

namespace Recheck.Check

open Syntax

/-! ## Names of a tree -/

namespace Node

/-- The identifiers that a node imports under, whether it passes them on or not. -/
def imports : Node → List Ident
  | statement (.importDecl d) => d.localNames
  | statement (.importEquals d) => [d.name]
  | _ => []

/-- The names that a node declares, apart from those that its parts declare. -/
def names : Node → List String
  | expr e =>
    match e.kind with
    | .function params _ _ => params.map (·.name.name)
    | _ => []
  | type _ => []
  | statement s =>
    match s with
    | .importDecl d => d.localNames.map (·.name)
    | .importEquals d => [d.name.name]
    | .variableDecl d => d.declarators.map (·.name.name)
    | .function d => (d.name.toList ++ d.typeParams ++ d.params.map (·.name)).map (·.name)
    | .interface d => (d.name :: d.typeParams).map (·.name)
    | .typeAlias d => (d.name :: d.typeParams).map (·.name)
    | .moduleDecl ⟨_, .named name, _, _⟩ => Bindings.nameParts name.name
    | _ => []

theorem name_mem_names {n : Node} {id : Ident} (h : id ∈ n.imports) : id.name ∈ n.names := by
  cases n with
  | expr | type => exact nomatch h
  | statement s =>
    cases s with
    | importDecl d => exact List.mem_map_of_mem h
    | importEquals d => exact List.mem_singleton.mp h ▸ List.mem_cons_self
    | _ => exact nomatch h

theorem typeParam_mem_names {n : Node} {file : Path} {body : Body} (h : n.body? file = some body) {name : Ident}
    (hname : name ∈ body.typeParams) : name.name ∈ n.names := by
  cases n with
  | expr e =>
    obtain ⟨kind, span⟩ := e
    cases kind with
    | function =>
      obtain rfl := Option.some.inj h
      exact nomatch hname
    | _ => exact nomatch h
  | type => exact nomatch h
  | statement s =>
    cases s with
    | function d =>
      obtain rfl := Option.some.inj h
      exact List.mem_map_of_mem (List.mem_append_left _ (List.mem_append_right _ hname))
    | block =>
      obtain rfl := Option.some.inj h
      exact nomatch hname
    | interface d => exact List.mem_map_of_mem (List.mem_cons_of_mem _ (typeParamBody?_eq h ▸ hname :))
    | typeAlias d => exact List.mem_map_of_mem (List.mem_cons_of_mem _ (typeParamBody?_eq h ▸ hname :))
    | _ => exact nomatch h

theorem param_mem_names {n : Node} {file : Path} {body : Body} (h : n.body? file = some body) {param : Param}
    (hparam : param ∈ body.params) : param.name.name ∈ n.names := by
  cases n with
  | expr e =>
    obtain ⟨kind, span⟩ := e
    cases kind with
    | function =>
      obtain rfl := Option.some.inj h
      exact List.mem_map_of_mem hparam
    | _ => exact nomatch h
  | type => exact nomatch h
  | statement s =>
    cases s with
    | function d =>
      obtain rfl := Option.some.inj h
      exact List.mem_map_of_mem (List.mem_append_right _ (List.mem_map_of_mem hparam))
    | block =>
      obtain rfl := Option.some.inj h
      exact nomatch hparam
    | interface d =>
      obtain rfl := typeParamBody?_eq h
      exact nomatch hparam
    | typeAlias d =>
      obtain rfl := typeParamBody?_eq h
      exact nomatch hparam
    | _ => exact nomatch h

/-- One node is the other, or inside it at any depth. -/
inductive Contains : Node → Node → Prop
  | self (n : Node) : Contains n n
  | part {n m k : Node} : m ∈ n.parts → Contains m k → Contains n k

theorem Contains.trans {n m k : Node} (h : n.Contains m) (h' : m.Contains k) : n.Contains k := by
  induction h with
  | self => exact h'
  | part hm _ ih => exact .part hm (ih h')

/-- A module that is declared in a block for the scope that all files share. The block counts as one. -/
inductive Hides : Node → Spot → Prop
  | block {n : Node} {spot : Spot} : n.isGlobal = true → spot ∈ n.content.modules → Hides n spot
  | part {n m : Node} {spot : Spot} : m ∈ n.parts → Hides m spot → Hides n spot

variable {n m : Node} {spot : Spot}

theorem mem_modules_of_part (hm : m ∈ n.parts) (h : spot ∈ m.content.modules) : spot ∈ n.content.modules := by
  rw [n.modules_eq]
  exact List.mem_append_right _ (List.mem_flatMap.mpr ⟨m, hm, h⟩)

theorem Contains.nodup (h : n.Contains m) (hn : n.content.modules.Nodup) : m.content.modules.Nodup := by
  induction h with
  | self => exact hn
  | @part n m _ hm _ ih =>
    rw [n.modules_eq] at hn
    exact ih ((List.nodup_append.mp hn).2.1.sublist (modules_sublist_of_mem hm))

theorem Hides.mem_modules (h : n.Hides spot) : spot ∈ n.content.modules := by
  induction h with
  | block _ h => exact h
  | part hm _ ih => exact mem_modules_of_part hm ih

theorem Hides.of_contains (h : m.Hides spot) (hm : n.Contains m) : n.Hides spot := by
  induction hm with
  | self => exact h
  | part hm _ ih => exact .part hm (ih h)

/-- Where no two modules begin at one place, a module is in one node of a list only. -/
theorem eq_of_modules {nodes : List Node} (hnodup : (nodes.flatMap (·.content.modules)).Nodup) (hn : n ∈ nodes) (hm : m ∈ nodes)
    (h : spot ∈ n.content.modules) (h' : spot ∈ m.content.modules) : n = m := by
  by_contra hne
  have : Std.Symm (Function.onFun List.Disjoint fun node : Node => node.content.modules) := ⟨fun _ _ h _ hx hy => h hy hx⟩
  exact (List.nodup_flatMap.mp hnodup).2.forall hn hm hne h h'

/-- Outside of the blocks, what a node hides its parts hide. -/
theorem Hides.inside_part (hn : n.content.modules.Nodup) (hopen : n.isGlobal = false) (h : n.Hides spot) (hm : m ∈ n.parts)
    (hspot : spot ∈ m.content.modules) : m.Hides spot := by
  cases h with
  | block hblock => exact absurd (hopen.symm.trans hblock) Bool.false_ne_true
  | part hm' h =>
    rw [n.modules_eq] at hn
    exact eq_of_modules (List.nodup_append.mp hn).2.1 hm' hm h.mem_modules hspot ▸ h

theorem not_hides_module (hn : n.content.modules.Nodup) (hopen : n.isGlobal = false) (hspot : spot ∈ n.module) :
    ¬n.Hides spot := by
  rintro (⟨hblock, -⟩ | ⟨hm, h⟩)
  · exact absurd (hopen.symm.trans hblock) Bool.false_ne_true
  · rw [n.modules_eq] at hn
    exact (List.nodup_append.mp hn).2.2 _ hspot _ (List.mem_flatMap.mpr ⟨_, hm, h.mem_modules⟩) rfl

end Node

/-! ## Scopes around scopes -/

/-- From scope to scope outwards one comes from the first to the last, and passes `stop` at most at the end. -/
inductive Climbs (b : Bindings) (stop : ScopeId) : ScopeId → ScopeId → Prop
  | refl (id : ScopeId) : Climbs b stop id id
  | outer {id parent top : ScopeId} : id ≠ stop → b.outer? id = some parent → Climbs b stop parent top → Climbs b stop id top

section

variable {b b' b'' : Bindings} {stop id top top' : ScopeId}

theorem Climbs.mono (h : Climbs b stop id top) (hb : b.Nested b') : Climbs b' stop id top := by
  induction h with
  | refl => exact .refl _
  | outer hne hparent _ ih => exact .outer hne (hb _ _ hparent) ih

/-- There is one way outwards. -/
theorem Climbs.unique (h : Climbs b stop id top) (h' : Climbs b stop id top') (htop : top = stop ∨ b.outer? top = none)
    (htop' : top' = stop ∨ b.outer? top' = none) : top = top' := by
  have ends {top parent : ScopeId} (htop : top = stop ∨ b.outer? top = none) (hne : top ≠ stop)
      (hparent : b.outer? top = some parent) : False := by
    rcases htop with rfl | hnone
    · exact hne rfl
    · exact nomatch hnone.symm.trans hparent
  induction h with
  | refl =>
    cases h' with
    | refl => rfl
    | outer hne hparent => exact (ends htop hne hparent).elim
  | outer hne hparent _ ih =>
    cases h' with
    | refl => exact (ends htop' hne hparent).elim
    | outer _ hparent' h' =>
      obtain rfl := Option.some.inj (hparent.symm.trans hparent')
      exact ih h' htop

/-- All scopes of a body are where the body is. -/
theorem Climbs.inner {body : Body} {parent : ScopeId} {n : Nat} (hstop : stop.home = .main 0) (h : Climbs b stop parent top) :
    Climbs b stop (.inner body parent n) top :=
  .outer (fun heq => nomatch (congrArg ScopeId.home heq).trans hstop) rfl h

theorem Climbs.of_inner {body : Body} {parent : ScopeId} {n : Nat} (h : Climbs b stop (.inner body parent n) top)
    (htop : top.home = .main 0) : Climbs b stop parent top := by
  cases h with
  | refl => exact nomatch htop
  | outer _ hparent h => exact Option.some.inj hparent ▸ h

end

/-! ## Zones -/

/-- What has to do with an import: its file, the scope of that file, the name that is imported and what it is bound to, and the
other statements of the file. -/
structure Zone where
  file : Path
  root : ScopeId
  name : Ident
  binding : ImportBinding
  others : List Statement

namespace Zone

variable (z : Zone) (b : Bindings)

def key : NodeKey := importKey z.file z.name

def Inside (id : ScopeId) : Prop := Climbs b z.root id z.root

def Outside (id : ScopeId) : Prop := Climbs b z.root id libScope

/-- A node of another statement of the file. -/
def Occurs (n : Node) : Prop := ∃ s ∈ z.others, (Node.statement s).Contains n

/-- A module of the file that is declared in a block for the scope that all files share. -/
def Hidden (spot : Spot) : Prop := ∃ s ∈ z.others, (Node.statement s).Hides spot

/-- The modules in a node that are declared in such a block are so inside the node. -/
def Screened (n : Node) : Prop := ∀ spot ∈ n.content.modules, z.Hidden spot → n.Hides spot

/-- All modules in a node are declared in such a block. -/
def Covered (n : Node) : Prop := ∀ spot ∈ n.content.modules, z.Hidden spot

/-- The name is not declared again in its file, nothing else is imported where it is written, and no two modules of the file
begin at one place. -/
structure Lawful : Prop where
  root : z.root.home = .main 0
  fresh : ∀ n, z.Occurs n → z.name.name ∉ n.names
  places : ∀ n, z.Occurs n → ∀ id ∈ n.imports, id.span.start ≠ z.name.span.start
  modules : (z.others.flatMap fun s => (Node.statement s).content.modules).Nodup

/-- The two sides are told apart, and the scope that all files share is outside. -/
structure Framed : Prop where
  edge : ∃ s, b.scopeIn? libScope = some s ∧ s.parent = none
  global : b.outer? globalScope = some libScope
  root : z.root ≠ libScope ∧ z.root ≠ globalScope

/-- What is bound here is on its side: what the file declares is inside, unless it is declared in a block for the scope that
all files share, and what other files declare is outside. -/
structure Accepts (x : Item) : Prop where
  occurs : x.site.file = z.file → z.Occurs x.node
  side : z.Inside b x.site.scope ∧ x.site.file = z.file ∧ (z.Screened x.node ∨ z.Covered x.node) ∨
    z.Outside b x.site.scope ∧ (x.site.file = z.file → z.Covered x.node)

/-- A scope where the parts of what is accepted may stand. -/
def Continues (x : Item) (inner : ScopeId) : Prop :=
  z.Inside b inner ∧ x.site.file = z.file ∨ z.Outside b inner ∧ (x.site.file = z.file → z.Covered x.node)

/-- Two scopes of one table on the same side. -/
def Beside (id inner : ScopeId) : Prop :=
  inner.home = id.home ∧ (z.Inside b id ∧ z.Inside b inner ∨ z.Outside b id ∧ z.Outside b inner)

/-- Whether an import that is bound under this name is another one. -/
def Imports (name : String) (binding : ImportBinding) : Prop :=
  ∃ id, binding.localName = some id ∧ (importKey binding.home id = z.key → name = z.name.name)

/-- What may be bound: inside the zone the name stands for the import. -/
def entries : Entries where
  value id name symbol :=
    (name = z.name.name → z.Outside b id ∨ id = z.root ∧ symbol = .imported z.binding) ∧
    (∀ inner, symbol = .ofModule (.container inner) → z.Beside b id inner) ∧
    ∀ binding, symbol = .imported binding → z.Imports name binding
  type id name symbol :=
    (name = z.name.name → z.Outside b id ∨ id = z.root ∧ symbol = .imported z.binding) ∧
    ∀ binding, symbol = .imported binding → z.Imports name binding
  note key inner :=
    z.Inside b inner ∧ key.file = z.file ∨ z.Outside b inner ∧ (key.file = z.file → z.Hidden (moduleSpot key.start))

variable {z b} {b' : Bindings} {x : Item} {id inner : ScopeId} {n m : Node}

theorem Framed.apart (h : z.Framed b) (hinside : z.Inside b id) : ¬z.Outside b id := by
  intro houtside
  obtain ⟨s, hs, hparent⟩ := h.edge
  have hedge : b.outer? libScope = none := (congrArg (·.bind Scope.parent) hs).trans hparent
  exact h.root.1 (hinside.unique houtside (.inl rfl) (.inr hedge))

theorem Framed.outside_global (h : z.Framed b) : z.Outside b globalScope := .outer h.root.2.symm h.global (.refl _)

theorem Framed.fills {E : Entries} (h : z.Framed b) (hb : Fills E b b') : z.Framed b' := by
  obtain ⟨s, hs, hparent⟩ := h.edge
  obtain ⟨s', hs', hkeeps⟩ := hb.scopes libScope s hs
  exact ⟨⟨s', hs', hkeeps.parent.trans hparent⟩, hb.nested _ _ h.global, h.root⟩

/-- What may be bound may still be bound when scopes have been added. -/
theorem allow_mono {b₀ : Bindings} (hb : b.Nested b') (h : (z.entries b).Allow b₀) : (z.entries b').Allow b₀ where
  values id name symbol hsymbol := by
    obtain ⟨hname, hmodule, himport⟩ := h.values id name symbol hsymbol
    refine ⟨fun heq => (hname heq).imp_left (·.mono hb), fun inner heq => ?_, himport⟩
    obtain ⟨hhome, hside⟩ := hmodule inner heq
    exact ⟨hhome, hside.imp (fun h => ⟨h.1.mono hb, h.2.mono hb⟩) fun h => ⟨h.1.mono hb, h.2.mono hb⟩⟩
  types id name symbol hsymbol := by
    obtain ⟨hname, himport⟩ := h.types id name symbol hsymbol
    exact ⟨fun heq => (hname heq).imp_left (·.mono hb), himport⟩
  notes id key inner hinner := (h.notes id key inner hinner).imp (fun h => ⟨h.1.mono hb, h.2⟩) fun h => ⟨h.1.mono hb, h.2⟩

theorem Accepts.mono (hb : b.Nested b') (h : z.Accepts b x) : z.Accepts b' x where
  occurs := h.occurs
  side := h.side.imp (fun h => ⟨h.1.mono hb, h.2⟩) fun h => ⟨h.1.mono hb, h.2⟩

/-! ### Modules of the file -/

section

variable (hz : z.Lawful)
include hz

omit hz in
theorem Occurs.part (h : z.Occurs n) (hm : m ∈ n.parts) : z.Occurs m := by
  obtain ⟨s, hs, hn⟩ := h
  exact ⟨s, hs, hn.trans (.part hm (.self m))⟩

theorem Lawful.nodup (h : z.Occurs n) : n.content.modules.Nodup := by
  obtain ⟨s, hs, hn⟩ := h
  exact hn.nodup ((List.nodup_flatMap.mp hz.modules).1 s hs)

omit hz in
theorem Occurs.covered (h : z.Occurs n) (hglobal : n.isGlobal = true) : z.Covered n := by
  obtain ⟨s, hs, hn⟩ := h
  exact fun spot hspot => ⟨s, hs, .of_contains (.block hglobal hspot) hn⟩

theorem Lawful.screened {s : Statement} (hs : s ∈ z.others) : z.Screened (.statement s) := by
  rintro spot hspot ⟨s', hs', hhides⟩
  have hnodup : ((Node.ofStatements z.others).flatMap (·.content.modules)).Nodup := by
    rw [Node.ofStatements, List.flatMap_map]
    exact hz.modules
  have heq := Node.eq_of_modules hnodup (List.mem_map_of_mem hs') (List.mem_map_of_mem hs) hhides.mem_modules hspot
  exact heq ▸ hhides

theorem Screened.part (h : z.Screened n) (hn : z.Occurs n) (hopen : n.isGlobal = false) (hm : m ∈ n.parts) : z.Screened m :=
  fun spot hspot hhidden => (h spot (Node.mem_modules_of_part hm hspot) hhidden).inside_part (hz.nodup hn) hopen hm hspot

/-- The parts of a node of the file. -/
theorem Lawful.part (hn : z.Occurs n) (h : z.Screened n ∨ z.Covered n) (hm : m ∈ n.parts) : z.Screened m ∨ z.Covered m := by
  have covered (hcovered : z.Covered n) : z.Covered m := fun spot hspot => hcovered spot (Node.mem_modules_of_part hm hspot)
  rcases h with h | h
  · cases hglobal : n.isGlobal with
    | true => exact .inr (covered (hn.covered hglobal))
    | false => exact .inl (h.part hz hn hglobal hm)
  · exact .inr (covered h)

/-- A module that is declared in a block for the scope that all files share is such a block, or inside one. -/
theorem Lawful.covered (hn : z.Occurs n) (h : z.Screened n ∨ z.Covered n) {spot : Spot} (hspot : spot ∈ n.module)
    (hhidden : z.Hidden spot) : z.Covered n := by
  rcases h with h | h
  · cases hglobal : n.isGlobal with
    | true => exact hn.covered hglobal
    | false =>
      have hmem : spot ∈ n.content.modules := n.modules_eq ▸ List.mem_append_left _ hspot
      exact absurd (h spot hmem hhidden) (Node.not_hides_module (hz.nodup hn) hglobal hspot)
  · exact h

/-! ### What is accepted -/

/-- The parts of what is accepted are accepted in such a scope. -/
theorem Accepts.part (h : z.Accepts b x) (hinner : z.Continues b x inner) (hm : m ∈ x.node.parts) :
    z.Accepts b ⟨m, { x.site with scope := inner }⟩ := by
  refine ⟨fun hfile => (h.occurs hfile).part hm, ?_⟩
  rcases hinner with ⟨hinside, hfile⟩ | ⟨houtside, hcovered⟩
  · refine .inl ⟨hinside, hfile, hz.part (h.occurs hfile) ?_ hm⟩
    rcases h.side with ⟨-, -, h⟩ | ⟨-, h⟩
    · exact h
    · exact .inr (h hfile)
  · exact .inr ⟨houtside, fun hfile spot hspot => hcovered hfile spot (Node.mem_modules_of_part hm hspot)⟩

omit hz in
/-- A scope on the same side. -/
theorem Accepts.continues (hb : z.Framed b) (h : z.Accepts b x)
    (hinner : z.Inside b x.site.scope ∧ z.Inside b inner ∨ z.Outside b x.site.scope ∧ z.Outside b inner) :
    z.Continues b x inner := by
  rcases h.side with ⟨hinside, hfile, -⟩ | ⟨houtside, hcovered⟩
  · exact .inl ⟨(hinner.resolve_right fun h => hb.apart hinside h.1).2, hfile⟩
  · exact .inr ⟨(hinner.resolve_left fun h => hb.apart h.1 houtside).2, hcovered⟩

omit hz in
/-- The scope of a block that belongs to the scope that all files share. -/
theorem Accepts.continues_global (hb : z.Framed b) (h : z.Accepts b x) (hglobal : x.node.isGlobal = true) :
    z.Continues b x globalScope := .inr ⟨hb.outside_global, fun hfile => (h.occurs hfile).covered hglobal⟩

omit hz in
/-- The scope of a module may be noted. -/
theorem Continues.note (h : z.Continues b x inner) {start : Nat} (hmodule : moduleSpot start ∈ x.node.module) :
    (z.entries b).note ⟨.moduleDecl, x.site.file, start⟩ inner :=
  h.imp_right fun h => ⟨h.1, fun hfile => h.2 hfile _ (x.node.modules_eq ▸ List.mem_append_left _ hmodule)⟩

/-- Where the scope of a module is noted, its parts may stand there. -/
theorem Accepts.continues_noted (h : z.Accepts b x) {start : Nat} (hmodule : moduleSpot start ∈ x.node.module)
    (hnote : (z.entries b).note ⟨.moduleDecl, x.site.file, start⟩ inner) : z.Continues b x inner := by
  refine hnote.imp_right fun hnote => ⟨hnote.1, fun hfile => ?_⟩
  rcases h.side with ⟨-, -, hside⟩ | ⟨-, hcovered⟩
  · exact hz.covered (h.occurs hfile) hside hmodule (hnote.2 hfile)
  · exact hcovered hfile

/-- A name that is declared here is another one, or it is declared outside. -/
theorem Accepts.outside (h : z.Accepts b x) (hname : z.name.name ∈ x.node.names) : z.Outside b x.site.scope := by
  rcases h.side with ⟨-, hfile, -⟩ | ⟨houtside, -⟩
  · exact absurd hname (hz.fresh _ (h.occurs hfile))
  · exact houtside

theorem Accepts.imports (h : z.Accepts b x) {name : Ident} (hname : name ∈ x.node.imports) {binding : ImportBinding}
    (hlocal : binding.localName = some name) (hhome : binding.home = x.site.file) : z.Imports name.name binding := by
  refine ⟨name, hlocal, fun hkey => ?_⟩
  have hfile : x.site.file = z.file := hhome ▸ congrArg NodeKey.file hkey
  exact absurd (congrArg NodeKey.start hkey) (hz.places _ (h.occurs hfile) name hname)

end

/-! ## Binding -/

section

variable {final : Bindings} {p : Bindings.Place}

theorem Beside.trans (hb : z.Framed final) {innermost : ScopeId} (h : z.Beside final id inner)
    (h' : z.Beside final inner innermost) : z.Beside final id innermost := by
  refine ⟨h'.1.trans h.1, ?_⟩
  rcases h.2 with ⟨hid, hinner⟩ | ⟨hid, hinner⟩
  · exact .inl ⟨hid, (h'.2.resolve_right fun h => hb.apart hinner h.1).2⟩
  · exact .inr ⟨hid, (h'.2.resolve_left fun h => hb.apart h.1 hinner).2⟩

theorem beside_self (h : z.Inside final id ∨ z.Outside final id) : z.Beside final id id :=
  ⟨rfl, h.imp (fun h => ⟨h, h⟩) fun h => ⟨h, h⟩⟩

theorem Beside.side (h : z.Beside final id inner) : z.Inside final inner ∨ z.Outside final inner :=
  h.2.imp And.right And.right

theorem Beside.outside (hb : z.Framed final) (h : z.Beside final id inner) (hid : z.Outside final id) : z.Outside final inner :=
  (h.2.resolve_left fun h => hb.apart h.1 hid).2

/-- A scope that is opened in another one is on its side. -/
theorem beside_newScope (hz : z.Lawful) (h : z.Inside final id ∨ z.Outside final id) (hroot : id.home = .main 0 → b.Has z.root)
    (hnested : (b.newScope id).2.Nested final) : z.Beside final id (b.newScope id).1 := by
  have climbs {top : ScopeId} (htop : top.home = .main 0) (h : Climbs final z.root id top) :
      Climbs final z.root (b.newScope id).1 top := by
    cases id with
    | inner body parent n => exact (h.of_inner htop).inner hz.root
    | main n =>
      have hne : z.root ≠ (b.newScope (.main n)).1 := Bindings.ne_newScope (hroot rfl) hz.root
      exact .outer hne.symm (hnested _ _ Bindings.outer?_newScope) h
  exact ⟨id.home_beside _, h.imp (fun h => ⟨h, climbs hz.root h⟩) fun h => ⟨h, climbs rfl h⟩⟩

variable (hz : z.Lawful) (hb : z.Framed final)
include hz hb

omit hb in
/-- A namespace is on the side where it is opened. -/
theorem fills_namespaceScope (hallow : (z.entries final).Allow b) {name : String} (h : z.Inside final id ∨ z.Outside final id)
    (hroot : id.home = .main 0 → b.Has z.root) (hname : name = z.name.name → z.Outside final id)
    (hnested : (b.namespaceScope id name).2.Nested final) :
    z.Beside final id (b.namespaceScope id name).1 ∧ Fills (z.entries final) b (b.namespaceScope id name).2 := by
  unfold Bindings.namespaceScope at hnested ⊢
  split at hnested
  · rename_i inner hvalue
    exact ⟨(hallow.values id name _ hvalue).2.1 inner rfl, .refl b⟩
  · have hnew : ((b.newScope id).2).Nested final :=
      ((Fills.putValue (E := .any) trivial).trans (Fills.putType trivial)).nested.trans hnested
    have hbeside := beside_newScope hz h hroot hnew
    have hvalue : (z.entries final).value id name (.ofModule (.container (b.newScope id).1)) :=
      ⟨fun heq => .inl (hname heq), fun inner heq => ModuleRef.container.inj (ValueSymbol.ofModule.inj heq) ▸ hbeside, nofun⟩
    have htype : (z.entries final).type id name (.ofModule (.container (b.newScope id).1)) :=
      ⟨fun heq => .inl (hname heq), nofun⟩
    exact ⟨hbeside, Fills.newScope.trans ((Fills.putValue hvalue).trans (Fills.putType htype))⟩

theorem fills_openNamespaces (hallow : (z.entries final).Allow b) (exported : Bool) {names : List String}
    (h : z.Inside final p.scope ∨ z.Outside final p.scope) (hroot : p.scope.home = .main 0 → b.Has z.root)
    (hnames : z.name.name ∈ names → z.Outside final p.scope)
    (hnested : (Bindings.openNamespaces p exported names b).2.Nested final) :
    let opened := Bindings.openNamespaces p exported names b
    opened.1.home = p.home ∧ z.Beside final p.scope opened.1.scope ∧ Fills (z.entries final) b opened.2 := by
  induction names generalizing p exported b with
  | nil => exact ⟨rfl, beside_self h, .refl b⟩
  | cons name names ih =>
    have hname : name = z.name.name → z.Outside final p.scope := fun heq => hnames (heq ▸ List.mem_cons_self)
    unfold Bindings.openNamespaces at hnested ⊢
    have hspace := @fills_namespaceScope z b p.scope final hz hallow name h hroot hname
    generalize b.namespaceScope p.scope name = opened at hnested hspace ⊢
    obtain ⟨inner, b₁⟩ := opened
    dsimp only at hnested hspace ⊢
    have hexport {E : Entries} : Fills E b₁ (if exported then
        (b₁.exportValue p.container name (.ofModule (.container inner))).exportType p.container name
          (.ofModule (.container inner))
        else b₁) := Fills.exportNamespace
    generalize (if exported then
        (b₁.exportValue p.container name (.ofModule (.container inner))).exportType p.container name
          (.ofModule (.container inner))
        else b₁) = b₂ at hexport hnested ⊢
    have hlater := ((hexport (E := .any)).trans (Fills.any_openNamespaces true names)).nested.trans hnested
    obtain ⟨hbeside, hspace⟩ := hspace hlater
    have hfirst := hspace.trans hexport
    obtain ⟨hhome, hrest, hfills⟩ := ih (hfirst.allow hallow) true hbeside.side
      (fun hmain => hfirst.has (hroot (hbeside.1.symm.trans hmain)))
      (fun hmem => hbeside.outside hb (hnames (List.mem_cons_of_mem _ hmem))) hnested
    exact ⟨hhome, hbeside.trans hb hrest, hfirst.trans hfills⟩

omit hb in
/-- An import may be bound: it is another one. -/
theorem imports_of_accepts {s : Statement} (h : z.Accepts final ⟨.statement s, p.site⟩) {name : Ident}
    (hname : name ∈ (Node.statement s).imports) : Fills.Imports (z.entries final) p name := by
  have houtside (heq : name.name = z.name.name) : z.Outside final p.scope :=
    h.outside hz (heq ▸ Node.name_mem_names hname)
  intro specifier imported
  have himports : z.Imports name.name (p.binding specifier imported (some name)) := h.imports hz hname rfl rfl
  refine ⟨⟨fun heq => .inl (houtside heq), nofun, fun binding heq => ?_⟩, fun heq => .inl (houtside heq), fun binding heq => ?_⟩
  · exact ValueSymbol.imported.inj heq ▸ himports
  · exact TypeSymbol.imported.inj heq ▸ himports

/-- The body of a module is bound where its statements may stand. -/
theorem fills_openModule (hallow : (z.entries final).Allow b) (exported ambient : Bool) {d : ModuleDecl} {body : List Statement}
    (hbody : d.body = some body) (h : z.Accepts final ⟨.statement (.moduleDecl d), p.site⟩)
    (hroot : p.scope.home = .main 0 ∨ reachesOut (.moduleDecl d) = true → b.Has z.root)
    (hnested : (Bindings.openModule p ⟨.moduleDecl, p.home, d.span.start⟩ exported ambient d.name b).2.Nested final) :
    let opened := Bindings.openModule p ⟨.moduleDecl, p.home, d.span.start⟩ exported ambient d.name b
    opened.1.home = p.home ∧ z.Continues final ⟨.statement (.moduleDecl d), p.site⟩ opened.1.scope ∧
      (opened.1.scope.home = .main 0 ∨ anyReachesOut body = true → b.Has z.root) ∧ Fills (z.entries final) b opened.2 := by
  obtain ⟨modifiers, name, _, span⟩ := d
  obtain rfl := hbody
  have hside : z.Inside final p.scope ∨ z.Outside final p.scope := h.side.imp And.left And.left
  have hnote {inner : ScopeId} (hinner : z.Continues final ⟨.statement (.moduleDecl ⟨modifiers, name, some body, span⟩), p.site⟩ inner) :
      (z.entries final).note ⟨.moduleDecl, p.home, span.start⟩ inner := hinner.note List.mem_cons_self
  unfold Bindings.openModule at hnested ⊢
  cases name with
  | global =>
    have hinner := h.continues_global hb rfl
    exact ⟨rfl, hinner, fun _ => hroot (.inr rfl), .setModuleScope (hnote hinner)⟩
  | ambient =>
    have hnew := (Fills.setModuleScope (E := .any) trivial).nested.trans hnested
    have hbeside := beside_newScope hz hside (fun hmain => hroot (.inl hmain)) hnew
    have hinner := h.continues hb hbeside.2
    exact ⟨rfl, hinner, fun _ => hroot (.inr rfl), Fills.newScope.trans (.setModuleScope (hnote hinner))⟩
  | named name =>
    have hnew := (Fills.setModuleScope (E := .any) trivial).nested.trans hnested
    obtain ⟨hhome, hbeside, hfills⟩ := fills_openNamespaces hz hb hallow exported hside (fun hmain => hroot (.inl hmain))
      (h.outside hz) hnew
    have hinner := h.continues hb hbeside.2
    exact ⟨hhome, hinner, fun hreach => hroot (hreach.imp_left hbeside.1.symm.trans), hfills.trans (.setModuleScope (hnote hinner))⟩

end

section

variable {final : Bindings}

mutual

/-- Binding a statement puts in nothing that stands on the wrong side. -/
theorem fills_bindStatement (hz : z.Lawful) (hb : z.Framed final) (p : Bindings.Place) (b : Bindings)
    (hallow : (z.entries final).Allow b) : ∀ s : Statement,
    z.Accepts final ⟨.statement s, p.site⟩ → (p.scope.home = .main 0 ∨ reachesOut s = true → b.Has z.root) →
      (Bindings.bindStatement p s b).Nested final → Fills (z.entries final) b (Bindings.bindStatement p s b)
  | .moduleDecl ⟨modifiers, name, some body, span⟩, h, hroot, hnested => by
    rw [Bindings.bindStatement] at hnested ⊢
    have hopen := fills_openModule hz hb hallow (modifiers.exported || p.implicitExport) (p.implicitExport || modifiers.declared)
      rfl h hroot
    dsimp only at hnested hopen ⊢
    generalize Bindings.openModule p ⟨.moduleDecl, p.home, span.start⟩ (modifiers.exported || p.implicitExport)
      (p.implicitExport || modifiers.declared) name b = opened at hnested hopen ⊢
    obtain ⟨place, b₁⟩ := opened
    have hbehind {E : Entries} (b' : Bindings) : Fills E b' (Bindings.addAmbient name
        ((place.container.map .container).getD .untyped) (Bindings.bindLocalExports place body b')) :=
      Fills.bindLocalExports.trans (.addAmbient _ _)
    have hnested₂ := (hbehind (E := .any) (Bindings.bindEach place body b₁)).nested.trans hnested
    obtain ⟨hhome, hinner, hroot', hfills⟩ := hopen ((Fills.any_bindEach place b₁ body).nested.trans hnested₂)
    have hparts (s : Statement) (hs : s ∈ body) : z.Accepts final ⟨.statement s, place.site⟩ := by
      have hpart := h.part hz hinner (List.mem_map_of_mem hs)
      rwa [Bindings.Place.site, hhome]
    have heach := fills_bindEach hz hb place b₁ (hfills.allow hallow) body hparts (fun hreach => hfills.has (hroot' hreach)) hnested₂
    exact hfills.trans (heach.trans (hbehind _))
  | .moduleDecl ⟨modifiers, name, none, span⟩, h, hroot, hnested => by
    rw [Bindings.bindStatement] at hnested ⊢
    cases name with
    | global => exact .refl b
    | ambient specifier => exact .addAmbient (.ambient specifier) _
    | named name =>
      exact (fills_openNamespaces hz hb hallow _ (h.side.imp And.left And.left) (fun hmain => hroot (.inl hmain))
        (h.outside hz) hnested).2.2
  | .variableDecl d, h, _, _ => by
    rw [Bindings.bindStatement]
    refine .bindDeclarators fun decl hdecl => ⟨fun heq => .inl (h.outside hz ?_), nofun, nofun⟩
    exact List.mem_map.mpr ⟨decl, hdecl, heq⟩
  | .function d, h, _, _ => by
    rw [Bindings.bindStatement]
    refine .bindFunction fun name hname => ⟨fun heq => .inl (h.outside hz ?_), nofun, nofun⟩
    exact List.mem_map.mpr ⟨name, by simp [hname], heq⟩
  | .interface d, h, _, _ => by
    rw [Bindings.bindStatement]
    exact .bindInterface ⟨fun heq => .inl (h.outside hz (List.mem_map.mpr ⟨d.name, List.mem_cons_self, heq⟩)), nofun⟩
  | .typeAlias d, h, _, _ => by
    rw [Bindings.bindStatement]
    exact .bindAlias ⟨fun heq => .inl (h.outside hz (List.mem_map.mpr ⟨d.name, List.mem_cons_self, heq⟩)), nofun⟩
  | .importDecl d, h, _, _ => by
    rw [Bindings.bindStatement]
    exact .bindImport fun name hname => imports_of_accepts hz h hname
  | .importEquals d, h, _, _ => by
    rw [Bindings.bindStatement]
    exact .bindImportEquals (imports_of_accepts hz h List.mem_cons_self)
  | .exportDecl d, _, _, _ => by
    rw [Bindings.bindStatement]
    exact .bindExport
  | .ifElse _, _, _, _ | .block _, _, _, _ | .expression _, _, _, _ | .ret _, _, _, _ | .empty _, _, _, _
  | .error _, _, _, _ => .refl b

theorem fills_bindEach (hz : z.Lawful) (hb : z.Framed final) (p : Bindings.Place) (b : Bindings)
    (hallow : (z.entries final).Allow b) : ∀ statements : List Statement,
    (∀ s ∈ statements, z.Accepts final ⟨.statement s, p.site⟩) →
      (p.scope.home = .main 0 ∨ anyReachesOut statements = true → b.Has z.root) →
      (Bindings.bindEach p statements b).Nested final → Fills (z.entries final) b (Bindings.bindEach p statements b)
  | [], _, _, _ => .refl b
  | s :: rest, h, hroot, hnested => by
    have hreach (h : reachesOut s = true ∨ anyReachesOut rest = true) : anyReachesOut (s :: rest) = true := by
      rwa [anyReachesOut, Bool.or_eq_true]
    have hfirst := fills_bindStatement hz hb p b hallow s (h s List.mem_cons_self) (fun h => hroot (h.imp_right fun h => hreach (.inl h)))
      ((Fills.any_bindEach p _ rest).nested.trans hnested)
    have hrest := fills_bindEach hz hb p _ (hfirst.allow hallow) rest (fun s hs => h s (List.mem_cons_of_mem _ hs))
      (fun h => hfirst.has (hroot (h.imp_right fun h => hreach (.inr h)))) hnested
    exact hfirst.trans hrest

end

theorem fills_bindBody (hz : z.Lawful) (hb : z.Framed final) (p : Bindings.Place) (b : Bindings)
    (hallow : (z.entries final).Allow b) (statements : List Statement)
    (h : ∀ s ∈ statements, z.Accepts final ⟨.statement s, p.site⟩)
    (hroot : p.scope.home = .main 0 ∨ anyReachesOut statements = true → b.Has z.root)
    (hnested : (Bindings.bindBody p statements b).Nested final) : Fills (z.entries final) b (Bindings.bindBody p statements b) :=
  (fills_bindEach hz hb p b hallow statements h hroot ((Fills.bindLocalExports (E := .any)).nested.trans hnested)).trans
    .bindLocalExports

/-! ## Bodies -/

/-- The tables of the files are as before. -/
theorem tableOf_withBody_main {body : Body} {parent : ScopeId} (hid : id.home = .main 0) :
    (b.withBody body parent).tableOf id = b.tableOf id := by
  have hother : id.home ≠ .inner body parent 0 := fun heq => nomatch hid.symm.trans heq
  rw [Bindings.tableOf_withBody, if_neg hother]

theorem allow_withBody {E : Entries} {body : Body} {parent : ScopeId} (h : E.Allow b) : E.Allow (b.withBody body parent) := by
  have hscope {id : ScopeId} {s : Scope} (hs : (b.withBody body parent).scopeIn? id = some s) :
      b.scopeIn? id = some s ∨ s = Scope.inside (some parent) := by
    rw [Bindings.scopeIn?, Bindings.tableOf_withBody] at hs
    split at hs
    · obtain ⟨hlt, heq⟩ := Array.getElem?_eq_some_iff.mp hs
      have hmem := Array.getElem_mem hlt
      rw [heq] at hmem
      exact .inr (by simpa [Table.inside] using hmem)
    · exact .inl hs
  refine ⟨fun id name symbol hsymbol => ?_, fun id name symbol hsymbol => ?_, fun id key inner hinner => ?_⟩
  · obtain ⟨s, hs, hvalue⟩ := Option.bind_eq_some_iff.mp hsymbol
    rcases hscope hs with hs | rfl
    · exact h.values id name symbol (Option.bind_eq_some_iff.mpr ⟨s, hs, hvalue⟩)
    · cases hvalue
  · obtain ⟨s, hs, htype⟩ := Option.bind_eq_some_iff.mp hsymbol
    rcases hscope hs with hs | rfl
    · exact h.types id name symbol (Option.bind_eq_some_iff.mpr ⟨s, hs, htype⟩)
    · cases htype
  · rw [Bindings.moduleIn?, Bindings.tableOf_withBody] at hinner
    split at hinner
    · cases hinner
    · exact h.notes id key inner hinner

/-- A body is on the side where it stands. -/
theorem fills_bindInner (hz : z.Lawful) (hb : z.Framed final) {body : Body} (importer : Path) (hx : z.Accepts final x)
    (hbody : x.node.body? x.site.file = some body)
    (hallow : (z.entries final).Allow b) (hroot : body.isPlain = false → b.Has z.root)
    (hnested : (Bindings.bindInner body x.site.scope importer b).Nested final) :
    Fills (z.entries final) (b.withBody body x.site.scope) (Bindings.bindInner body x.site.scope importer b) := by
  have hinner : z.Inside final x.site.scope ∧ z.Inside final (.inner body x.site.scope 0) ∨
      z.Outside final x.site.scope ∧ z.Outside final (.inner body x.site.scope 0) :=
    hx.side.imp (fun h => ⟨h.1, h.1.inner hz.root⟩) fun h => ⟨h.1, h.1.inner hz.root⟩
  have houtside (hname : z.name.name ∈ x.node.names) : z.Outside final (.inner body x.site.scope 0) :=
    (hinner.resolve_left fun h => hb.apart h.1 (hx.outside hz hname)).2
  have hnames : Fills (z.entries final) (b.withBody body x.site.scope) (Bindings.bindParams ⟨body.key.file, .inner body x.site.scope 0⟩
      body.params (Bindings.bindTypeParams (.inner body x.site.scope 0) body.typeParams (b.withBody body x.site.scope))) := by
    refine .bindNames (fun name hname => ⟨fun heq => .inl (houtside ?_), nofun⟩) fun param hparam =>
      ⟨fun heq => .inl (houtside ?_), nofun, nofun⟩
    · exact heq ▸ Node.typeParam_mem_names hbody hname
    · exact heq ▸ Node.param_mem_names hbody hparam
  have hallowed := hnames.allow (allow_withBody hallow)
  refine hnames.trans (fills_bindBody hz hb _ _ hallowed _ (fun s hs => ?_) (fun hreach => ?_) hnested)
  · have hpart := hx.part hz (hx.continues hb hinner) ((Node.statements_sublist hbody).subset (List.mem_map_of_mem hs))
    rwa [Bindings.Place.site, Node.file_body hbody]
  · have hplain : body.isPlain = false := by
      rcases hreach with hhome | hreach
      · exact nomatch hhome
      · rw [Body.isPlain, hreach, Bool.not_true]
    refine hnames.has ?_
    rw [Bindings.Has, Bindings.scopeIn?, tableOf_withBody_main hz.root]
    exact hroot hplain

end

end Zone

end Recheck.Check
