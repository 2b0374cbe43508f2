import Mathlib.Data.List.Pairwise
import Mathlib.Data.List.Perm.Subperm
import Recheck.Proofs.Check.Nodes
import Recheck.Proofs.Program.Search

/-!
# What stands in a program

The checker gets from the statements of a file to their parts, each at its site (`Stands`). A body that says something
about other modules is closed before it is bound: nothing inside it stands yet. No node is reached along two ways, so a
declaration stands once for each place in a text where it is written, and the declarations that stand can be counted
(`Stated.length_le`). For the same reason no two modules that stand, and none inside a closed body, begin at one place
(`Stands.apart`).
-/

set_option autoImplicit false

namespace Recheck

open Syntax Check

/-! ## Programs that were read from texts -/

/-- Each file of a program stands there once, as its text reads. -/
structure Program.WellRead (p : Program) : Prop where
  distinct : p.files.Distinct
  read : ∀ path unit, (path, unit) ∈ p.files.entries → (path == unit.path) = true ∧ unit.Read

/-- The number of nodes with a type of their own: variables, functions, parameters, exported expressions, interfaces and
aliases. -/
def Program.cacheable (p : Program) : Nat :=
  (p.units.map fun unit => (statementsContent unit.tree.statements).declared).sum

namespace Check

/-! ## Sites of parts -/

/-- The scope of type parameters, if there are any. -/
def typeParamBody? (kind : NodeKind) (file : Path) (start : Nat) (names : List Ident) : Option Body :=
  if names.isEmpty then none else some ⟨⟨kind, file, start⟩, names, [], []⟩

/-- The body whose scope the parts of a node stand in. -/
def Node.body? (file : Path) : Node → Option Body
  | expr e =>
    match e.kind with
    | .function params _ body => some ⟨⟨.functionExpr, file, e.span.start⟩, [], params, bodyStatements body⟩
    | _ => none
  | type _ => none
  | statement s =>
    match s with
    | .function d =>
      some ⟨⟨.function, file, d.span.start⟩, d.typeParams, d.params, (d.body.map (·.statements)).getD []⟩
    | .block b => some ⟨⟨.block, file, b.span.start⟩, [], [], b.statements⟩
    | .interface d => typeParamBody? .interface file d.span.start d.typeParams
    | .typeAlias d => typeParamBody? .typeAlias file d.span.start d.typeParams
    | _ => none

/-- Whether a body is bound. -/
def Bindings.isOpen (b : Bindings) (body : Body) (parent : ScopeId) : Bool :=
  body.isPlain || b.opened.contains (.inner body parent 0)

/-- A node and where it stands. -/
structure Item where
  node : Node
  site : Site

namespace Item

/-- Where the parts of a node stand; nowhere as long as its body is closed. -/
def inside (b : Bindings) (x : Item) : Option Site :=
  match x.node.body? x.site.file, x.node with
  | some body, _ =>
    if b.isOpen body x.site.scope then some { x.site with scope := .inner body x.site.scope 0 } else none
  | none, .statement (.moduleDecl d) =>
    let scope := b.moduleScope? x.site.scope ⟨.moduleDecl, x.site.file, d.span.start⟩
    some { x.site with scope := scope.getD x.site.scope }
  | none, _ => some x.site

def parts (b : Bindings) (x : Item) : List Item :=
  (x.inside b).elim [] fun site => x.node.parts.map fun node => ⟨node, site⟩

/-- The declarations of a node itself. Parameters and the node of a function expression belong to the site inside. -/
def declarations (b : Bindings) (x : Item) : List Declaration :=
  match x.node with
  | .expr e =>
    match e.kind with
    | .function params returnType body =>
      (x.inside b).elim [] fun site =>
        .functionExpr params returnType body site :: params.map fun param => .param param site
    | _ => []
  | .type _ => []
  | .statement s =>
    match s with
    | .variableDecl d => d.declarators.map fun decl => .variable decl d.kind x.site
    | .function d =>
      .function d x.site :: (x.inside b).elim [] fun site => d.params.map fun param => .param param site
    | .interface d => [.interface d.name.name x.site.scope]
    | .typeAlias d => [.typeAlias d x.site]
    | .exportDecl d =>
      match d.kind with
      | .default value => [.exported value x.site]
      | .assignment value => [.exported value x.site]
      | _ => []
    | _ => []

variable (b : Bindings) (x : Item)

theorem length_declarations_le : (x.declarations b).length ≤ x.node.declares := by
  obtain ⟨node, site⟩ := x
  cases node with
  | expr e =>
    obtain ⟨kind, span⟩ := e
    cases kind with
    | function =>
      simp only [declarations, Node.declares, Node.declaresExpr]
      cases inside b _ <;> simp
    | _ => exact Nat.zero_le _
  | type t => exact Nat.zero_le _
  | statement s =>
    cases s with
    | variableDecl d => simp [declarations, Node.declares, Node.declaresStatement]
    | function d =>
      simp only [declarations, Node.declares, Node.declaresStatement]
      cases inside b _ <;> simp
    | interface d => exact Nat.le_refl _
    | typeAlias d => exact Nat.le_refl _
    | exportDecl d =>
      obtain ⟨kind, span⟩ := d
      cases kind <;> exact Nat.le_refl _
    | _ => exact Nat.zero_le _

variable {b x} {y : Item}

theorem mem_parts : y ∈ x.parts b ↔ ∃ site, x.inside b = some site ∧ y.node ∈ x.node.parts ∧ y.site = site := by
  unfold parts
  cases x.inside b with
  | none => simp
  | some site =>
    simp only [Option.elim_some, List.mem_map, Option.some.injEq, exists_eq_left']
    constructor
    · rintro ⟨node, hnode, rfl⟩
      exact ⟨hnode, rfl⟩
    · rintro ⟨hnode, rfl⟩
      exact ⟨y.node, hnode, rfl⟩

/-- The site inside a node is in its body, in the scope of the module it declares, or where it stands itself. -/
theorem inside_cases {site : Site} (h : x.inside b = some site) :
    (∃ body, x.node.body? x.site.file = some body ∧ b.isOpen body x.site.scope = true ∧
      site = { x.site with scope := .inner body x.site.scope 0 }) ∨
    (∃ d, x.node = .statement (.moduleDecl d) ∧
      site = { x.site with
        scope := (b.moduleScope? x.site.scope ⟨.moduleDecl, x.site.file, d.span.start⟩).getD x.site.scope }) ∨
    x.node.body? x.site.file = none ∧ site = x.site := by
  unfold inside at h
  split at h
  · rename_i body _ hbody _
    split at h
    · rename_i hopen
      exact .inl ⟨_, by assumption, hopen, (Option.some.inj h).symm⟩
    · exact nomatch h
  · rename_i d _ hnode
    exact .inr (.inl ⟨d, hnode, (Option.some.inj h).symm⟩)
  · rename_i hbody _
    exact .inr (.inr ⟨hbody, (Option.some.inj h).symm⟩)

theorem file_inside {site : Site} (h : x.inside b = some site) : site.file = x.site.file := by
  rcases inside_cases h with ⟨_, _, _, rfl⟩ | ⟨_, _, rfl⟩ | ⟨_, rfl⟩ <;> rfl

theorem file_of_mem_parts (h : y ∈ x.parts b) : y.site.file = x.site.file := by
  obtain ⟨site, hsite, -, rfl⟩ := mem_parts.mp h
  exact file_inside hsite

/-! ## Everything within a node -/

/-- The modules that a node itself accounts for. A closed body accounts for all that are inside. -/
def taken (b : Bindings) (x : Item) : List Spot :=
  x.node.module ++ if (x.inside b).isNone then x.node.parts.flatMap (·.content.modules) else []

/-- All that is reached from a node within some steps. -/
def within (b : Bindings) : Nat → Item → List Item
  | 0, x => [x]
  | n + 1, x => x :: (x.parts b).flatMap (within b n)

theorem mem_within_self (n : Nat) : x ∈ x.within b n := by
  cases n <;> simp [within]

/-- A step down costs height, so no more steps are needed than a node is high. -/
theorem mem_within_of_mem_parts {z : Item} {n : Nat} (hn : x.node.content.height ≤ n) (hy : y ∈ x.within b n)
    (hz : z ∈ y.parts b) : z ∈ x.within b n := by
  induction n generalizing x with
  | zero =>
    have := x.node.height_pos
    omega
  | succ n ih =>
    refine List.mem_cons_of_mem x (List.mem_flatMap.mpr ?_)
    rcases List.mem_cons.mp hy with rfl | hy
    · exact ⟨z, hz, mem_within_self n⟩
    · obtain ⟨w, hw, hy⟩ := List.mem_flatMap.mp hy
      obtain ⟨-, -, hnode, -⟩ := mem_parts.mp hw
      have := Node.height_lt hnode
      exact ⟨w, hw, ih (by omega) hy⟩

theorem length_declared_within_le (n : Nat) (x : Item) :
    ((x.within b n).flatMap (declarations b)).length ≤ x.node.content.declared := by
  induction n generalizing x with
  | zero =>
    have := x.length_declarations_le b
    have := x.node.declared_eq
    simp only [within, List.flatMap_cons, List.flatMap_nil, List.append_nil]
    omega
  | succ n ih =>
    have hown := x.length_declarations_le b
    have hparts : (((x.parts b).flatMap (within b n)).flatMap (declarations b)).length ≤
        (x.node.parts.map (·.content.declared)).sum := by
      unfold parts
      cases x.inside b with
      | none => simp
      | some site =>
        rw [Option.elim_some]
        generalize x.node.parts = nodes
        induction nodes with
        | nil => simp
        | cons node nodes ihn =>
          have : _ ≤ node.content.declared := ih ⟨node, site⟩
          simp only [List.map_cons, List.flatMap_cons, List.flatMap_append, List.length_append, List.sum_cons] at ihn ⊢
          omega
    rw [within, List.flatMap_cons, List.length_append, x.node.declared_eq]
    omega

theorem taken_within_sublist (n : Nat) (x : Item) :
    ((x.within b n).flatMap (taken b)).Sublist x.node.content.modules := by
  induction n generalizing x with
  | zero =>
    rw [within, List.flatMap_singleton, x.node.modules_eq, taken]
    refine List.Sublist.append (List.Sublist.refl _) ?_
    split
    · exact List.Sublist.refl _
    · exact List.nil_sublist _
  | succ n ih =>
    rw [within, List.flatMap_cons, x.node.modules_eq, taken, parts, List.append_assoc]
    refine List.Sublist.append (List.Sublist.refl _) ?_
    cases x.inside b with
    | none => simp
    | some site =>
      simp only [Option.isNone_some, Bool.false_eq_true, if_false, List.nil_append, Option.elim_some]
      generalize x.node.parts = nodes
      induction nodes with
      | nil => simp
      | cons node nodes ihn =>
        simp only [List.map_cons, List.flatMap_cons, List.flatMap_append] at ihn ⊢
        exact (ih ⟨node, site⟩).append ihn

end Item

/-! ## What stands -/

namespace Bindings

/-- Where the statements of a file stand. -/
def fileSite (b : Bindings) (unit : SourceUnit) : Site :=
  ⟨unit.path, (b.fileScopes.get? unit.path).getD globalScope⟩

/-- All that stands in a file. -/
def reached (b : Bindings) (unit : SourceUnit) : List Item :=
  (Node.ofStatements unit.tree.statements).flatMap fun node => Item.within b node.content.height ⟨node, b.fileSite unit⟩

end Bindings

inductive Stands (b : Bindings) : Item → Prop where
  | root {unit : SourceUnit} {s : Statement} : unit ∈ b.program.units → s ∈ unit.tree.statements →
      Stands b ⟨.statement s, b.fileSite unit⟩
  | part {x y : Item} : Stands b x → y ∈ x.parts b → Stands b y

/-- A declaration of something that stands. -/
def Stated (b : Bindings) (d : Declaration) : Prop := ∃ x, Stands b x ∧ d ∈ x.declarations b

section

variable {b : Bindings} {x y : Item}

theorem Stands.mem_reached (h : Stands b x) :
    ∃ unit ∈ b.program.units, x ∈ b.reached unit ∧ x.site.file = unit.path := by
  induction h with
  | @root unit s hunit hs =>
    exact ⟨unit, hunit, List.mem_flatMap.mpr ⟨_, List.mem_map_of_mem hs, Item.mem_within_self _⟩, rfl⟩
  | part _ hy ih =>
    obtain ⟨unit, hunit, hx, hfile⟩ := ih
    obtain ⟨node, hnode, hx⟩ := List.mem_flatMap.mp hx
    refine ⟨unit, hunit, List.mem_flatMap.mpr ⟨node, hnode, ?_⟩, (Item.file_of_mem_parts hy).trans hfile⟩
    exact Item.mem_within_of_mem_parts (Nat.le_refl _) hx hy

/-- Declarations that stand, each taken once, are no more than there are in the texts. -/
theorem Stated.length_le {ds : List Declaration} (hd : ds.Nodup) (h : ∀ d ∈ ds, Stated b d) :
    ds.length ≤ b.program.cacheable := by
  have hunit (unit : SourceUnit) : ((b.reached unit).flatMap (Item.declarations b)).length ≤
      (statementsContent unit.tree.statements).declared := by
    rw [(Gathers.statements unit.tree.statements).declared_eq, Bindings.reached]
    generalize Node.ofStatements unit.tree.statements = nodes
    induction nodes with
    | nil => simp
    | cons node nodes ih =>
      have : _ ≤ node.content.declared :=
        Item.length_declared_within_le (b := b) node.content.height ⟨node, b.fileSite unit⟩
      simp only [List.flatMap_cons, List.flatMap_append, List.length_append, List.map_cons, List.sum_cons] at ih ⊢
      omega
  have hall : (b.program.units.flatMap fun unit => (b.reached unit).flatMap (Item.declarations b)).length ≤
      b.program.cacheable := by
    unfold Program.cacheable
    induction b.program.units with
    | nil => simp
    | cons unit units ih =>
      have := hunit unit
      simp only [List.flatMap_cons, List.length_append, List.map_cons, List.sum_cons] at ih ⊢
      omega
  refine Nat.le_trans (List.subperm_of_subset hd fun d hmem => ?_).length_le hall
  obtain ⟨x, hx, hdx⟩ := h d hmem
  obtain ⟨unit, hu, hx, -⟩ := hx.mem_reached
  exact List.mem_flatMap.mpr ⟨unit, hu, List.mem_flatMap.mpr ⟨x, hx, hdx⟩⟩

/-! ### Programs whose texts are told apart -/

/-- No two files have one path, and in each no two modules begin at one place. -/
structure Program.Orderly (p : Program) : Prop where
  paths : p.units.Pairwise fun u v => u.path ≠ v.path
  modules : ∀ unit ∈ p.units, (statementsContent unit.tree.statements).modules.Nodup

/-- What two nodes account for is apart. -/
theorem Stands.apart (hp : Program.Orderly b.program) (hx : Stands b x) (hy : Stands b y) (hne : x ≠ y)
    (hfile : x.site.file = y.site.file) : List.Disjoint (x.taken b) (y.taken b) := by
  obtain ⟨u, hu, hx, hxu⟩ := hx.mem_reached
  obtain ⟨v, hv, hy, hyv⟩ := hy.mem_reached
  have huv : u = v := by
    by_contra hne
    have : Std.Symm fun u v : SourceUnit => u.path ≠ v.path := ⟨fun _ _ h => h.symm⟩
    exact hp.paths.forall hu hv hne (hxu.symm.trans (hfile.trans hyv))
  subst huv
  have hsublist : ((b.reached u).flatMap (Item.taken b)).Sublist (statementsContent u.tree.statements).modules := by
    rw [(Gathers.statements u.tree.statements).modules_eq, Bindings.reached, List.nil_append]
    generalize Node.ofStatements u.tree.statements = nodes
    induction nodes with
    | nil => simp
    | cons node nodes ih =>
      simp only [List.flatMap_cons, List.flatMap_append] at ih ⊢
      exact (Item.taken_within_sublist node.content.height ⟨node, b.fileSite u⟩).append ih
  have hnodup := (hp.modules u hu).sublist hsublist
  have : Std.Symm (Function.onFun List.Disjoint (Item.taken b)) := ⟨fun _ _ h _ hx hy => h hy hx⟩
  exact (List.nodup_flatMap.mp hnodup).2.forall hx hy hne

end

end Check

end Recheck
