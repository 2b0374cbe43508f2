import Mathlib.Algebra.GroupWithZero.Nat
import Recheck.Check.Checker
import Recheck.Proofs.Syntax.Parts

/-!
# The parts of nodes

The checker looks into a node by way of its parts, and these are lower than the node (`Node.height_lt`). What a node
declares it declares by itself or in one of its parts, and in the same way the modules inside it are those of its parts.
So both can be counted along the parts, which is how the declarations of a program are counted.
-/

set_option autoImplicit false

namespace Recheck

open Syntax Check

/-- The modules inside a node. -/
def Syntax.Content.modules (c : Content) : List Spot := c.spots.filter (·.1 = .module)

namespace Check

inductive Node where
  | expr (e : Expr)
  | type (t : TypeNode)
  | statement (s : Statement)

namespace Node

def content : Node → Content
  | expr e => e.content
  | type t => t.content
  | statement s => s.content

/-! ## Parts -/

def ofTypes (types : List TypeNode) : List Node := types.map type

def ofExprs (exprs : List Expr) : List Node := exprs.map expr

def ofStatements (statements : List Statement) : List Node := statements.map statement

def ofMembers (members : List Member) : List Node := members.flatMap fun m => ofTypes m.type.toList

def ofAnnotations (params : List Param) : List Node := params.flatMap fun p => ofTypes p.type.toList

def ofParams (params : List Param) : List Node :=
  params.flatMap fun p => ofTypes p.type.toList ++ ofExprs p.default.toList

def ofDeclarators (decls : List Declarator) : List Node :=
  decls.flatMap fun d => ofTypes d.type.toList ++ ofExprs d.init.toList

def ofBody : FunctionBody → List Node
  | .expr value => ofExprs [value]
  | .block block => ofStatements block.statements

def ofExpr : ExprKind → List Node
  | .object properties => ofExprs (properties.map (·.value))
  | .array items => ofExprs items
  | .member object _ => ofExprs [object]
  | .index object index => ofExprs [object, index]
  | .call callee args => ofExprs (callee :: args)
  | .new callee args => ofExprs (callee :: args)
  | .assign target value _ => ofExprs [target, value]
  | .binary _ left right => ofExprs [left, right]
  | .unary _ operand => ofExprs [operand]
  | .conditional condition thenValue elseValue => ofExprs [condition, thenValue, elseValue]
  | .function params returnType body => ofParams params ++ (ofTypes returnType.toList ++ ofBody body)
  | .cast value annotation => [expr value, type annotation]
  | _ => []

def ofType : TypeKind → List Node
  | .reference _ args => ofTypes args
  | .union members => ofTypes members
  | .intersection members => ofTypes members
  | .array element => ofTypes [element]
  | .tuple elements => ofTypes elements
  | .object members => ofMembers members
  | .function params ret => ofAnnotations params ++ ofTypes [ret]
  | _ => []

def ofExport : ExportKind → List Node
  | .default value => ofExprs [value]
  | .assignment value => ofExprs [value]
  | _ => []

def ofStatement : Statement → List Node
  | .exportDecl d => ofExport d.kind
  | .variableDecl d => ofDeclarators d.declarators
  | .function d =>
    ofParams d.params ++ (ofTypes d.returnType.toList ++ ofStatements ((d.body.map (·.statements)).getD []))
  | .interface d => ofTypes d.bases ++ ofMembers d.members
  | .typeAlias d => ofTypes [d.type]
  | .moduleDecl d => ofStatements (d.body.getD [])
  | .ifElse s => expr s.condition :: ofStatements (s.thenBranch :: s.elseBranch.toList)
  | .block b => ofStatements b.statements
  | .expression e => ofExprs [e]
  | .ret s => ofExprs s.value.toList
  | _ => []

def parts : Node → List Node
  | expr e => ofExpr e.kind
  | type t => ofType t.kind
  | statement s => ofStatement s

/-! ### The number of declarations of a node itself -/

def declaresExpr : ExprKind → Nat
  | .function params _ _ => params.length + 1
  | _ => 0

def declaresExport : ExportKind → Nat
  | .default _ => 1
  | .assignment _ => 1
  | _ => 0

def declaresStatement : Statement → Nat
  | .variableDecl d => d.declarators.length
  | .function d => d.params.length + 1
  | .interface _ => 1
  | .typeAlias _ => 1
  | .exportDecl d => declaresExport d.kind
  | _ => 0

def declares : Node → Nat
  | expr e => declaresExpr e.kind
  | type _ => 0
  | statement s => declaresStatement s

/-- A module is known by its beginning. -/
def module : Node → List Spot
  | statement (.moduleDecl d) => [(.module, ⟨d.span.start, d.span.start + 1⟩)]
  | _ => []

end Node

/-! ## Contents of parts -/

/-- A content consists of the contents of some nodes, with some declarations and modules of its own. -/
structure Gathers (c : Content) (declares : Nat) (modules : List Spot) (nodes : List Node) : Prop where
  height_le : ∀ n ∈ nodes, n.content.height ≤ c.height
  declared_eq : c.declared = declares + (nodes.map (·.content.declared)).sum
  modules_eq : c.modules = modules ++ nodes.flatMap (·.content.modules)

namespace Gathers

variable {c c' : Content} {d d' : Nat} {m : List Spot} {nodes nodes' : List Node}

theorem none : Gathers .none 0 [] [] := ⟨nofun, rfl, rfl⟩

theorem node (n : Node) : Gathers n.content 0 [] [n] := by
  refine ⟨?_, by simp, by simp⟩
  intro n' hn
  obtain rfl := List.mem_singleton.mp hn
  exact Nat.le_refl _

theorem ofSpots {spots : List Spot} (h : ∀ x ∈ spots, x.1 ≠ .module) : Gathers (.ofSpots spots) 0 [] [] := by
  refine ⟨nofun, rfl, ?_⟩
  rw [Content.modules, Content.spots_ofSpots, List.filter_eq_nil_iff.mpr]
  · rfl
  · simpa using h

theorem modules_append (a b : Content) : (a ++ b).modules = a.modules ++ b.modules := by
  simp [Content.modules]

/-- Spots in front that are not about modules. -/
theorem modules_behind {spots : List Spot} (hs : ∀ x ∈ spots, x.1 ≠ .module) (c : Content) :
    (Content.ofSpots spots ++ c).modules = c.modules := by
  rw [modules_append, (ofSpots hs).modules_eq]
  rfl

theorem spots_ne_module (kind : ExprKind) (span : Span) : ∀ x ∈ kind.spots span, x.1 ≠ .module := by
  unfold ExprKind.spots nameSpots
  split
  · simp
  · split <;> simp
  · simp

theorem append (h : Gathers c d m nodes) (h' : Gathers c' d' [] nodes') :
    Gathers (c ++ c') (d + d') m (nodes ++ nodes') where
  height_le n hn := by
    rw [Content.height_append]
    rcases List.mem_append.mp hn with hn | hn
    · exact Nat.le_trans (h.height_le n hn) (Nat.le_max_left _ _)
    · exact Nat.le_trans (h'.height_le n hn) (Nat.le_max_right _ _)
  declared_eq := by
    rw [Content.declared_append, h.declared_eq, h'.declared_eq, List.map_append, List.sum_append]
    omega
  modules_eq := by
    rw [modules_append, h.modules_eq, h'.modules_eq, List.flatMap_append, List.nil_append, List.append_assoc]

theorem declaring (h : Gathers c d m nodes) : Gathers c.declaring (d + 1) m nodes where
  height_le := h.height_le
  declared_eq := by rw [Content.declared_declaring, h.declared_eq, Nat.add_right_comm]
  modules_eq := h.modules_eq

theorem behind (h : Gathers c d [] nodes) {spots : List Spot} (hs : ∀ x ∈ spots, x.1 ≠ .module) :
    Gathers (.ofSpots spots ++ c) d [] nodes := by
  simpa using (ofSpots hs).append h

theorem before (h : Gathers c d [] nodes) {spots : List Spot} (hs : ∀ x ∈ spots, x.1 ≠ .module) :
    Gathers (c ++ .ofSpots spots) d [] nodes := by
  simpa using h.append (ofSpots hs)

/-- The contents of a list, each with as many declarations. -/
theorem list {α : Type} {f : α → Content} {g : α → List Node} {k : Nat} {xs : List α}
    (h : ∀ x ∈ xs, Gathers (f x) k [] (g x)) :
    Gathers (xs.foldr (fun x c => f x ++ c) .none) (xs.length * k) [] (xs.flatMap g) := by
  induction xs with
  | nil => simpa using none
  | cons x xs ih =>
    have first := h x List.mem_cons_self
    have rest := ih fun y hy => h y (List.mem_cons_of_mem x hy)
    simpa [Nat.succ_mul, Nat.add_comm] using first.append rest

theorem row {α : Type} {f : α → Content} {g : α → List Node} {xs : List α}
    (h : ∀ x ∈ xs, Gathers (f x) 0 [] (g x)) :
    Gathers (xs.foldr (fun x c => f x ++ c) .none) 0 [] (xs.flatMap g) :=
  Nat.mul_zero xs.length ▸ list h

/-! ### Lists of nodes -/

theorem types (types : List TypeNode) : Gathers (typesContent types) 0 [] (Node.ofTypes types) := by
  rw [typesContent_eq, Node.ofTypes, List.map_eq_flatMap]
  exact row fun t _ => node (.type t)

theorem exprs (exprs : List Expr) : Gathers (exprsContent exprs) 0 [] (Node.ofExprs exprs) := by
  rw [exprsContent_eq, Node.ofExprs, List.map_eq_flatMap]
  exact row fun e _ => node (.expr e)

theorem statements (statements : List Statement) :
    Gathers (statementsContent statements) 0 [] (Node.ofStatements statements) := by
  rw [statementsContent_eq, Node.ofStatements, List.map_eq_flatMap]
  exact row fun s _ => node (.statement s)

theorem type? (type : Option TypeNode) : Gathers (typeContent? type) 0 [] (Node.ofTypes type.toList) := by
  cases type with
  | none => exact .none
  | some type => exact .node (.type type)

theorem expr? (e : Option Expr) : Gathers (exprContent? e) 0 [] (Node.ofExprs e.toList) := by
  cases e with
  | none => exact .none
  | some e => exact .node (.expr e)

theorem members (members : List Member) : Gathers (membersContent members) 0 [] (Node.ofMembers members) := by
  rw [membersContent_eq, Node.ofMembers]
  exact row fun m _ => type? m.type

theorem annotations (params : List Param) :
    Gathers (annotationsContent params) 0 [] (Node.ofAnnotations params) := by
  rw [annotationsContent_eq, Node.ofAnnotations]
  exact row fun p _ => type? p.type

theorem params (params : List Param) : Gathers (paramsContent params) params.length [] (Node.ofParams params) := by
  rw [paramsContent_eq, Node.ofParams]
  refine Nat.mul_one params.length ▸ list fun p _ => ?_
  cases p
  exact (((type? _).append (expr? _)).behind (by simp)).declaring

theorem declarators (decls : List Declarator) :
    Gathers (declaratorsContent decls) decls.length [] (Node.ofDeclarators decls) := by
  rw [declaratorsContent_eq, Node.ofDeclarators]
  refine Nat.mul_one decls.length ▸ list fun d _ => ?_
  cases d
  refine (((type? _).append (expr? _)).behind ?_).declaring
  unfold declaratorSpots
  split <;> simp

theorem args (args : List Expr) : Gathers (argsContent args) 0 [] (Node.ofExprs args) := by
  induction args with
  | nil => exact .none
  | cons e rest ih => exact ((node (.expr e)).behind (by simp)).append ih

/-- Where nothing is asked of its value, an expression has the same parts. -/
theorem bare (e : Expr) : Gathers e.bareContent 0 [] [.expr e] where
  height_le n hn := by
    obtain rfl := List.mem_singleton.mp hn
    simp [Node.content, e.bareContent_eq, e.content_eq]
  declared_eq := by simp [Node.content, e.bareContent_eq, e.content_eq]
  modules_eq := by
    have hbare : ∀ x ∈ e.kind.bareSpots e.span, x.1 ≠ .module :=
      fun x hx => spots_ne_module e.kind e.span x ((e.kind.bareSpots_sublist e.span).subset hx)
    have hmodules : e.bareContent.modules = e.content.modules := by
      rw [e.bareContent_eq, e.content_eq]
      exact (modules_behind hbare _).trans (modules_behind (spots_ne_module e.kind e.span) _).symm
    simpa [Node.content] using hmodules

theorem properties (properties : List Property) :
    Gathers (propertiesContent properties) 0 [] (Node.ofExprs (properties.map (·.value))) := by
  rw [propertiesContent_eq, Node.ofExprs, List.map_map, List.map_eq_flatMap]
  refine row fun p _ => ?_
  cases p
  exact (bare _).behind (by simp)

theorem body (body : FunctionBody) : Gathers body.content 0 [] (Node.ofBody body) := by
  cases body with
  | expr value => exact node (.expr value)
  | block block =>
    rw [FunctionBody.content_block]
    exact statements block.statements

/-! ### Nodes -/

theorem exprKind (kind : ExprKind) : Gathers kind.content (Node.declaresExpr kind) [] (Node.ofExpr kind) := by
  cases kind with
  | object ps => exact properties ps
  | array items => exact exprs items
  | member object property => exact (node (.expr object)).before (by simp)
  | index object index => exact (node (.expr object)).append (node (.expr index))
  | call callee arguments => exact (node (.expr callee)).append (args arguments)
  | new callee arguments => exact (bare callee).append (exprs arguments)
  | assign target value => exact (node (.expr target)).append (node (.expr value))
  | binary op left right => exact (node (.expr left)).append (node (.expr right))
  | unary op operand => exact node (.expr operand)
  | conditional condition thenValue elseValue =>
    exact (node (.expr condition)).append ((node (.expr thenValue)).append (node (.expr elseValue)))
  | function ps returnType b =>
    exact Gathers.declaring ((params ps).append ((type? returnType).append (body b)))
  | cast value annotation => exact (node (.expr value)).append (node (.type annotation))
  | _ => exact .none

theorem typeKind (kind : TypeKind) : Gathers kind.content 0 [] (Node.ofType kind) := by
  have head (name : List Ident) : ∀ x ∈ headSpots name, x.1 ≠ .module := by
    cases name <;> simp [headSpots]
  cases kind with
  | reference name args => exact (types args).behind (head name)
  | union members => exact types members
  | intersection members => exact types members
  | array element => exact node (.type element)
  | tuple elements => exact types elements
  | object ms => exact members ms
  | function params ret => exact (annotations params).append (node (.type ret))
  | typeof name => exact ofSpots (head name)
  | _ => exact .none

theorem exportKind (kind : ExportKind) : Gathers kind.content (Node.declaresExport kind) [] (Node.ofExport kind) := by
  cases kind with
  | default value => exact (node (.expr value)).declaring
  | assignment value => exact (node (.expr value)).declaring
  | named specifiers source =>
    cases source with
    | none => exact ofSpots (by simp)
    | some source => exact ofSpots (by simp)
  | star newName source => exact ofSpots (by simp)

/-- The content of a statement, from inside. -/
theorem statement (s : Statement) : ∃ c : Content, s.content = c.inside ∧
    Gathers c (Node.declaresStatement s) (Node.statement s).module (Node.ofStatement s) := by
  cases s with
  | importDecl decl => exact ⟨_, rfl, ofSpots (by simp [ImportDecl.spots])⟩
  | importEquals decl => exact ⟨_, rfl, ofSpots (by simp)⟩
  | exportDecl decl =>
    cases decl
    exact ⟨_, rfl, exportKind _⟩
  | variableDecl d =>
    cases d
    exact ⟨_, rfl, declarators _⟩
  | function d =>
    obtain ⟨modifiers, name, typeParams, ps, returnType, body, span⟩ := d
    have hbody : Gathers (blockContent? body) 0 [] (Node.ofStatements ((body.map (·.statements)).getD [])) := by
      cases body with
      | none => exact .none
      | some block =>
        rw [blockContent?_some]
        exact statements block.statements
    exact ⟨_, rfl, Gathers.declaring ((params ps).append ((type? returnType).append hbody))⟩
  | interface d =>
    cases d
    exact ⟨_, rfl, ((types _).append (members _)).declaring⟩
  | typeAlias d =>
    cases d
    exact ⟨_, rfl, (node (.type _)).declaring⟩
  | moduleDecl d =>
    obtain ⟨modifiers, name, body, span⟩ := d
    have hbody : Gathers (statementsContent? body) 0 [] (Node.ofStatements (body.getD [])) := by
      cases body with
      | none => exact .none
      | some body => exact statements body
    have hown : Gathers (.ofSpots [(.module, ⟨span.start, span.start + 1⟩)]) 0
        [(.module, ⟨span.start, span.start + 1⟩)] [] := ⟨nofun, rfl, rfl⟩
    exact ⟨_, rfl, hown.append hbody⟩
  | ifElse s =>
    obtain ⟨condition, thenBranch, elseBranch, span⟩ := s
    have helse : Gathers (statementContent? elseBranch) 0 [] (Node.ofStatements elseBranch.toList) := by
      cases elseBranch with
      | none => exact .none
      | some s => exact node (.statement s)
    exact ⟨_, rfl, (node (.expr condition)).append ((node (.statement thenBranch)).append helse)⟩
  | block b =>
    cases b
    exact ⟨_, rfl, statements _⟩
  | expression e => exact ⟨_, rfl, node (.expr e)⟩
  | ret s =>
    cases s
    exact ⟨_, rfl, expr? _⟩
  | empty | error => exact ⟨_, rfl, .none⟩

end Gathers

namespace Node

/-- The content of a node, from inside. -/
theorem gathers (n : Node) : ∃ c : Content, n.content = c.inside ∧ Gathers c n.declares n.module n.parts := by
  cases n with
  | expr e => exact ⟨_, e.content_eq, (Gathers.exprKind e.kind).behind (Gathers.spots_ne_module e.kind e.span)⟩
  | type t => exact ⟨_, t.content_eq, .typeKind t.kind⟩
  | statement s => exact Gathers.statement s

variable {n m : Node}

/-- A part is lower than the node. -/
theorem height_lt (h : m ∈ n.parts) : m.content.height < n.content.height := by
  obtain ⟨c, hcontent, hc⟩ := n.gathers
  rw [hcontent]
  exact Nat.lt_succ_of_le (hc.height_le m h)

theorem height_pos (n : Node) : 0 < n.content.height := by
  obtain ⟨c, hcontent, -⟩ := n.gathers
  rw [hcontent]
  exact Nat.succ_pos c.height

theorem declared_eq (n : Node) : n.content.declared = n.declares + (n.parts.map (·.content.declared)).sum := by
  obtain ⟨c, hcontent, hc⟩ := n.gathers
  rw [hcontent]
  exact hc.declared_eq

theorem modules_eq (n : Node) : n.content.modules = n.module ++ n.parts.flatMap (·.content.modules) := by
  obtain ⟨c, hcontent, hc⟩ := n.gathers
  rw [hcontent]
  exact hc.modules_eq

end Node

end Check

end Recheck
