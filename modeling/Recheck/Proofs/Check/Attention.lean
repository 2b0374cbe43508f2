import Recheck.Proofs.Check.Asking
import Recheck.Proofs.Check.Sizes

/-!
# What a rule looks into

The rule for a node looks up the names that the node refers to, and has every part of the node judged where the parts stand
(`attends_rule`). Only where a part is a name, and the rule has looked it up for itself, the part need not be judged. A part
of a check is followed with the nodes that it still owes a judgement (`Attends`). A way that comes to the use of a certain
import, the target, is followed no further, and if a name is looked up that leads to the target, every way comes to its use.
-/

set_option autoImplicit false

namespace Recheck.Check

open Syntax

/-! ## Names of nodes -/

/-- The first part of a dotted name. -/
def headName : List Ident → List String
  | [] => []
  | first :: _ => [first.name]

/-- The name that an expression is, if it is one. -/
def identName (e : Expr) : List String :=
  match e.kind with
  | .ident name => [name]
  | _ => []

/-- The names in a list of local exports. -/
def exportedNames : ExportKind → List String
  | .named specifiers none => specifiers.map (·.localName.name)
  | _ => []

namespace Node

/-- The names that a node refers to by itself: it is a name, a type begins with it, or a list of exports holds it. -/
def refers : Node → List String
  | expr e => identName e
  | type t =>
    match t.kind with
    | .reference name _ => headName name
    | .typeof name => headName name
    | _ => []
  | statement s =>
    match s with
    | .exportDecl d => exportedNames d.kind
    | _ => []

/-- An expression, unless it is a name. -/
def ofComposed (e : Expr) : List Node :=
  match e.kind with
  | .ident _ => []
  | _ => ofExprs [e]

def looksExport : ExportKind → List String
  | .default value => identName value
  | .assignment value => identName value
  | kind => exportedNames kind

/-- The names that the rule for a node looks up: those that the node refers to, and parts of it that are names. -/
def looks : Node → List String
  | expr e =>
    match e.kind with
    | .member object _ => identName object
    | _ => identName e
  | statement (.exportDecl d) => looksExport d.kind
  | n => n.refers

def visitsExpr : ExprKind → List Node
  | .member object _ => ofComposed object
  | kind => ofExpr kind

def visitsExport : ExportKind → List Node
  | .default value => ofComposed value
  | .assignment value => ofComposed value
  | _ => []

/-- The parts of a node that its rule has judged. -/
def visits : Node → List Node
  | expr e => visitsExpr e.kind
  | statement (.exportDecl d) => visitsExport d.kind
  | n => n.parts

variable {n m : Node} {name : String}

theorem mem_ofComposed {e : Expr} : expr e ∈ ofComposed e ∨ ∃ name, e.kind = .ident name ∧ identName e = [name] := by
  unfold ofComposed identName
  cases e.kind with
  | ident name => exact .inr ⟨name, rfl, rfl⟩
  | _ => exact .inl List.mem_cons_self

theorem refers_subset_looks (n : Node) : n.refers ⊆ n.looks := by
  cases n with
  | expr e =>
    obtain ⟨kind, span⟩ := e
    cases kind with
    | member => exact nofun
    | _ => exact fun _ h => h
  | type => exact fun _ h => h
  | statement s =>
    cases s with
    | exportDecl d =>
      obtain ⟨kind, span⟩ := d
      cases kind with
      | default | assignment => exact nofun
      | _ => exact fun _ h => h
    | _ => exact fun _ h => h

/-- A part of a node is judged, or it is a name that the rule looks up. -/
theorem visits_or_looks (h : m ∈ n.parts) : m ∈ n.visits ∨ ∃ name span, m = expr ⟨.ident name, span⟩ ∧ name ∈ n.looks := by
  have composed {e : Expr} (h : m = expr e) (hvisits : ofComposed e ⊆ n.visits) (hlooks : identName e ⊆ n.looks) :
      m ∈ n.visits ∨ ∃ name span, m = expr ⟨.ident name, span⟩ ∧ name ∈ n.looks := by
    rcases mem_ofComposed (e := e) with hmem | ⟨name, hkind, hname⟩
    · exact .inl (hvisits (h ▸ hmem))
    · obtain ⟨kind, span⟩ := e
      obtain rfl : kind = .ident name := hkind
      exact .inr ⟨name, span, h, hlooks List.mem_cons_self⟩
  cases n with
  | expr e =>
    obtain ⟨kind, span⟩ := e
    cases kind with
    | member object property => exact composed (List.mem_singleton.mp h) (List.Subset.refl _) (List.Subset.refl _)
    | _ => exact .inl h
  | type => exact .inl h
  | statement s =>
    cases s with
    | exportDecl d =>
      obtain ⟨kind, span⟩ := d
      cases kind with
      | default value | assignment value =>
        exact composed (List.mem_singleton.mp h) (List.Subset.refl _) (List.Subset.refl _)
      | _ => exact nomatch h
    | _ => exact .inl h

end Node

/-! ## Following a check -/

/-- The question is for a judgement that looks at the node itself. -/
def Judgement.looksInto : Judgement → Prop
  | .returns .. => False
  | _ => True

/-- What is known while a rule is followed: where the parts of the node stand and its names are looked up, which names these
are, which bindings the rule can meet, and which names certainly lead to the target. -/
structure Lookout where
  site : Site
  names : List String
  known : Bindings → Prop
  marked : String → Prop
  target : ImportBinding
  finds : ∀ b name, known b → marked name →
    b.lookupValue site.scope name = some (.imported target) ∧ b.lookupType site.scope name = some (.imported target)

namespace Lookout

variable (o : Lookout)

/-- A name can be found to stand for an import. -/
def Leads (name : String) (binding : ImportBinding) : Prop :=
  ∃ b, o.known b ∧ (b.lookupValue o.site.scope name = some (.imported binding) ∨
    b.lookupType o.site.scope name = some (.imported binding))

/-- What an answer says. -/
def Answered : (q : Question) → q.Answer → Prop
  | .bindings, found => o.known found
  | .isQuiet, quiet => quiet = false
  | _, _ => True

/-- What is owed before and after a question. -/
def Takes (todo rest : List Node) : Question → Prop
  | .judge j => j.looksInto ∧ j.item.site = o.site ∧
    (todo = j.item.node :: rest ∨ todo = rest ∧ ∃ name ∈ o.names, ∃ span, j.item.node = .expr ⟨.ident name, span⟩)
  | .use binding => todo = rest ∧ ∃ name ∈ o.names, o.Leads name binding
  | _ => todo = rest

end Lookout

/-- A part of a check, unless it comes to the use of the target, has the nodes judged that it owes a judgement. If it is to
come to the use of the target, it does. -/
def Attends (o : Lookout) (hit : Prop) {α : Type} : List Node → CheckM α → Prop
  | todo, .done _ => todo = [] ∧ ¬hit
  | todo, .ask q next => ∃ rest, o.Takes todo rest q ∧
    (q = .use o.target ∨ ∀ answer, o.Answered q answer → Attends o hit rest (next answer))

/-- A part of a check that has nothing judged. -/
abbrev Aside (o : Lookout) {α : Type} (c : CheckM α) : Prop := Attends o False [] c

section

variable {o : Lookout} {p p' p'' : Prop} {α β : Type} {todo todo' : List Node}

theorem Lookout.Takes.append {rest : List Node} {q : Question} (h : o.Takes todo rest q) (more : List Node) :
    o.Takes (todo ++ more) (rest ++ more) q := by
  cases q with
  | judge j =>
    obtain ⟨hlooks, hsite, rfl | ⟨rfl, hname⟩⟩ := h
    · exact ⟨hlooks, hsite, .inl rfl⟩
    · exact ⟨hlooks, hsite, .inr ⟨rfl, hname⟩⟩
  | use binding => exact ⟨congrArg (· ++ more) h.1, h.2⟩
  | _ => exact congrArg (· ++ more) h

namespace Attends

theorem imp {c : CheckM α} (hc : Attends o p todo c) (h : p' → p) : Attends o p' todo c := by
  induction c generalizing todo with
  | done => exact ⟨hc.1, mt h hc.2⟩
  | ask q next ih =>
    obtain ⟨rest, htakes, hnext⟩ := hc
    exact ⟨rest, htakes, hnext.imp_right fun hnext answer hanswer => ih answer (hnext answer hanswer)⟩

theorem bind {t : List Node} {c : CheckM α} {f : α → CheckM β} (hc : Attends o p todo c) (hf : ∀ a, ¬p → Attends o p' t (f a))
    (h : p'' → p ∨ p') : Attends o p'' (todo ++ t) (c >>= f) := by
  induction c generalizing todo with
  | done a =>
    obtain ⟨rfl, hp⟩ := hc
    exact (hf a hp).imp fun hp'' => (h hp'').resolve_left hp
  | ask q next ih =>
    obtain ⟨rest, htakes, hnext⟩ := hc
    exact ⟨rest ++ t, htakes.append t, hnext.imp_right fun hnext answer hanswer => ih answer (hnext answer hanswer)⟩

/-- Where nothing is owed behind the first part. -/
theorem bind_aside {c : CheckM α} {f : α → CheckM β} (hc : Attends o p todo c) (hf : ∀ a, ¬p → Aside o (f a)) :
    Attends o p todo (c >>= f) := by
  simpa using hc.bind hf .inl

/-- Where the first part owes nothing. -/
theorem after {c : CheckM α} {f : α → CheckM β} (hc : Aside o c) (hf : ∀ a, Attends o p todo (f a)) :
    Attends o p todo (c >>= f) :=
  hc.bind (fun a _ => hf a) .inr

theorem andThen {t : List Node} {c : CheckM α} {f : α → CheckM β} (hc : Attends o False todo c)
    (hf : ∀ a, Attends o False t (f a)) : Attends o False (todo ++ t) (c >>= f) :=
  hc.bind (fun a _ => hf a) .inr

theorem pure (a : α) : Aside o (Pure.pure a) := ⟨rfl, id⟩

theorem discard {c : CheckM α} (hc : Attends o p todo c) : Attends o p todo (Functor.discard c) :=
  hc.bind_aside fun _ _ => pure ()

/-- Where no name is looked up. -/
theorem nameless {names : List String} {c : CheckM α} (hnames : names = []) (hc : Attends o False todo c) :
    Attends o (∃ name ∈ names, o.marked name) todo c :=
  hc.imp fun ⟨_, hname, _⟩ => nomatch hnames ▸ hname

/-- Where a single name is looked up. -/
theorem named {name : String} {c : CheckM α} (hc : Attends o (o.marked name) todo c) :
    Attends o (∃ part ∈ [name], o.marked part) todo c :=
  hc.imp fun ⟨_, hpart, hmarked⟩ => List.mem_singleton.mp hpart ▸ hmarked

/-! ### Lists -/

variable {ι σ : Type} {xs : List ι} {owed : ι → List Node}

theorem forM {f : ι → CheckM Unit} (hf : ∀ x ∈ xs, Attends o False (owed x) (f x)) :
    Attends o False (xs.flatMap owed) (xs.forM f) := by
  induction xs with
  | nil => exact pure ()
  | cons x xs ih =>
    rw [List.flatMap_cons]
    exact (hf x List.mem_cons_self).andThen fun _ => ih fun y hy => hf y (List.mem_cons_of_mem x hy)

theorem mapM {f : ι → CheckM β} (hf : ∀ x ∈ xs, Attends o False (owed x) (f x)) :
    Attends o False (xs.flatMap owed) (xs.mapM f) := by
  unfold List.mapM
  suffices ∀ done, Attends o False (xs.flatMap owed) (List.mapM.loop f xs done) from this []
  induction xs with
  | nil => exact fun done => pure done.reverse
  | cons x xs ih =>
    intro done
    rw [List.flatMap_cons]
    exact (hf x List.mem_cons_self).andThen fun y => ih (fun z hz => hf z (List.mem_cons_of_mem x hz)) (y :: done)

theorem foldlM {f : σ → ι → CheckM σ} {s : σ} (hf : ∀ x ∈ xs, ∀ s, Attends o False (owed x) (f s x)) :
    Attends o False (xs.flatMap owed) (xs.foldlM f s) := by
  induction xs generalizing s with
  | nil => exact pure s
  | cons x xs ih =>
    rw [List.flatMap_cons]
    exact (hf x List.mem_cons_self s).andThen fun _ => ih fun y hy => hf y (List.mem_cons_of_mem x hy)

theorem optionMapM {x? : Option ι} {f : ι → CheckM β} (hf : ∀ x, Attends o False (owed x) (f x)) :
    Attends o False (x?.toList.flatMap owed) (x?.mapM f) := by
  cases x? with
  | none => exact pure none
  | some x =>
    rw [Option.toList_some, List.flatMap_singleton]
    exact (hf x).bind_aside fun y _ => pure (some y)

end Attends

/-! ### Simple questions -/

theorem attends_exprType (e : Expr) (expected : Option Ty) : Attends o False [.expr e] (exprType e o.site expected) :=
  ⟨[], ⟨trivial, rfl, .inl rfl⟩, .inr fun type _ => .pure type⟩

/-- A name that is looked up anyway may be judged as well. -/
theorem attends_composed (e : Expr) (expected : Option Ty) (h : identName e ⊆ o.names) :
    Attends o False (Node.ofComposed e) (exprType e o.site expected) := by
  obtain ⟨kind, span⟩ := e
  cases kind with
  | ident name => exact ⟨[], ⟨trivial, rfl, .inr ⟨rfl, name, h List.mem_cons_self, span, rfl⟩⟩, .inr fun type _ => .pure type⟩
  | _ => exact attends_exprType _ expected

theorem attends_typeMeaning (t : TypeNode) : Attends o False [.type t] (typeMeaning t o.site) :=
  ⟨[], ⟨trivial, rfl, .inl rfl⟩, .inr fun type _ => .pure type⟩

theorem attends_checkStatement (s : Statement) (result : Option Ty) :
    Attends o False [.statement s] (checkStatement s o.site result) :=
  ⟨[], ⟨trivial, rfl, .inl rfl⟩, .inr fun _ _ => .pure ()⟩

theorem aside_declared (d : Declaration) : Aside o (declared d) := ⟨[], rfl, .inr fun type _ => .pure type⟩

theorem aside_report (fault : Fault) (span : Span) : Aside o (report fault span) := ⟨[], rfl, .inr fun _ _ => .pure ()⟩

theorem attends_bindings {f : Bindings → CheckM α} (hf : ∀ b, o.known b → Attends o p todo (f b)) :
    Attends o p todo (bindings >>= f) := ⟨todo, rfl, .inr hf⟩

theorem aside_options : Aside o options := attends_bindings fun b _ => .pure b.program.options

theorem attends_loud {f : Bool → CheckM α} (hf : Attends o p todo (f false)) : Attends o p todo (isQuiet >>= f) :=
  ⟨todo, rfl, .inr fun _ hquiet => hquiet ▸ hf⟩

/-! ## Names -/

theorem attends_lookupValue {name : String} (hname : name ∈ o.names) :
    Attends o (o.marked name) [] (lookupValue o.site.scope name) := by
  unfold lookupValue
  refine attends_bindings fun b hb => ?_
  have hfinds (hmarked : o.marked name) := (o.finds b name hb hmarked).1
  cases hfound : b.lookupValue o.site.scope name with
  | none => exact ⟨rfl, fun hmarked => nomatch hfound.symm.trans (hfinds hmarked)⟩
  | some symbol =>
    cases symbol with
    | imported binding =>
      refine ⟨[], ⟨rfl, name, hname, b, hb, .inl hfound⟩, ?_⟩
      by_cases htarget : binding = o.target
      · exact .inl (htarget ▸ rfl)
      · refine .inr fun _ _ => ⟨rfl, fun hmarked => htarget ?_⟩
        exact ValueSymbol.imported.inj (Option.some.inj (hfound.symm.trans (hfinds hmarked)))
    | _ => exact ⟨rfl, fun hmarked => nomatch hfound.symm.trans (hfinds hmarked)⟩

theorem attends_lookupType {name : String} (hname : name ∈ o.names) :
    Attends o (o.marked name) [] (lookupType o.site.scope name) := by
  unfold lookupType
  refine attends_bindings fun b hb => ?_
  have hfinds (hmarked : o.marked name) := (o.finds b name hb hmarked).2
  cases hfound : b.lookupType o.site.scope name with
  | none => exact ⟨rfl, fun hmarked => nomatch hfound.symm.trans (hfinds hmarked)⟩
  | some symbol =>
    cases symbol with
    | imported binding =>
      refine ⟨[], ⟨rfl, name, hname, b, hb, .inr hfound⟩, ?_⟩
      by_cases htarget : binding = o.target
      · exact .inl (htarget ▸ rfl)
      · refine .inr fun _ _ => ⟨rfl, fun hmarked => htarget ?_⟩
        exact TypeSymbol.imported.inj (Option.some.inj (hfound.symm.trans (hfinds hmarked)))
    | _ => exact ⟨rfl, fun hmarked => nomatch hfound.symm.trans (hfinds hmarked)⟩

theorem aside_resolveValue (symbol : ValueSymbol) : Aside o (resolveValue symbol) := attends_bindings fun _ _ => .pure _

theorem aside_resolveTypeSymbol (symbol : TypeSymbol) : Aside o (resolveTypeSymbol symbol) :=
  attends_bindings fun _ _ => .pure _

theorem aside_declaredValueType (symbol : ValueSymbol) : Aside o (declaredValueType symbol) := by
  unfold declaredValueType
  split <;> first | exact aside_declared _ | exact .pure _

theorem aside_valueType (symbol : ValueSymbol) : Aside o (valueType symbol) := by
  unfold valueType
  split
  · refine (aside_resolveValue _).after fun found => ?_
    split
    · exact aside_declaredValueType _
    · exact .pure _
  · exact aside_declaredValueType _

theorem aside_declaredType (symbol : TypeSymbol) (args : List Ty) : Aside o (declaredType symbol args) := by
  unfold declaredType
  split
  · refine attends_bindings fun _ _ => ?_
    split
    · exact .pure _
    · exact aside_declared _
  · exact aside_declared _
  all_goals exact .pure _

theorem aside_symbolType (symbol : TypeSymbol) (args : List Ty) : Aside o (symbolType symbol args) := by
  unfold symbolType
  split
  · refine (aside_resolveTypeSymbol _).after fun found => ?_
    split
    · exact aside_declaredType _ _
    · exact .pure _
  · exact aside_declaredType _ _

end

end Recheck.Check
