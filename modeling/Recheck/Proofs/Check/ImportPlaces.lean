import Mathlib.Data.List.Flatten
import Recheck.Proofs.Check.Imported
import Recheck.Proofs.Syntax.Spans.Text

/-!
# Where imports are written

No two names are imported at one place of a text without faults: two statements lie one behind the other, with all that is
inside them, and in one statement each name is a token of its own.
-/

set_option autoImplicit false

namespace Recheck

open Syntax Check

/-! ## Pieces inside of pieces -/

namespace Syntax

variable {T : List Token} {outer : Span} {p q r : Piece}

theorem Piece.Contains.trans (h : p.Contains q) (h' : q.Contains r) : p.Contains r := by
  induction h with
  | self => exact h'
  | part hpart _ ih => exact .part hpart (ih h')

theorem Piece.Contains.of_mem (h : q ∈ p.parts) : p.Contains q := .part h (.self q)

/-- What is inside a piece, at any depth, lies inside its span. -/
theorem Sound.encloses (h : Sound T 0 outer p) (hq : p.Contains q) : p.span.Encloses q.span ∧ q.span.start < q.span.stop := by
  induction hq generalizing outer with
  | self => exact ⟨.refl _, (h.inside rfl).2⟩
  | part hpart _ ih =>
    have hsound := h.parts _ hpart
    obtain ⟨hencloses, hpos⟩ := ih hsound
    exact ⟨(hsound.inside rfl).1.trans hencloses, hpos⟩

end Syntax

namespace Check.Node

variable {n m : Node} {p : Piece}

def piece : Node → Piece
  | expr e => .expr e
  | type t => .type t
  | statement s => .statement s

theorem contains_types {types : List TypeNode} (h : ∀ t ∈ types, p.Contains (.type t)) (hm : m ∈ ofTypes types) :
    p.Contains m.piece := by
  obtain ⟨t, ht, rfl⟩ := List.mem_map.mp hm
  exact h t ht

theorem contains_exprs {exprs : List Expr} (h : ∀ e ∈ exprs, p.Contains (.expr e)) (hm : m ∈ ofExprs exprs) :
    p.Contains m.piece := by
  obtain ⟨e, he, rfl⟩ := List.mem_map.mp hm
  exact h e he

theorem contains_statements {statements : List Statement} (h : ∀ s ∈ statements, p.Contains (.statement s))
    (hm : m ∈ ofStatements statements) : p.Contains m.piece := by
  obtain ⟨s, hs, rfl⟩ := List.mem_map.mp hm
  exact h s hs

theorem contains_params {params : List Param} (h : ∀ q ∈ params, p.Contains (.param q)) (hm : m ∈ ofParams params) :
    p.Contains m.piece := by
  obtain ⟨q, hq, hm⟩ := List.mem_flatMap.mp hm
  refine (h q hq).trans ?_
  rcases List.mem_append.mp hm with hm | hm
  · exact contains_types (fun t ht => .of_mem (by simp_all [Piece.parts])) hm
  · exact contains_exprs (fun e he => .of_mem (by simp_all [Piece.parts])) hm

theorem contains_annotations {params : List Param} (h : ∀ q ∈ params, p.Contains (.param q)) (hm : m ∈ ofAnnotations params) :
    p.Contains m.piece := by
  obtain ⟨q, hq, hm⟩ := List.mem_flatMap.mp hm
  exact contains_params h (List.mem_flatMap.mpr ⟨q, hq, List.mem_append_left _ hm⟩)

theorem contains_members {members : List Member} (h : ∀ q ∈ members, p.Contains (.member q)) (hm : m ∈ ofMembers members) :
    p.Contains m.piece := by
  obtain ⟨q, hq, hm⟩ := List.mem_flatMap.mp hm
  exact (h q hq).trans (contains_types (fun t ht => .of_mem (by simp_all [Piece.parts])) hm)

theorem contains_declarators {decls : List Declarator} (h : ∀ q ∈ decls, p.Contains (.declarator q)) (hm : m ∈ ofDeclarators decls) :
    p.Contains m.piece := by
  obtain ⟨q, hq, hm⟩ := List.mem_flatMap.mp hm
  refine (h q hq).trans ?_
  rcases List.mem_append.mp hm with hm | hm
  · exact contains_types (fun t ht => .of_mem (by simp_all [Piece.parts])) hm
  · exact contains_exprs (fun e he => .of_mem (by simp_all [Piece.parts])) hm

theorem contains_body {body : FunctionBody} (h : ∀ q ∈ Piece.ofBody body, p.Contains q) (hm : m ∈ ofBody body) :
    p.Contains m.piece := by
  cases body with
  | expr value => exact contains_exprs (fun e he => List.mem_singleton.mp he ▸ h _ List.mem_cons_self) hm
  | block block =>
    refine (h _ List.mem_cons_self).trans (contains_statements (fun s hs => .of_mem ?_) hm)
    exact List.mem_map_of_mem hs

/-- The parts of a node are inside of it. -/
theorem contains_part (h : m ∈ n.parts) : n.piece.Contains m.piece := by
  cases n with
  | expr e =>
    obtain ⟨kind, span⟩ := e
    have part {q : Piece} (hq : q ∈ Piece.ofExpr kind) : (Piece.expr ⟨kind, span⟩).Contains q := .of_mem hq
    cases kind with
    | object properties =>
      refine contains_exprs (fun e he => ?_) h
      obtain ⟨property, hproperty, rfl⟩ := List.mem_map.mp he
      exact (part (List.mem_map_of_mem hproperty)).trans (.of_mem (List.mem_cons_of_mem _ List.mem_cons_self))
    | function params returnType body =>
      rcases List.mem_append.mp h with h | h
      · exact contains_params (fun q hq => part (by simp [Piece.ofExpr, hq])) h
      · rcases List.mem_append.mp h with h | h
        · exact contains_types (fun t ht => part (by simp_all [Piece.ofExpr])) h
        · exact contains_body (fun q hq => part (by simp [Piece.ofExpr, hq])) h
    | cast value annotation =>
      simp only [parts, ofExpr, List.mem_cons, List.not_mem_nil, or_false] at h
      rcases h with rfl | rfl <;> exact part (by simp [Piece.ofExpr, piece])
    | array | member | index | call | new | assign | binary | unary | conditional =>
      exact contains_exprs (fun e he => part (by simp_all [Piece.ofExpr])) h
    | _ => cases h
  | type t =>
    obtain ⟨kind, span⟩ := t
    have part {q : Piece} (hq : q ∈ Piece.ofType kind) : (Piece.type ⟨kind, span⟩).Contains q := .of_mem hq
    cases kind with
    | object members => exact contains_members (fun q hq => part (List.mem_map_of_mem hq)) h
    | function params ret =>
      rcases List.mem_append.mp h with h | h
      · exact contains_annotations (fun q hq => part (by simp [Piece.ofType, hq])) h
      · exact contains_types (fun t ht => part (by simp_all [Piece.ofType])) h
    | reference | union | intersection | array | tuple =>
      exact contains_types (fun t ht => part (by simp_all [Piece.ofType])) h
    | _ => cases h
  | statement s =>
    have part {q : Piece} (hq : q ∈ Piece.ofStatement s) : (Piece.statement s).Contains q := .of_mem hq
    cases s with
    | exportDecl d =>
      obtain ⟨kind, span⟩ := d
      cases kind with
      | default | assignment => exact contains_exprs (fun e he => part (by simp_all [Piece.ofStatement, Piece.ofExportKind])) h
      | _ => cases h
    | variableDecl d => exact contains_declarators (fun q hq => part (by simp [Piece.ofStatement, hq])) h
    | function d =>
      rcases List.mem_append.mp h with h | h
      · exact contains_params (fun q hq => part (by simp [Piece.ofStatement, hq])) h
      · rcases List.mem_append.mp h with h | h
        · exact contains_types (fun t ht => part (by simp_all [Piece.ofStatement])) h
        · cases hbody : d.body with
          | none =>
            rw [hbody] at h
            cases h
          | some block =>
            rw [hbody] at h
            refine (part (q := .block block) (by simp [Piece.ofStatement, hbody])).trans ?_
            exact contains_statements (fun s hs => .of_mem (List.mem_map_of_mem hs)) h
    | interface d =>
      rcases List.mem_append.mp h with h | h
      · exact contains_types (fun t ht => part (by simp [Piece.ofStatement, ht])) h
      · exact contains_members (fun q hq => part (by simp [Piece.ofStatement, hq])) h
    | typeAlias d => exact contains_types (fun t ht => part (by simp_all [Piece.ofStatement])) h
    | moduleDecl d => exact contains_statements (fun s hs => part (by simp_all [Piece.ofStatement])) h
    | ifElse d =>
      rcases List.mem_cons.mp h with rfl | h
      · exact part List.mem_cons_self
      · exact contains_statements (fun s hs => part (by simp_all [Piece.ofStatement])) h
    | block b =>
      refine (part (q := .block b) List.mem_cons_self).trans ?_
      exact contains_statements (fun s hs => .of_mem (List.mem_map_of_mem hs)) h
    | expression | ret => exact contains_exprs (fun e he => part (by simp_all [Piece.ofStatement])) h
    | _ => cases h

theorem Contains.piece (h : n.Contains m) : n.piece.Contains m.piece := by
  induction h with
  | self => exact .self _
  | part hpart _ ih => exact (contains_part hpart).trans ih

/-- The names that a node imports are inside of it. -/
theorem contains_import {id : Ident} (h : id ∈ n.imports) : n.piece.Contains (.ident id) := by
  cases n with
  | expr | type => cases h
  | statement s =>
    cases s with
    | importDecl d =>
      refine .of_mem ?_
      simp only [imports, ImportDecl.localNames, List.mem_append] at h
      rcases h with h | h
      · exact List.mem_append_left _ (List.mem_append_left _ (List.mem_map_of_mem (List.mem_append.mpr h)))
      · obtain ⟨specifier, hspecifier, rfl⟩ := List.mem_map.mp h
        have hname : Piece.ident specifier.localName ∈ Piece.ofImport specifier := by
          unfold ImportSpecifier.localName Piece.ofImport
          cases specifier.newName <;> simp
        refine List.mem_append_left _ (List.mem_append_right _ (List.mem_flatMap.mpr ⟨specifier, hspecifier, hname⟩))
    | importEquals d =>
      obtain rfl := List.mem_singleton.mp h
      exact .of_mem List.mem_cons_self
    | _ => cases h

end Check.Node

namespace Check.Node

variable {n m : Node} {name : String}

/-- The nodes in a node, down to some depth. -/
def below : Nat → Node → List Node
  | 0, n => [n]
  | depth + 1, n => n :: n.parts.flatMap (below depth)

theorem contains_iff : n.Contains m ↔ m ∈ n.below n.content.height := by
  constructor
  · intro h
    suffices ∀ depth, n.content.height ≤ depth → m ∈ n.below depth from this _ (Nat.le_refl _)
    induction h with
    | self n =>
      intro depth _
      cases depth <;> exact List.mem_cons_self
    | part hpart _ ih =>
      intro depth hdepth
      have hlt := height_lt hpart
      cases depth with
      | zero => omega
      | succ depth => exact List.mem_cons_of_mem _ (List.mem_flatMap.mpr ⟨_, hpart, ih depth (by omega)⟩)
  · generalize n.content.height = depth
    intro h
    induction depth generalizing n with
    | zero => exact List.mem_singleton.mp h ▸ .self n
    | succ depth ih =>
      rcases List.mem_cons.mp h with rfl | h
      · exact .self m
      · obtain ⟨k, hk, h⟩ := List.mem_flatMap.mp h
        exact .part hk (ih h)

/-- The name is declared somewhere in a node. -/
def Declares (name : String) (n : Node) : Prop := ∃ m, n.Contains m ∧ name ∈ m.names

instance (name : String) (n : Node) : Decidable (n.Declares name) :=
  decidable_of_iff (∃ m ∈ n.below n.content.height, name ∈ m.names) (exists_congr fun _ => and_congr_left' contains_iff.symm)

theorem mentions_iff : n.Mentions name ↔ ∃ m, n.Contains m ∧ name ∈ m.refers := by
  constructor
  · intro h
    induction h with
    | own h => exact ⟨_, .self _, h⟩
    | part hm _ ih =>
      obtain ⟨k, hk, hname⟩ := ih
      exact ⟨k, .part hm hk, hname⟩
  · rintro ⟨m, hm, hname⟩
    induction hm with
    | self => exact .own hname
    | part hpart _ ih => exact .part hpart (ih hname)

instance (name : String) (n : Node) : Decidable (n.Mentions name) :=
  decidable_of_iff (∃ m ∈ n.below n.content.height, name ∈ m.refers)
    ((exists_congr fun _ => and_congr_left' contains_iff.symm).trans mentions_iff.symm)

end Check.Node

/-- A name that a file imports, and does not declare anywhere else. -/
def SourceUnit.ImportsOnce (unit : SourceUnit) (name : Ident) : Prop :=
  ∃ before s after, unit.tree.statements = before ++ s :: after ∧ name ∈ importedNames s ∧
    (∀ id ∈ importedNames s, id.name = name.name → id = name) ∧
    ∀ other ∈ before ++ after, ¬(Node.statement other).Declares name.name

namespace Check

variable {s : Statement} {name id : Ident} {file : Path}

theorem localName_importBindings : (importBindings file s).map (·.localName) = (Node.statement s).imports.map some := by
  cases s with
  | importDecl d => simp [importBindings, Node.imports, ImportDecl.localNames, Function.comp_def]
  | _ => rfl

theorem imports_of_importedNames (h : name ∈ importedNames s) : (Node.statement s).imports = importedNames s := by
  cases s with
  | importDecl => rfl
  | importEquals d =>
    unfold importedNames at h ⊢
    dsimp only at h ⊢
    split at h
    · exact nomatch h
    · rw [if_neg ‹_›]
      rfl
  | _ => exact nomatch h

theorem isModuleSyntax_of_importedNames (h : name ∈ importedNames s) : s.isModuleSyntax = true := by
  cases s with
  | importDecl | importEquals => rfl
  | _ => exact nomatch h

end Check

namespace SourceUnit

variable {unit : SourceUnit} {s other : Statement} {before after : List Statement} {p q : Piece} {name id : Ident}

/-! ## Different statements -/

/-- What is inside of one statement begins in front of what is inside of a later one. -/
theorem start_lt_start {T : List Token} {outer outer' : Span} (hs : Sound T 0 outer (.statement s))
    (hother : Sound T 0 outer' (.statement other)) (hle : s.span.stop ≤ other.span.start)
    (hp : (Piece.statement s).Contains p) (hq : (Piece.statement other).Contains q) : p.span.start < q.span.start := by
  obtain ⟨⟨-, hstop⟩, hpos⟩ := hs.encloses hp
  obtain ⟨⟨hstart, -⟩, -⟩ := hother.encloses hq
  change p.span.stop ≤ s.span.stop at hstop
  change other.span.start ≤ q.span.start at hstart
  omega

/-- Nothing inside of one statement begins where something inside of another one begins. -/
theorem Read.start_ne_start (h : unit.Read) (hclean : unit.syntaxDiagnostics = [])
    (hstatements : unit.tree.statements = before ++ s :: after) (hother : other ∈ before ++ after)
    (hp : (Piece.statement s).Contains p) (hq : (Piece.statement other).Contains q) : q.span.start ≠ p.span.start := by
  obtain ⟨_, -, hwithin, horder⟩ := parse_statements unit.text
  have hreports : (parse unit.text).reports.length = 0 := congrArg List.length (h.reports_eq_nil hclean)
  have horder := horder hreports
  rw [← h.tree_eq, hstatements] at hwithin horder
  rw [hreports] at hwithin
  have sound {a : Statement} (ha : a ∈ before ++ s :: after) := (hwithin a ha).sound_self
  have hs := sound (List.mem_append_right _ List.mem_cons_self)
  obtain ⟨-, hbehind, hfront⟩ := List.pairwise_append.mp horder
  rcases List.mem_append.mp hother with hmem | hmem
  · have hle := (hfront other hmem s List.mem_cons_self).2
    exact Nat.ne_of_lt (start_lt_start (sound (List.mem_append_left _ hmem)) hs hle hq hp)
  · have hle := ((List.pairwise_cons.mp hbehind).1 other hmem).2
    exact Nat.ne_of_gt (start_lt_start hs (sound (List.mem_append_right _ (List.mem_cons_of_mem _ hmem))) hle hp hq)

/-! ## One statement -/

/-- Names that a file imports at one place are one. -/
theorem Read.importedNames_inj (h : unit.Read) (hname : name ∈ unit.tree.statements.flatMap importedNames)
    (hid : id ∈ unit.tree.statements.flatMap importedNames) (hstart : id.span.start = name.span.start) : id = name := by
  obtain ⟨lo, hi, hplaced⟩ := h.placed_imports
  obtain ⟨hT, -⟩ := ruled_lex unit.text
  have token {id : Ident} (hid : id ∈ unit.tree.statements.flatMap importedNames) :
      ∃ i < (lex unit.text).tokens.length, id.span = Parser.spanOf (lex unit.text).tokens i :=
    (hplaced.between _ (List.mem_map_of_mem hid)).2.2.2.2
  obtain ⟨i, hi, hspan⟩ := token hid
  obtain ⟨j, hj, hspan'⟩ := token hname
  have heq : i = j := hT.edge_inj hi hj (by rw [edge_of_lt hi, edge_of_lt hj, ← hspan, ← hspan', hstart])
  refine List.inj_on_of_nodup_map hplaced.nodup hid hname ?_
  rw [hspan, hspan', heq]

/-- The names of one statement are told apart, so what they are bound to is. -/
theorem Read.nodup_localName (h : unit.Read) (hs : s ∈ unit.tree.statements) (hname : name ∈ importedNames s) (file : Path) :
    ((importBindings file s).map (·.localName)).Nodup := by
  obtain ⟨_, _, hplaced⟩ := h.placed_imports
  rw [localName_importBindings, imports_of_importedNames hname]
  exact ((List.nodup_flatMap.mp hplaced.nodup.of_map).1 s hs).map (Option.some_injective _)

/-! ## The zone of a name -/

/-- The other statements do not get in the way of an import. -/
theorem Read.lawful {program : Program} (h : unit.Read) (hp : program.WellRead) (hunit : unit ∈ program.units)
    (hclean : unit.syntaxDiagnostics = []) (hstatements : unit.tree.statements = before ++ s :: after)
    (hname : name ∈ importedNames s) (hfresh : ∀ other ∈ before ++ after, ¬(Node.statement other).Declares name.name)
    (binding : ImportBinding) :
    Zone.Lawful ⟨unit.path, ((Bindings.ofProgram program).fileSite unit).scope, name, binding, before ++ after⟩ where
  root := ((valid_ofProgram hp.orderly).files unit ((Bindings.program_ofProgram program).symm ▸ hunit)).1
  fresh := fun n ⟨other, hother, hn⟩ hdeclares => hfresh other hother ⟨n, hn, hdeclares⟩
  places := fun n ⟨other, hother, hn⟩ id hid => by
    have hpart := hn.piece.trans (Node.contains_import hid)
    have hown := @Node.contains_import (.statement s) name (imports_of_importedNames hname ▸ hname)
    exact h.start_ne_start hclean hstatements hother hown hpart
  modules := by
    have hmodules := hp.orderly.modules unit hunit
    rw [(Gathers.statements unit.tree.statements).modules_eq, List.nil_append, Node.ofStatements, List.flatMap_map] at hmodules
    refine hmodules.sublist (List.Sublist.flatMap ?_ _)
    rw [hstatements]
    exact List.Sublist.append_left (List.sublist_cons_self s after) before

/-- A name that is imported once has a zone. -/
theorem ImportsOnce.zone {program : Program} (h : unit.ImportsOnce name) (hp : program.WellRead) (hunit : unit ∈ program.units)
    (hclean : unit.syntaxDiagnostics = []) :
    ∃ (z : Zone) (s : Statement), z.Stems program unit s ∧ z.name = name ∧
      z.root = ((Bindings.ofProgram program).fileSite unit).scope := by
  obtain ⟨before, s, after, hstatements, hname, honce, hfresh⟩ := h
  have hread := hp.read_of_mem hunit
  have hs : s ∈ unit.tree.statements := hstatements ▸ List.mem_append_right _ List.mem_cons_self
  have hmem {id : Ident} (hid : id ∈ importedNames s) : id ∈ unit.tree.statements.flatMap importedNames :=
    List.mem_flatMap.mpr ⟨s, hs, hid⟩
  have hlocal : (importBindings unit.path s).map (·.localName) = (importedNames s).map some :=
    imports_of_importedNames hname ▸ localName_importBindings
  obtain ⟨binding, hbinding, hnamed⟩ := List.mem_map.mp (hlocal ▸ List.mem_map_of_mem hname)
  have hmodule : unit.isModule = true := by
    rw [SourceUnit.isModule, SourceModule.hasModuleSyntax, Bool.or_eq_true]
    exact .inl (List.any_eq_true.mpr ⟨s, hs, isModuleSyntax_of_importedNames hname⟩)
  refine ⟨_, s, ⟨hunit, hmodule, rfl, ⟨before, after, hstatements, rfl⟩, hbinding, hnamed, fun other hother hne => ?_,
    hread.lawful hp hunit hclean hstatements hname hfresh binding⟩, rfl, rfl⟩
  -- Under the same name, or at the same place, there would be the same import.
  have hothers : other.localName ∈ (importedNames s).map some := hlocal ▸ List.mem_map_of_mem hother
  obtain ⟨id, hid, hlocalName⟩ := List.mem_map.mp hothers
  have hdistinct : id ≠ name := by
    rintro rfl
    exact hne (List.inj_on_of_nodup_map (hread.nodup_localName hs hname unit.path) hother hbinding (hlocalName.symm.trans hnamed.symm))
  exact ⟨id, hlocalName.symm, fun heq => hdistinct (honce id hid heq), fun hstart =>
    hdistinct (hread.importedNames_inj (hmem hname) (hmem hid) hstart)⟩

end SourceUnit

end Recheck
