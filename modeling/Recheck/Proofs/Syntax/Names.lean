import Mathlib.Data.List.TakeWhile
import Recheck.Proofs.Syntax.Respacing
import Recheck.Proofs.Syntax.Spans.Text

/-!
# What declarations are called

A declaration takes its name from an identifier, and no reserved word is one. So what stands at the top of a text without
faults is called by identifiers (`parse_proper`); a namespace may have a dotted name, which begins with one. Words behind
`export` that are no identifiers, such as the name of a default export, are only found in export lists.
-/

set_option autoImplicit false

namespace Recheck.Syntax

/-! ## Identifiers -/

theorem punctuation_ne_identifier (cs : List Char) : (punctuation cs).1 ≠ .identifier := by
  unfold punctuation
  split <;> first | decide | (split <;> decide)

/-- What is scanned as an identifier is spelled as one. -/
theorem isIdentifier_of_scan {c : Char} {cs : List Char} (h : (scan c cs).kind = .identifier) :
    isIdentifier (String.ofList ((c :: cs).take (scan c cs).length)) := by
  by_cases hname : isNameStart c
  · rw [scan_name hname] at h ⊢
    have hparts : (cs.take (runLength isNamePart cs)).all isNamePart := by
      rw [runLength, ← List.prefix_iff_eq_take.mp (List.takeWhile_prefix _)]
      exact List.all_takeWhile
    have hword : isWord (String.ofList (c :: cs.take (runLength isNamePart cs))) := by
      rw [isWord, String.toList_ofList]
      exact Bool.and_eq_true_iff.mpr ⟨hname, hparts⟩
    rw [List.take_succ_cons]
    exact Bool.and_eq_true_iff.mpr ⟨hword, decide_eq_true h⟩
  · exfalso
    rw [scan, if_neg hname] at h
    split at h
    · cases h
    · split at h
      · cases h
      · split at h
        · cases h
        · exact punctuation_ne_identifier _ h

theorem isIdentifier_lexFrom (offset : Nat) (cs : List Char) :
    ∀ t ∈ (lexFrom offset cs).tokens, t.kind = .identifier → isIdentifier t.text := by
  induction hn : cs.length using Nat.strongRecOn generalizing offset cs with
  | _ n ih =>
    intro t ht hkind
    cases hcs : cs.drop (gap cs).length with
    | nil =>
      rw [lexFrom_end hcs] at ht
      obtain rfl := List.mem_singleton.mp ht
      exact nomatch hkind
    | cons d ds =>
      have hshort : ((d :: ds).drop (scan d ds).length).length < n := by
        have hpos := scan_pos d ds
        have hlength := congrArg List.length hcs
        rw [List.length_drop, List.length_cons] at hlength
        rw [List.length_drop, List.length_cons]
        omega
      rw [lexFrom_scan hcs] at ht
      rcases List.mem_cons.mp ht with rfl | ht
      · exact isIdentifier_of_scan hkind
      · exact ih _ hshort _ _ rfl t ht hkind

/-- Every identifier among the tokens is spelled as one. -/
def Identifiers (T : List Token) : Prop :=
  ∀ i, Parser.kindOf T i = .identifier → isIdentifier (Parser.textOf T i)

theorem identifiers_lex (text : String) : Identifiers (lex text).tokens := by
  intro i hkind
  unfold Parser.kindOf at hkind
  unfold Parser.textOf
  cases h : (lex text).tokens[i]? with
  | none => rw [h] at hkind; exact nomatch hkind
  | some t =>
    rw [h] at hkind
    exact isIdentifier_lexFrom 0 text.toList t (List.mem_of_getElem? h) hkind

/-! ## Dotted names -/

/-- A name up to its first dot. -/
def firstPart (name : String) : String := String.ofList (name.toList.takeWhile (· ≠ '.'))

theorem isNamePart_ne_dot {c : Char} (h : isNamePart c) : c ≠ '.' := by
  rintro rfl
  exact nomatch h

theorem firstPart_of_isWord {name : String} (h : isWord name) : firstPart name = name := by
  have hall : ∀ c ∈ name.toList, c ≠ '.' := by
    unfold isWord at h
    cases hcs : name.toList with
    | nil => exact nofun
    | cons c cs =>
      rw [hcs] at h
      obtain ⟨hstart, hparts⟩ := Bool.and_eq_true_iff.mp h
      intro d hd
      rcases List.mem_cons.mp hd with rfl | hd
      · exact isNamePart_ne_dot (by rw [isNamePart, hstart, Bool.true_or])
      · exact isNamePart_ne_dot (List.all_eq_true.mp hparts d hd)
  have htake : name.toList.takeWhile (· ≠ '.') = name.toList :=
    List.takeWhile_eq_self_iff.mpr fun c hc => decide_eq_true (hall c hc)
  rw [firstPart, htake, String.ofList_toList]

/-- More parts behind a dot leave the first one as it is. -/
theorem firstPart_append_dot (name rest : String) : firstPart (name ++ "." ++ rest) = firstPart name := by
  have htake (cs : List Char) : (cs ++ '.' :: rest.toList).takeWhile (· ≠ '.') = cs.takeWhile (· ≠ '.') := by
    induction cs with
    | nil => exact List.takeWhile_cons_of_neg (by decide)
    | cons c cs ih =>
      by_cases hc : c = '.'
      · rw [List.cons_append, List.takeWhile_cons_of_neg (by simp [hc]), List.takeWhile_cons_of_neg (by simp [hc])]
      · rw [List.cons_append, List.takeWhile_cons_of_pos (by simp [hc]), List.takeWhile_cons_of_pos (by simp [hc]), ih]
  have hlist : (name ++ "." ++ rest).toList = name.toList ++ '.' :: rest.toList := by
    rw [String.toList_append, String.toList_append, List.append_assoc]
    rfl
  rw [firstPart, firstPart, hlist, htake]

/-- An identifier, or several with dots between them of which the first is one. -/
def StartsIdentified (name : String) : Prop := isIdentifier (firstPart name)

theorem StartsIdentified.of_isIdentifier {name : String} (h : isIdentifier name) : StartsIdentified name := by
  rw [StartsIdentified, firstPart_of_isWord (Bool.and_eq_true_iff.mp h).1]
  exact h

/-! ## Statements -/

namespace Statement

/-- The names that a statement gives to what it declares. What an import brings in has its name from elsewhere. -/
def givenNames : Statement → List String
  | importEquals d => [d.name.name]
  | variableDecl d => d.declarators.map (·.name.name)
  | function d => d.name.toList.map (·.name)
  | interface d => [d.name.name]
  | typeAlias d => [d.name.name]
  | moduleDecl ⟨_, .named name, _, _⟩ => [name.name]
  | _ => []

/-- A declaration that `export default` may stand in front of. -/
def MayBeDefault : Statement → Prop
  | function _ => True
  | interface _ => True
  | _ => False

/-- What a statement declares is called by identifiers, and only where that is possible as the default. -/
structure Proper (s : Statement) : Prop where
  names : ∀ name ∈ s.givenNames, StartsIdentified name
  default : s.modifiers.isDefault → s.MayBeDefault

theorem Proper.withSpan {s : Statement} (h : s.Proper) (span : Span) : (s.withSpan span).Proper := by
  cases s with
  | moduleDecl d => obtain ⟨modifiers, name, body, _⟩ := d; cases name <;> exact ⟨h.names, h.default⟩
  | _ => exact ⟨h.names, h.default⟩

theorem Proper.of_plain {s : Statement} (hnames : s.givenNames = []) (hdefault : s.modifiers.isDefault = false) : s.Proper where
  names := by rw [hnames]; exact nofun
  default h := by rw [hdefault] at h; exact nomatch h

end Statement

namespace Parser

variable {T : List Token} {i j : Nat} {g : Grammar}

/-! ## What is read for a name -/

namespace Builds

/-- An expression declares nothing. -/
theorem expressionStatement_proper (hg : Nests T 0 g) : Builds T 0 (Parser.expressionStatement g) i fun s _ => s.Proper := by
  unfold Parser.expressionStatement
  refine remaining (seq (exprNode hg) fun e k _ => remaining ?_)
  split
  · exact pure (.of_plain rfl rfl)
  · exact seq expectSemicolon fun _ j _ => pure (.of_plain rfl rfl)

section

variable (hT : Identifiers T)
include hT

theorem takeIdent_identified (hkind : kindOf T i = .identifier) :
    Builds T 0 Parser.takeIdent i fun name _ => StartsIdentified name.name := by
  unfold Parser.takeIdent
  refine currentText (currentSpan (advance_bind (by rw [hkind]; decide) (pure ?_)))
  exact .of_isIdentifier (hT i hkind)

theorem expectIdent_identified : Builds T 0 Parser.expectIdent i fun name _ => StartsIdentified name.name := by
  unfold Parser.expectIdent
  refine atKind ?_
  split
  · rename_i hkind
    exact takeIdent_identified hT (of_decide_eq_true hkind)
  · exact report_bind (currentSpan (pure fun hf => absurd rfl hf))

theorem functionName_identified (modifiers : Modifiers) :
    Builds T 0 (Parser.functionName modifiers) i fun name _ => ∀ n ∈ name, StartsIdentified n.name := by
  unfold Parser.functionName
  refine atKind ?_
  split
  · rename_i hkind
    refine bind (takeIdent_identified hT (of_decide_eq_true hkind)) fun name j _ => pure fun hname => ?_
    rintro _ ⟨⟩
    exact hname
  · split
    · exact pure nofun
    · exact skip expectIdent fun j _ => pure nofun

theorem namespaceName_identified : Builds T 0 Parser.namespaceName i fun name _ => StartsIdentified name.name := by
  unfold Parser.namespaceName
  refine bind (expectIdent_identified hT) fun first k _ => ?_
  refine repeating (I := fun (name : Ident) _ => StartsIdentified name.name) fun name m _ => ?_
  unfold Parser.nameStep
  refine eat (by decide) (fun _ => seq expectIdent fun next j _ => pure fun hname => ?_) fun _ => pure id
  change StartsIdentified (name.name ++ "." ++ next.name)
  rw [StartsIdentified, firstPart_append_dot]
  exact hname

theorem moduleName_identified (hkind : kindOf T i = .identifier) :
    Builds T 0 Parser.moduleName i fun name _ => ∀ ident, name = .named ident → StartsIdentified ident.name := by
  have hread : kindOf T i ≠ .eof := by rw [hkind]; decide
  unfold Parser.moduleName
  refine atWord fun b _ => ?_
  cases b with
  | true => exact currentSpan (advance_bind hread (pure nofun))
  | false =>
    refine advance_bind hread (atKind ?_)
    split
    · exact seq expectString fun s j _ => pure nofun
    · refine bind (namespaceName_identified hT) fun name j _ => pure fun hname => ?_
      rintro _ ⟨⟩
      exact hname

/-! ## What is read for a statement -/

theorem importStatement_proper (exported : Bool) (hkind : kindOf T i = .import) :
    Builds T 0 (Parser.importStatement exported) i fun s _ => s.Proper := by
  unfold Parser.importStatement
  refine currentSpan (advance_bind (by rw [hkind]; decide) (read Reads.atTypeImport fun typeOnly k _ hk => ?_))
  obtain ⟨rfl, htype⟩ := hk
  extract_lets finish rest
  have hfinish (default star : Option Ident) (named : List ImportSpecifier) (n : Nat) :
      Builds T 0 (finish default star named) n fun s _ => s.Proper :=
    seq fromSource fun source m _ => seq expectSemicolon fun _ j _ => spanFrom fun _ _ _ => pure (.of_plain rfl rfl)
  have hrest (n : Nat) : Builds T 0 (rest ⟨⟩) n fun s _ => s.Proper := by
    refine atKind ?_
    split
    · exact seq expectString fun source m _ => seq expectSemicolon fun _ j _ => spanFrom fun _ _ _ => pure (.of_plain rfl rfl)
    · refine atKind ?_
      split
      · rename_i hident
        refine bind (takeIdent_identified hT (of_decide_eq_true hident)) fun name m _ => ?_
        refine eat (by decide) (fun _ => ?_) fun _ => eat (by decide) (fun _ => ?_) fun _ => ?_
        · refine seq requireCall fun source k _ => seq expectSemicolon fun _ j _ => spanFrom fun _ _ _ => pure fun hname => ?_
          exact ⟨fun n hn => List.mem_singleton.mp hn ▸ hname, nofun⟩
        · exact (seq importNames fun names k _ => hfinish _ _ _ k).mono fun _ _ _ h _ => h
        · exact (hfinish _ _ _ _).mono fun _ _ _ h _ => h
      · exact seq importNames fun names k _ => hfinish _ _ _ k
  split
  · rename_i h
    exact advance_bind (by rw [htype h]; decide) (hrest _)
  · exact hrest _

variable (hg : Nests T 0 g)
include hg

theorem declarator_identified : Builds T 0 (Parser.declarator g) i fun d _ => StartsIdentified d.name.name := by
  unfold Parser.declarator
  refine currentSpan (bind (expectIdent_identified hT) fun name k _ => skip (eat_any (by decide)) fun m _ => ?_)
  refine seq (typeAfter hg (by decide)) fun type n _ => seq (exprAfter hg (by decide)) fun init j _ => ?_
  exact spanFrom fun _ _ _ => pure id

theorem variableStatement_proper {modifiers : Modifiers} (hmodifiers : modifiers.isDefault = false) (hkind : kindOf T i ≠ .eof) :
    Builds T 0 (Parser.variableStatement g modifiers) i fun d _ => (Statement.variableDecl d).Proper := by
  unfold Parser.variableStatement
  refine currentSpan (current ?_)
  extract_lets kind
  refine advance_bind hkind (bind (declarator_identified hT hg) fun first k _ => ?_)
  refine bind (separated (P := fun _ _ (d : Declarator) => StartsIdentified d.name.name) (by decide) (Nat.le_refl k)
    (fun _ => declarator_identified hT hg) fun _ _ h => h) fun decls m _ => ?_
  refine seq expectSemicolon fun _ j _ => spanFrom fun _ _ _ => pure fun hdecls hfirst => ⟨fun name hname => ?_, fun h => ?_⟩
  · obtain ⟨d, hd, rfl⟩ := List.mem_map.mp hname
    exact hdecls hfirst d hd
  · exact nomatch hmodifiers.symm.trans h

theorem functionDecl_proper (modifiers : Modifiers) :
    Builds T 0 (Parser.functionDecl g modifiers) i fun d _ => (Statement.function d).Proper := by
  unfold Parser.functionDecl
  refine currentSpan (seq (expect (by decide)) fun _ k₁ _ => skip (eat_any (by decide)) fun k₂ _ => ?_)
  refine bind (functionName_identified hT modifiers) fun name k₃ _ => seq (typeParams hg) fun names k₄ _ => ?_
  refine seq (params hg) fun ps m _ => seq (typeAfter hg (by decide)) fun ret n _ => atKind ?_
  extract_lets finish
  have tail (body : Option Block) (j : Nat) : Builds T 0 (finish body) j fun d _ =>
      (∀ n ∈ name, StartsIdentified n.name) → (Statement.function d).Proper := by
    refine spanFrom fun _ _ _ => pure fun hname => ⟨fun n hn => ?_, fun _ => trivial⟩
    obtain ⟨ident, hident, rfl⟩ := List.mem_map.mp hn
    exact hname ident (Option.mem_toList.mp hident)
  split
  · exact seq (block hg) fun body j _ => tail (some body) j
  · exact seq expectSemicolon fun _ j _ => tail none j

theorem interfaceDecl_proper (modifiers : Modifiers) :
    Builds T 0 (Parser.interfaceDecl g modifiers) i fun d _ => (Statement.interface d).Proper := by
  unfold Parser.interfaceDecl
  refine currentSpan (seq (expect (by decide)) fun _ k₁ _ => bind (expectIdent_identified hT) fun name k₂ _ => ?_)
  refine seq (typeParams hg) fun names k₃ _ => ?_
  extract_lets finish
  have tail (bases : List TypeNode) (m : Nat) : Builds T 0 (finish bases) m fun d _ =>
      StartsIdentified name.name → (Statement.interface d).Proper := by
    refine seq (typeMembers hg) fun members j _ => spanFrom fun _ _ _ => pure fun hname => ⟨fun n hn => ?_, fun _ => trivial⟩
    exact List.mem_singleton.mp hn ▸ hname
  refine eatWord ?_ (tail [] k₃)
  refine seq (typeNode hg) fun first n _ => ?_
  exact seq (separated (by decide) (Nat.le_refl n) (fun _ => typeNode hg) (grows_within _)) fun bases m _ => tail bases m

theorem typeAlias_proper {modifiers : Modifiers} (hmodifiers : modifiers.isDefault = false) (hkind : kindOf T i ≠ .eof) :
    Builds T 0 (Parser.typeAlias g modifiers) i fun d _ => (Statement.typeAlias d).Proper := by
  unfold Parser.typeAlias
  refine currentSpan (advance_bind hkind (bind (expectIdent_identified hT) fun name k _ => seq (typeParams hg) fun names m _ => ?_))
  refine seq (expect (by decide)) fun _ n _ => seq (typeNode hg) fun type k' _ => seq expectSemicolon fun _ j _ => ?_
  refine spanFrom fun _ _ _ => pure fun hname => ⟨fun n hn => List.mem_singleton.mp hn ▸ hname, fun h => ?_⟩
  exact nomatch hmodifiers.symm.trans h

theorem moduleDecl_proper {modifiers : Modifiers} (hmodifiers : modifiers.isDefault = false) (hkind : kindOf T i = .identifier) :
    Builds T 0 (Parser.moduleDecl g modifiers) i fun d _ => (Statement.moduleDecl d).Proper := by
  unfold Parser.moduleDecl
  refine currentSpan (bind (moduleName_identified hT hkind) fun name k _ => ?_)
  extract_lets finish
  have tail (body : Option (List Statement)) (j : Nat) : Builds T 0 (finish body) j fun d _ =>
      (∀ ident, name = .named ident → StartsIdentified ident.name) → (Statement.moduleDecl d).Proper := by
    refine spanFrom fun _ _ _ => pure fun hname => ⟨fun n hn => ?_, fun h => nomatch hmodifiers.symm.trans h⟩
    cases name with
    | named ident => exact List.mem_singleton.mp hn ▸ hname ident rfl
    | _ => exact nomatch hn
  refine eat (by decide) (fun _ => ?_) fun _ => ?_
  · exact seq (statementList hg) fun body j _ => tail (some body) j
  · exact seq expectSemicolon fun _ j _ => tail none j

theorem declaration_proper {modifiers : Modifiers} (hmodifiers : modifiers.isDefault = false) {i₀ : Nat} :
    Builds T 0 (Parser.declaration g modifiers (spanOf T i₀)) i fun s _ => s.Proper := by
  unfold Parser.declaration
  extract_lets failed
  have hfailed (k : Nat) : Builds T 0 failed k fun s _ => s.Proper :=
    report_bind (read Reads.recoverStatement fun _ j _ _ => spanFrom fun _ _ _ => pure fun hf => absurd rfl hf)
  refine read (Reads.eatWord_any _) fun declared k _ _ => ?_
  extract_lets modifiers'
  have hmodifiers' : modifiers'.isDefault = false := by
    unfold modifiers'
    split <;> exact hmodifiers
  have stretched {α : Type} {p : Parse α} {make : α → Statement} (h : Builds T 0 p k fun d _ => (make d).Proper) :
      Builds T 0 (p >>= fun d => Pure.pure ((make d).stretch (spanOf T i₀))) k fun s _ => s.Proper :=
    bind h fun d j _ => pure fun hd => hd.withSpan _
  refine current ?_
  split <;> rename_i hkind
  · exact stretched (variableStatement_proper hT hg hmodifiers' (by rw [hkind]; decide))
  · exact stretched (variableStatement_proper hT hg hmodifiers' (by rw [hkind]; decide))
  · exact stretched (variableStatement_proper hT hg hmodifiers' (by rw [hkind]; decide))
  · exact stretched (functionDecl_proper hT hg _)
  · exact stretched (interfaceDecl_proper hT hg _)
  · refine currentText ?_
    split
    · exact stretched (typeAlias_proper hT hg hmodifiers' (by rw [hkind]; decide))
    · split
      · exact stretched (moduleDecl_proper hT hg hmodifiers' hkind)
      · exact hfailed k
  · exact hfailed k

theorem exportStatement_proper (hkind : kindOf T i = .export) :
    Builds T 0 (Parser.exportStatement g) i fun s _ => s.Proper := by
  unfold Parser.exportStatement
  refine currentSpan (advance_bind (by rw [hkind]; decide) ?_)
  extract_lets finish
  have hfinish (kind : ExportKind) (k : Nat) : Builds T 0 (finish kind) k fun s _ => s.Proper :=
    seq expectSemicolon fun _ j _ => spanFrom fun _ _ _ => pure (.of_plain rfl rfl)
  refine current ?_
  split <;> rename_i hnext
  · exact seq (exportStar hnext) fun kind k _ => hfinish kind k
  · exact seq exportList fun kind k _ => hfinish kind k
  · exact advance_bind (by rw [hnext]; decide) (seq (exprNode hg) fun _ k _ => hfinish _ k)
  · refine advance_bind (by rw [hnext]; decide) (current ?_)
    split
    · refine bind (functionDecl_proper hT hg _) fun d j _ => spanFrom fun s _ _ => pure fun h => ?_
      exact h.withSpan s
    · refine bind (interfaceDecl_proper hT hg _) fun d j _ => spanFrom fun s _ _ => pure fun h => ?_
      exact h.withSpan s
    · exact seq (exprNode hg) fun _ k _ => hfinish _ k
  · exact bind (importStatement_proper hT true hnext) fun s j _ => pure fun h => h.withSpan _
  · refine atWord fun b hb => kindAt ?_
    split
    · rename_i htype
      have hword : kindOf T (i + 1) = .identifier := hb (Bool.and_eq_true_iff.mp htype).1
      exact advance_bind (by rw [hword]; decide) (seq exportList fun kind k _ => hfinish kind k)
    · exact declaration_proper hT hg rfl

theorem statementForm_proper : Builds T 0 (Parser.statementForm g) i fun s _ => s.Proper := by
  unfold Parser.statementForm
  have plain {α : Type} {p : Parse α} {Q : α → Nat → Prop} {make : α → Statement} (h : Builds T 0 p i Q)
      (hnames : ∀ d, (make d).givenNames = []) (hdefault : ∀ d, (make d).modifiers.isDefault = false) :
      Builds T 0 (p >>= fun d => Pure.pure (make d)) i fun s _ => s.Proper :=
    seq h fun d _ _ => pure (.of_plain (hnames d) (hdefault d))
  refine current ?_
  split <;> rename_i hkind
  · refine kindAt ?_
    split
    · exact expressionStatement_proper hg
    · exact expressionStatement_proper hg
    · exact importStatement_proper hT false hkind
  · exact exportStatement_proper hT hg hkind
  · exact bind (variableStatement_proper hT hg rfl (by rw [hkind]; decide)) fun _ _ _ => pure id
  · exact bind (variableStatement_proper hT hg rfl (by rw [hkind]; decide)) fun _ _ _ => pure id
  · exact bind (variableStatement_proper hT hg rfl (by rw [hkind]; decide)) fun _ _ _ => pure id
  · exact bind (functionDecl_proper hT hg _) fun _ _ _ => pure id
  · exact bind (interfaceDecl_proper hT hg _) fun _ _ _ => pure id
  · exact plain (ifStatement hg (by rw [hkind]; decide)) (fun _ => rfl) fun _ => rfl
  · exact plain (block hg) (fun _ => rfl) fun _ => rfl
  · exact plain (returnStatement hg (by rw [hkind]; decide)) (fun _ => rfl) fun _ => rfl
  · exact currentSpan (advance_bind (by rw [hkind]; decide) (pure (.of_plain rfl rfl)))
  · refine read Reads.atDeclarationWord fun b k _ hk => ?_
    obtain rfl := hk
    split
    · exact currentSpan (read (Reads.eatWord_any _) fun declared m _ _ => declaration_proper hT hg rfl)
    · exact expressionStatement_proper hg
  · exact expressionStatement_proper hg

theorem statementNode_proper : Builds T 0 (Parser.statementNode g) i fun s _ => s.Proper := by
  unfold Parser.statementNode
  refine remaining (bind (statementForm_proper hT hg) fun s k _ => remaining ?_)
  split
  · exact currentSpan (report_bind (read Reads.recoverStatement fun _ j _ _ => pure fun hf => absurd rfl hf))
  · exact pure id

theorem program_proper : Builds T 0 (Parser.program g) 0 fun statements _ => ∀ s ∈ statements, s.Proper := by
  unfold Parser.program
  refine bind (repeating (I := fun (items : List Statement) _ => ∀ s ∈ items, s.Proper) ?_) fun items k _ => pure fun h s hs => ?_
  · intro items k _
    unfold Parser.programStep
    refine atEnd ?_
    split
    · exact pure id
    · refine atKind ?_
      split
      · rename_i hbrace
        exact report_bind (advance_bind (by rw [of_decide_eq_true hbrace]; decide) (pure fun hf => absurd rfl hf))
      · exact bind (statementNode_proper hT hg) fun s m _ => pure fun hs hitems => List.forall_mem_cons.mpr ⟨hs, hitems⟩
  · exact h nofun s (List.mem_reverse.mp hs)

end

end Builds

end Parser

/-- The statements of a text without faults give identifiers for names, and only functions and interfaces stand behind
`export default`. -/
theorem parse_proper {text : String} (hclean : (parse text).reports = []) : ∀ s ∈ (parse text).tree.statements, s.Proper := by
  obtain ⟨j, -, h⟩ := parse_builds_clean hclean
    (Parser.Builds.program_proper (identifiers_lex text) (Parser.nests_failing.over (lex text).tokens.length))
  exact h

end Recheck.Syntax
